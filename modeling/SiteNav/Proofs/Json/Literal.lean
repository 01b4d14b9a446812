import SiteNav.Json.Literal
import SiteNav.Json.Writer
import SiteNav.Proofs.Text.Digit

/-!
# Written JSON strings

Reading a written string gives the string back and stops behind its closing quote, for all characters
and with any text after it. Each character is read back from its own escape, so the string is by
induction.
-/
namespace SiteNav.Json.Literal
open Text

theorem State.unpaired_chars (acc : List Char) (pos : Pos) :
    State.unpaired { chars := acc } pos = { chars := acc } := rfl

theorem unit?_control : ∀ n < 32,
    unit? '0' '0' (Nat.digitChar (n / 16)) (Nat.digitChar (n % 16)) = some n := by decide

theorem scanFrom_simple (acc rest : List Char) (pos : Pos) {c x : Char} (hu : c ≠ 'u')
    (h : simpleEscape? c = some x) :
    scanFrom { chars := acc } ('\\' :: c :: rest) pos =
      scanFrom { chars := x :: acc } rest ((pos.next '\\').nextByte c) := by
  rw [scanFrom]
  · simp [h, State.unpaired_chars, State.push]
  · intros; simp_all
  · intros; simp_all

theorem scanFrom_plain (acc rest : List Char) (pos : Pos) {c : Char} (hq : c ≠ '"')
    (hb : c ≠ '\\') (hc : ¬ c < ' ') :
    scanFrom { chars := acc } (c :: rest) pos =
      scanFrom { chars := c :: acc } rest (pos.next c) := by
  rw [scanFrom]
  · simp [hc, State.unpaired_chars, State.push]
  all_goals (intros; simp_all)

theorem scanFrom_control (acc rest : List Char) (pos : Pos) {c : Char} (hc : c < ' ') :
    ∃ pos', scanFrom { chars := acc } ('\\' :: 'u' :: '0' :: '0' ::
        Nat.digitChar (c.toNat / 16) :: Nat.digitChar (c.toNat % 16) :: rest) pos =
      scanFrom { chars := c :: acc } rest pos' := by
  have hn : c.toNat < 32 := (lt_space_iff c).1 hc
  have hlow : ¬ 0xDC00 ≤ c.toNat := by omega
  have hhigh : ¬ 0xD800 ≤ c.toNat := by omega
  refine ⟨(pos.nexts ['\\', 'u']).nexts ['0', '0', Nat.digitChar (c.toNat / 16),
    Nat.digitChar (c.toNat % 16)], ?_⟩
  rw [scanFrom]
  simp only [unit?_control c.toNat hn, State.pushUnit, State.push, hlow, hhigh, Option.isSome_none,
    Bool.false_eq_true, if_false, false_and, decide_false, Bool.false_and, Char.ofNat_toNat]

/-- An escaped character is read back, whatever comes before and after it. -/
theorem scanFrom_escape (acc rest : List Char) (pos : Pos) (c : Char) :
    ∃ pos', scanFrom { chars := acc } (escape c ++ rest) pos =
      scanFrom { chars := c :: acc } rest pos' := by
  unfold escape
  split
  case h_8 _ hquote hbackslash _ _ _ _ _ =>
    split
    case isTrue hc => exact scanFrom_control acc rest pos hc
    case isFalse hc => exact ⟨_, scanFrom_plain acc rest pos hquote hbackslash hc⟩
  all_goals exact ⟨_, scanFrom_simple acc rest pos (by decide) rfl⟩

theorem scanFrom_flatMap_escape (cs acc rest : List Char) (pos : Pos) :
    ∃ pos', scanFrom { chars := acc } (cs.flatMap escape ++ '"' :: rest) pos =
      .done (.ok (String.ofList (acc.reverse ++ cs))) rest pos' := by
  induction cs generalizing acc pos with
  | nil =>
    refine ⟨pos.next '"', ?_⟩
    simp [scanFrom, State.unpaired_chars, State.value]
  | cons c cs ih =>
    obtain ⟨pos₁, h₁⟩ := scanFrom_escape acc (cs.flatMap escape ++ '"' :: rest) pos c
    obtain ⟨pos₂, h₂⟩ := ih (c :: acc) pos₁
    refine ⟨pos₂, ?_⟩
    rw [List.flatMap_cons, List.append_assoc, h₁, h₂]
    simp

theorem write_append (s : String) (rest : List Char) :
    write s ++ rest = '"' :: (s.toList.flatMap escape ++ '"' :: rest) := by
  simp [write]

/-- A written string is read back, whatever follows it; its opening quote is behind. -/
theorem scan_escaped (s : String) (rest : List Char) (pos : Pos) :
    ∃ pos', scan (s.toList.flatMap escape ++ '"' :: rest) pos = .done (.ok s) rest pos' := by
  obtain ⟨pos', h⟩ := scanFrom_flatMap_escape s.toList [] rest pos
  exact ⟨pos', by simpa [scan] using h⟩

end SiteNav.Json.Literal
