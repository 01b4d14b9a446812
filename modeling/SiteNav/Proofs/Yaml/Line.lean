import SiteNav.Yaml.Outline
import SiteNav.Yaml.Writer

/-!
# Written lines

What comes after a line of a written text is read from the first character that is no space: there a
word starts, or the text ends. Whatever is written is printable, so no break in it has to be unified
and no blank but the space occurs.
-/
namespace SiteNav.Yaml
open Written (spaces isPrintable)

/-- A character at which no gap goes on. -/
def StartsWord (c : Char) : Prop :=
  isBlank c = false ∧ isBreak c = false ∧ c ≠ '#' ∧ c ≠ '\ufeff'

instance (c : Char) : Decidable (StartsWord c) :=
  inferInstanceAs (Decidable (isBlank c = false ∧ isBreak c = false ∧ c ≠ '#' ∧ c ≠ '\ufeff'))

/-- The first word of a text at the start of a line. -/
def Tail.ofLine (line : Nat) (cs : List Char) : Tail :=
  let indent := cs.takeWhile (· == ' ')
  ⟨⟨line, indent.length⟩, cs.drop indent.length⟩

/-- Lines of which the first is indented by at most `column`, if there are any. -/
def Follows (column : Nat) (rest : List Char) : Prop :=
  rest = [] ∨ ∃ n c cs, n ≤ column ∧ rest = spaces n ++ c :: cs ∧ StartsWord c

section Gaps
variable {c : Char} {flow allowed : Bool} {m : Mark}

theorem StartsWord.ne_space (h : StartsWord c) : c ≠ ' ' := by
  rintro rfl
  exact absurd h.1 (by decide)

theorem StartsWord.ne_tab (h : StartsWord c) : c ≠ '\t' := by
  rintro rfl
  exact absurd h.1 (by decide)

theorem Tail.ofLine_spaces (line n : Nat) (hc : c ≠ ' ') (cs : List Char) :
    Tail.ofLine line (spaces n ++ c :: cs) = ⟨⟨line, n⟩, c :: cs⟩ := by
  have htake : (spaces n ++ c :: cs).takeWhile (· == ' ') = spaces n := by
    rw [spaces, List.takeWhile_append_of_pos (by simp), List.takeWhile_cons_of_neg (by simpa using hc),
      List.append_nil]
  have hlength : (spaces n).length = n := List.length_replicate
  rw [Tail.ofLine, htake, hlength, List.drop_left' hlength]

theorem Tail.length_ofLine_le (line : Nat) (cs : List Char) :
    (Tail.ofLine line cs).chars.length ≤ cs.length := by
  simp [Tail.ofLine]

theorem past_of_not_isBreak (hc : isBreak c = false) : m.past c = ⟨m.line, m.column + 1⟩ := by
  simp [Mark.past, hc]

theorem column_past_pos (hc : isBreak c = false) : 0 < (m.past c).column := by
  rw [past_of_not_isBreak hc]
  exact Nat.succ_pos _

theorem boundary?_of_column (h : 0 < m.column) (cs : List Char) : boundary? m cs = none := by
  unfold boundary?
  exact if_pos (Nat.ne_of_gt h)

theorem skipGap_word (hc : StartsWord c) (cs : List Char) :
    Outline.skipGap flow allowed false m (c :: cs) = (allowed, ⟨m, c :: cs⟩) := by
  obtain ⟨hblank, hbreak, hcomment, hmark⟩ := hc
  rw [isBlank, Bool.or_eq_false_iff] at hblank
  simp [Outline.skipGap, hbreak, hblank.1, hblank.2, hcomment, hmark]

/-- A reader that passes over a space passes over a whole indentation, up to some column. -/
theorem pass_spaces {α : Type} (f : Mark → List Char → α) {limit : Nat} (n : Nat) (cs : List Char)
    (hstep : ∀ (m : Mark) (cs : List Char), m.column < limit →
      f m (' ' :: cs) = f ⟨m.line, m.column + 1⟩ cs) (hn : m.column + n ≤ limit) :
    f m (spaces n ++ cs) = f ⟨m.line, m.column + n⟩ cs := by
  induction n generalizing m with
  | zero => rfl
  | succ n ih =>
    have hspaces : spaces (n + 1) ++ cs = ' ' :: (spaces n ++ cs) := rfl
    rw [hspaces, hstep m _ (by omega), ih (by simp only; omega)]
    simp only [Nat.add_assoc, Nat.add_comm 1 n]

theorem skipGap_spaces (n : Nat) (cs : List Char) :
    Outline.skipGap flow allowed false m (spaces n ++ cs) =
      Outline.skipGap flow allowed false ⟨m.line, m.column + n⟩ cs := by
  refine pass_spaces (Outline.skipGap flow allowed false) n cs (fun m cs _ => ?_) (Nat.le_refl _)
  rw [Outline.skipGap, if_neg (by decide), if_neg (by simp), if_pos (by simp),
    past_of_not_isBreak rfl]

/-- After the end of a line everything up to the next word is skipped. -/
theorem skipGap_line {column : Nat} {rest : List Char} (h : Follows column rest) :
    Outline.skipGap false allowed false m ('\n' :: rest) = (true, Tail.ofLine (m.line + 1) rest) := by
  have hpast : m.past '\n' = ⟨m.line + 1, 0⟩ := rfl
  rw [Outline.skipGap, if_pos (by decide), hpast, Bool.not_false, Bool.or_true]
  rcases h with rfl | ⟨n, c, cs, _, rfl, hc⟩
  · rfl
  · rw [skipGap_spaces, skipGap_word hc, Tail.ofLine_spaces _ _ hc.ne_space, Nat.zero_add]

end Gaps

section Printable
variable {c : Char}

theorem isAllowed_of_isPrintable (h : isPrintable c = true) : isAllowed c = true := by
  simp only [isPrintable, isAllowed, Bool.or_eq_true, Bool.and_eq_true, beq_iff_eq,
    decide_eq_true_eq] at h ⊢
  omega

theorem ne_of_isPrintable {x : Char} (h : isPrintable c = true) (hx : isPrintable x = false) :
    c ≠ x := by
  rintro rfl
  rw [h] at hx
  cases hx

theorem unifyBreaks_eq_self {cs : List Char} (h : ∀ c ∈ cs, isPrintable c = true) :
    unifyBreaks cs = cs := by
  induction cs with
  | nil => rfl
  | cons c cs ih =>
    have hreturn := ne_of_isPrintable (h c (by simp)) (x := '\r') rfl
    have hnext := ne_of_isPrintable (h c (by simp)) (x := '\x85') rfl
    have hcs := ih fun d hd => h d (by simp [hd])
    rw [unifyBreaks]
    · simp [hreturn, hnext, hcs]
    · rintro _ rfl
      exact absurd rfl hreturn

theorem isBreak_eq_of_isPrintable (h : isPrintable c = true) : Written.isBreak c = isBreak c := by
  have hreturn : (c == '\r') = false := beq_false_of_ne (ne_of_isPrintable h rfl)
  have hnext : (c == '\x85') = false := beq_false_of_ne (ne_of_isPrintable h rfl)
  simp [Written.isBreak, isBreak, hreturn, hnext]

theorem isGap_eq_of_isPrintable (h : isPrintable c = true) :
    Written.isGap c = (isBlank c || isBreak c) := by
  have htab : (c == '\t') = false := beq_false_of_ne (ne_of_isPrintable h rfl)
  simp [Written.isGap, isBlank, htab, isBreak_eq_of_isPrintable h]

theorem isBlank_eq_of_isPrintable (h : isPrintable c = true) : isBlank c = (c == ' ') := by
  have htab := ne_of_isPrintable h (x := '\t') rfl
  simp [isBlank, htab]

end Printable

end SiteNav.Yaml
