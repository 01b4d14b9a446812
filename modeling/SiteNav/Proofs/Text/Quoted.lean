import Mathlib.Data.List.Basic
import SiteNav.Text.Quoted

/-!
# Quoted texts told apart

Whatever comes behind a quoted text, the text and what comes behind it are known from the whole: no
escape is the beginning of another, none begins with a quote, and so the closing quote is found where
it was written. The same holds of a number in front of a character that is no digit. No quoted text
holds a line feed.
-/
namespace SiteNav.Text

/-- Two texts without a character are told apart from what comes behind it. -/
theorem append_stop_inj {stop : Char} {xs ys r r' : List Char} (hxs : stop ∉ xs) (hys : stop ∉ ys)
    (h : xs ++ stop :: r = ys ++ stop :: r') : xs = ys ∧ r = r' := by
  induction xs generalizing ys with
  | nil =>
    cases ys with
    | nil => exact ⟨rfl, (List.cons.inj h).2⟩
    | cons y ys => exact absurd (List.mem_cons.2 (.inl (List.cons.inj h).1)) hys
  | cons x xs ih =>
    cases ys with
    | nil => exact absurd (List.mem_cons.2 (.inl (List.cons.inj h).1.symm)) hxs
    | cons y ys =>
      obtain ⟨rfl, htail⟩ := List.cons.inj h
      obtain ⟨rfl, hrest⟩ := ih (List.not_mem_of_not_mem_cons hxs) (List.not_mem_of_not_mem_cons hys) htail
      exact ⟨rfl, hrest⟩

/-! ## Numbers -/

section Digits
variable {b m n : Nat}

theorem isAlphanum_digitChar : ∀ d < 16, (Nat.digitChar d).isAlphanum = true := by decide

theorem digitChar_inj : ∀ d < 16, ∀ e < 16, Nat.digitChar d = Nat.digitChar e → d = e := by decide

theorem isAlphanum_of_mem_toDigits (hb : 1 < b) (hb' : b ≤ 16) {c : Char}
    (hc : c ∈ Nat.toDigits b n) : c.isAlphanum = true := by
  induction n using Nat.strongRecOn with
  | ind n ih =>
    rw [Nat.toDigits_eq_if hb] at hc
    split_ifs at hc with hn
    · rw [List.mem_singleton.1 hc]
      exact isAlphanum_digitChar n (by omega)
    · rcases List.mem_append.1 hc with hc | hc
      · exact ih (n / b) (Nat.div_lt_self (by omega) hb) hc
      · have hlast : n % b < b := Nat.mod_lt n (by omega)
        rw [List.mem_singleton.1 hc]
        exact isAlphanum_digitChar _ (by omega)

/-- By induction on the number: the last digits agree, and so do the numbers without them. -/
theorem toDigits_inj (hb : 1 < b) (hb' : b ≤ 16) (h : Nat.toDigits b m = Nat.toDigits b n) :
    m = n := by
  induction m using Nat.strongRecOn generalizing n with
  | ind m ih =>
    rw [Nat.toDigits_eq_if hb, Nat.toDigits_eq_if (n := n) hb] at h
    split_ifs at h with hm hn hn
    · exact digitChar_inj m (by omega) n (by omega) (List.singleton_inj.1 h)
    · exact absurd (List.append_inj_left' (h.symm.trans (List.nil_append _).symm) rfl)
        Nat.toDigits_ne_nil
    · exact absurd (List.append_inj_left' (h.trans (List.nil_append _).symm) rfl)
        Nat.toDigits_ne_nil
    · obtain ⟨hinit, hlast⟩ := List.append_inj' h rfl
      have hdiv : m / b = n / b := ih (m / b) (Nat.div_lt_self (by omega) hb) hinit
      have hlt (k : Nat) : k % b < 16 := Nat.lt_of_lt_of_le (Nat.mod_lt k (by omega)) hb'
      have hmod : m % b = n % b := digitChar_inj _ (hlt m) _ (hlt n) (List.singleton_inj.1 hlast)
      rw [← Nat.div_add_mod m b, hdiv, hmod, Nat.div_add_mod]

theorem toDigits_append_inj (hb : 1 < b) (hb' : b ≤ 16) {stop : Char}
    (hstop : stop.isAlphanum = false) {r r' : List Char}
    (h : Nat.toDigits b m ++ stop :: r = Nat.toDigits b n ++ stop :: r') : m = n ∧ r = r' := by
  have hnot (k : Nat) : stop ∉ Nat.toDigits b k := by
    intro hmem
    rw [isAlphanum_of_mem_toDigits hb hb' hmem] at hstop
    cases hstop
  obtain ⟨hdigits, hrest⟩ := append_stop_inj (hnot m) (hnot n) h
  exact ⟨toDigits_inj hb hb' hdigits, hrest⟩

theorem newline_notMem_toDigits (hb : 1 < b) (hb' : b ≤ 16) : '\n' ∉ Nat.toDigits b n := by
  intro hmem
  cases isAlphanum_of_mem_toDigits hb hb' hmem

end Digits

/-! ## Escapes -/

/-- The characters that are escaped by a letter. -/
def letters : List (Char × Char) :=
  [('"', '"'), ('\\', '\\'), ('\n', 'n'), ('\r', 'r'), ('\t', 't'), ('\x00', '0')]

/-- The ways in which a character is written. -/
inductive Escapes : Char → List Char → Prop
  | letter {c x : Char} : (c, x) ∈ letters → Escapes c ['\\', x]
  | code (c : Char) : Escapes c (codePointEscape c)
  | plain {c : Char} : c ≠ '"' → c ≠ '\\' → c ≠ '\n' → Escapes c [c]

theorem escapes (c : Char) : Escapes c (escapeChar c) := by
  unfold escapeChar
  split
  case h_7 hquote hback hline hreturn htab hzero =>
    have hplain : Escapes c [c] := .plain hquote hback hline
    split_ifs
    · exact hplain
    · exact .code c
    · exact hplain
  all_goals exact .letter (by decide)

theorem letters_inj : ∀ p ∈ letters, ∀ q ∈ letters, p.2 = q.2 → p = q := by decide

theorem ne_of_mem_letters : ∀ p ∈ letters, p.2 ≠ 'u' ∧ p.2 ≠ '\n' := by decide

section
variable {c d : Char} {e f r r' : List Char}

theorem codePointEscape_append_inj (h : codePointEscape c ++ r = codePointEscape d ++ r') :
    c = d ∧ r = r' := by
  have hdigits : Nat.toDigits 16 c.toNat ++ '\x7d' :: r = Nat.toDigits 16 d.toNat ++ '\x7d' :: r' := by
    simpa [codePointEscape, hexDigits] using h
  obtain ⟨hcode, hrest⟩ := toDigits_append_inj (by omega) (by omega) rfl hdigits
  exact ⟨Char.toNat_inj.1 hcode, hrest⟩

theorem Escapes.append_inj (hc : Escapes c e) (hd : Escapes d f) (h : e ++ r = f ++ r') :
    c = d ∧ r = r' := by
  cases hc with
  | letter hx =>
    cases hd with
    | letter hy =>
      obtain ⟨hxy, hrest⟩ : _ ∧ r = r' := by simpa using h
      exact ⟨congrArg Prod.fst (letters_inj _ hx _ hy hxy), hrest⟩
    | code => exact absurd (by simpa [codePointEscape] using h : _ = 'u' ∧ _).1 (ne_of_mem_letters _ hx).1
    | plain _ hback => exact absurd (by simpa using h : '\\' = d ∧ _).1.symm hback
  | code =>
    cases hd with
    | letter hy =>
      exact absurd (by simpa [codePointEscape] using h.symm : _ = 'u' ∧ _).1 (ne_of_mem_letters _ hy).1
    | code => exact codePointEscape_append_inj h
    | plain _ hback =>
      exact absurd (by simpa [codePointEscape] using h : '\\' = d ∧ _).1.symm hback
  | plain _ hback =>
    cases hd with
    | letter => exact absurd (by simpa using h : c = '\\' ∧ _).1 hback
    | code => exact absurd (by simpa [codePointEscape] using h : c = '\\' ∧ _).1 hback
    | plain => simpa using h

theorem Escapes.quote_ne_append (hc : Escapes c e) : '"' :: r ≠ e ++ r' := by
  cases hc with
  | letter => simp
  | code => simp [codePointEscape]
  | plain hquote =>
    intro h
    exact hquote (List.cons.inj h).1.symm

theorem Escapes.newline_notMem (hc : Escapes c e) : '\n' ∉ e := by
  cases hc with
  | letter hx => simpa using (ne_of_mem_letters _ hx).2.symm
  | code => simp [codePointEscape, hexDigits, newline_notMem_toDigits]
  | plain _ _ hline => simpa using hline.symm

end

/-! ## Quoted texts -/

theorem flatMap_escapeChar_append_inj {cs ds r r' : List Char}
    (h : cs.flatMap escapeChar ++ '"' :: r = ds.flatMap escapeChar ++ '"' :: r') :
    cs = ds ∧ r = r' := by
  induction cs generalizing ds with
  | nil =>
    cases ds with
    | nil => exact ⟨rfl, (List.cons.inj h).2⟩
    | cons d ds =>
      rw [List.flatMap_cons, List.append_assoc] at h
      exact absurd h (escapes d).quote_ne_append
  | cons c cs ih =>
    rw [List.flatMap_cons, List.append_assoc] at h
    cases ds with
    | nil => exact absurd h.symm (escapes c).quote_ne_append
    | cons d ds =>
      rw [List.flatMap_cons, List.append_assoc] at h
      obtain ⟨rfl, htail⟩ := (escapes c).append_inj (escapes d) h
      obtain ⟨rfl, hrest⟩ := ih htail
      exact ⟨rfl, hrest⟩

theorem quoted_append_inj {s t : String} {r r' : List Char}
    (h : (quoted s).toList ++ r = (quoted t).toList ++ r') : s = t ∧ r = r' := by
  simp only [quoted, quotedChars, String.toList_ofList, List.cons_append, List.append_assoc,
    List.nil_append] at h
  obtain ⟨htext, hrest⟩ := flatMap_escapeChar_append_inj (List.cons.inj h).2
  exact ⟨String.toList_inj.1 htext, hrest⟩

theorem newline_notMem_quoted (s : String) : '\n' ∉ (quoted s).toList := by
  have hbody : '\n' ∉ s.toList.flatMap escapeChar := by
    rw [List.mem_flatMap]
    rintro ⟨c, -, hc⟩
    exact (escapes c).newline_notMem hc
  simpa [quoted, quotedChars] using hbody

end SiteNav.Text
