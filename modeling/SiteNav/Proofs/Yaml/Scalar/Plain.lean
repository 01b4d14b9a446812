import SiteNav.Proofs.Yaml.Style

/-!
# Written plain scalars

A text that can be plain is read back from its first character on, up to the word after the end of its
line: it holds no sign that would end it, and what follows is indented less. A key ends at its colon.
-/
namespace SiteNav.Yaml.Plain
open Written (spaces isPrintable holdsSign endsIn)

section Steps
variable {indent : Nat} {acc cs : List Char} {gap : Gap} {m : Mark} {c : Char}

theorem scanFrom_push (hblank : isBlank c = false) (hbreak : isBreak c = false)
    (hgap : gap.isNil = true ∨ 0 < m.column ∧ indent ≤ m.column ∧ c ≠ '#')
    (hcolon : c = ':' → atGap cs = false) :
    scanFrom false indent acc gap m (c :: cs) =
      scanFrom false indent (c :: gap.after acc) .nil ⟨m.line, m.column + 1⟩ cs := by
  have hstop : (!gap.isNil && ((!false && decide (m.column < indent)) ||
      (boundary? m (c :: cs)).isSome || c == '#')) = false := by
    rcases hgap with hnil | ⟨hcolumn, hindent, hcomment⟩
    · simp [hnil]
    · simp [boundary?_of_column hcolumn, hcomment, Nat.not_lt.2 hindent]
  have hends : ends false c cs = false := by
    by_cases hc : c = ':'
    · simp [ends, hc, hcolon hc]
    · simp [ends, hc]
  rw [scanFrom, if_neg (by simp [hbreak]), if_neg (by simp [hblank]), hstop,
    if_neg (by simp), if_neg (by simp [strayColon]), hends, if_neg (by simp),
    past_of_not_isBreak hbreak]

theorem scanFrom_space :
    scanFrom false indent acc gap m (' ' :: cs) =
      scanFrom false indent acc (gap.push ' ') ⟨m.line, m.column + 1⟩ cs := by
  rw [scanFrom, if_neg (by decide), if_pos (by decide), if_neg (by simp),
    past_of_not_isBreak (by decide)]

theorem scanFrom_spaces {first more : List Char} (n : Nat) :
    scanFrom false indent acc (.lines first more) m (spaces n ++ cs) =
      scanFrom false indent acc (.lines first more) ⟨m.line, m.column + n⟩ cs :=
  pass_spaces (scanFrom false indent acc (.lines first more)) n cs (fun _ _ _ => scanFrom_space)
    (Nat.le_refl _)

end Steps

/-- Behind the end of its line a scalar ends, where less is indented. -/
theorem scanFrom_line {indent column : Nat} {rest : List Char} (h : Follows column rest)
    (hcolumn : column < indent) (acc : List Char) (m : Mark) :
    scanFrom false indent acc .nil m ('\n' :: rest) =
      some (acc, true, Tail.ofLine (m.line + 1) rest) := by
  have hpush : Gap.nil.push '\n' = .lines ['\n'] [] := rfl
  have hpast : m.past '\n' = ⟨m.line + 1, 0⟩ := rfl
  rw [scanFrom, if_pos (by decide), hpush, hpast]
  rcases h with rfl | ⟨n, c, cs, hn, rfl, hc⟩
  · rfl
  · have hless : n < indent := Nat.lt_of_le_of_lt hn hcolumn
    rw [scanFrom_spaces, Tail.ofLine_spaces _ _ hc.ne_space, scanFrom, if_neg (by simp [hc.2.1]),
      if_neg (by simp [hc.1]), if_pos (by simp [Gap.isNil, hless])]
    simp [Gap.hasLines]

theorem holdsSign_cons_cons {a b : Char} {cs : List Char} (h : holdsSign (a :: b :: cs) = false) :
    (a = ':' → Written.isGap b = false) ∧ (Written.isGap a = true → b ≠ '#') ∧
      holdsSign (b :: cs) = false := by
  simp only [holdsSign, Bool.or_eq_false_iff, Bool.and_eq_false_iff, beq_eq_false_iff_ne] at h
  obtain ⟨⟨hcolon, hcomment⟩, hrest⟩ := h
  refine ⟨fun ha => hcolon.resolve_left (· ha), fun ha => hcomment.resolve_left ?_, hrest⟩
  simp [ha]

/-- The characters of a text that can be plain are all read as they are. -/
theorem scanFrom_text {indent : Nat} {cs : List Char} (rest : List Char) (hne : cs ≠ [])
    (hprintable : ∀ c ∈ cs, isPrintable c = true) (hbreak : ∀ c ∈ cs, isBreak c = false)
    (hlast : endsIn Written.isGap cs = false) (hsign : holdsSign cs = false)
    (blanks acc : List Char) (hcomment : blanks ≠ [] → cs.head? ≠ some '#') (m : Mark)
    (hcolumn : 0 < m.column) (hindent : indent ≤ m.column) :
    scanFrom false indent acc (.blanks blanks) m (cs ++ rest) =
      scanFrom false indent (cs.reverse ++ (blanks ++ acc)) .nil ⟨m.line, m.column + cs.length⟩
        rest := by
  induction cs generalizing blanks acc m with
  | nil => exact absurd rfl hne
  | cons c cs ih =>
    have hblankBreak := isGap_eq_of_isPrintable (hprintable c (by simp))
    rw [hbreak c (by simp), Bool.or_false] at hblankBreak
    have hlast' : cs ≠ [] → endsIn Written.isGap cs = false := by
      intro hcs
      obtain ⟨d, cs, rfl⟩ := List.exists_cons_of_ne_nil hcs
      rwa [endsIn, List.getLast?_cons_cons] at hlast
    have hsign' : holdsSign cs = false := by
      cases cs with
      | nil => rfl
      | cons d cs => exact (holdsSign_cons_cons hsign).2.2
    have ih' := fun hcs => ih hcs (fun x hx => hprintable x (by simp [hx]))
      (fun x hx => hbreak x (by simp [hx])) (hlast' hcs) hsign'
    by_cases hspace : c = ' '
    · subst hspace
      have hcs : cs ≠ [] := by
        rintro rfl
        exact absurd hlast (by decide)
      have hhead : cs.head? ≠ some '#' := by
        obtain ⟨d, cs, rfl⟩ := List.exists_cons_of_ne_nil hcs
        simpa using (holdsSign_cons_cons hsign).2.1 rfl
      have hpush : (Gap.blanks blanks).push ' ' = .blanks (' ' :: blanks) := rfl
      rw [List.cons_append, scanFrom_space, hpush, ih' hcs _ _ (fun _ => hhead) _
        (Nat.succ_pos _) (Nat.le_succ_of_le hindent)]
      simp [Nat.add_assoc, Nat.add_comm 1]
    · have hblank : isBlank c = false := by
        rw [isBlank_eq_of_isPrintable (hprintable c (by simp))]
        exact beq_false_of_ne hspace
      have hcolon : c = ':' → atGap (cs ++ rest) = false := by
        rintro rfl
        cases cs with
        | nil => exact absurd hsign (by decide)
        | cons d cs =>
          rw [List.cons_append, atGap, ← isGap_eq_of_isPrintable (hprintable d (by simp))]
          exact (holdsSign_cons_cons hsign).1 rfl
      have hgap : (Gap.blanks blanks).isNil = true ∨ 0 < m.column ∧ indent ≤ m.column ∧ c ≠ '#' := by
        cases blanks with
        | nil => exact .inl rfl
        | cons _ _ => exact .inr ⟨hcolumn, hindent, by simpa using hcomment (by simp)⟩
      rw [List.cons_append, scanFrom_push hblank (hbreak c (by simp)) hgap hcolon]
      cases cs with
      | nil => simp [Gap.after]
      | cons d cs =>
        rw [Gap.nil, ih' (by simp) [] _ (by simp) _ (Nat.succ_pos _) (Nat.le_succ_of_le hindent)]
        simp [Gap.after, Gap.nil, Nat.add_assoc, Nat.add_comm 1]

theorem scan_line {indent column : Nat} {cs rest : List Char} {m : Mark}
    (hcs : PlainText cs) (hcolumn : indent ≤ m.column) (hrest : Follows column rest)
    (hless : column < indent) :
    scan false indent ⟨m, cs ++ '\n' :: rest⟩ =
      some (String.ofList cs, true, Tail.ofLine (m.line + 1) rest) := by
  have hread := scanFrom_text ('\n' :: rest) hcs.ne_nil hcs.isPrintable hcs.isBreak hcs.endsInGap
    hcs.holdsSign [] [] (by simp) m (by omega) hcolumn
  rw [scan, Gap.nil, hread, scanFrom_line hrest hless]
  simp

theorem scan_key {indent : Nat} {k : List Char} {m : Mark} {rest : List Char}
    (hk : ∀ c ∈ k, StartsWord c ∧ c ≠ ':') (hrest : atGap rest = true) :
    scan false indent ⟨m, k ++ ':' :: rest⟩ =
      some (String.ofList k, false, ⟨⟨m.line, m.column + k.length⟩, ':' :: rest⟩) := by
  have hread (acc : List Char) (m : Mark) : scanFrom false indent acc .nil m (k ++ ':' :: rest) =
      some (k.reverse ++ acc, false, ⟨⟨m.line, m.column + k.length⟩, ':' :: rest⟩) := by
    induction k generalizing acc m with
    | nil =>
      rw [List.nil_append, scanFrom, if_neg (by decide), if_neg (by decide),
        if_neg (by simp [Gap.isNil, Gap.nil]), if_neg (by simp [strayColon]),
        if_pos (by simp [ends, hrest])]
      rfl
    | cons c k ih =>
      obtain ⟨hc, hcolon⟩ := hk c (by simp)
      rw [List.cons_append, scanFrom_push hc.1 hc.2.1 (.inl rfl) (absurd · hcolon),
        ih fun x hx => hk x (by simp [hx])]
      simp [Gap.after, Gap.nil, Nat.add_assoc, Nat.add_comm 1]
  rw [scan, hread]
  simp

end SiteNav.Yaml.Plain
