import SiteNav.Proofs.Text.Digit
import SiteNav.Toml.Literal
import SiteNav.Toml.Writer

/-!
# Written TOML strings

Reading a written string gives the string back and stops behind its closing quotes, if no quote comes
right after them. The quoting that the writer chooses is always one that can hold the string: literal
ones hold no quote too many and no control, the others escape whatever does not stand for itself.
-/
namespace SiteNav.Toml.Literal
open Text

/-- A character that stands for itself in every quoting. -/
def IsPlain (c : Char) : Prop :=
  isVisible c = true ∧ c ≠ '"' ∧ c ≠ '\\'

theorem escape?_code {c : Char} (hc : c.toNat < 128) (rest : List Char) :
    escape? (['u', '0', '0', upperHex (c.toNat / 16), upperHex (c.toNat % 16)] ++ rest) =
      some (c, rest) := by
  have hhigh := digit?_upper (c.toNat / 16) (by omega)
  have hlow := digit?_upper (c.toNat % 16) (by omega)
  have hvalue : c.toNat / 16 * 16 + c.toNat % 16 = c.toNat := by omega
  have hzero : digit? 16 '0' = some 0 := by decide
  simp [escape?, codePoint?, digits?, upperHex, hzero, hhigh, hlow, hvalue, scalar?_toNat]

/-- A character is either escaped, in a way that is read as that character, or stands for itself. -/
theorem escape_cases (c : Char) :
    (∃ body, escape c = '\\' :: body ∧ ∀ rest, escape? (body ++ rest) = some (c, rest) ∧
      lineContinuation? (body ++ rest) = none) ∨ escape c = [c] ∧ IsPlain c := by
  unfold escape
  split
  case h_8 hback htab hline hform hreturn hquote hslash =>
    split
    case isTrue hc =>
      refine .inl ⟨_, rfl, fun rest => ⟨?_, ?_⟩⟩
      · have hn : c.toNat < 128 := by
          rcases hc with hc | rfl
          · have := (lt_space_iff c).1 hc
            omega
          · decide
        exact escape?_code hn rest
      · rfl
    case isFalse hc =>
      rw [not_or, Char.not_lt] at hc
      exact .inr ⟨rfl, by simp [isVisible, hc.1, hc.2], hquote, hslash⟩
  all_goals exact .inl ⟨_, rfl, fun rest => ⟨rfl, rfl⟩⟩

theorem newline?_cons_of_isVisible {c : Char} (hc : isVisible c = true) (cs : List Char) :
    newline? (c :: cs) = none := by
  unfold newline?
  split
  · simp_all [isVisible]
  · simp_all [isVisible]
  · rfl

/-- What is written for a character begins neither with a quote nor with a line feed. -/
theorem escape_eq_cons (c : Char) : ∃ x tl, escape c = x :: tl ∧ x ≠ '"' ∧
    ∀ cs, newline? (x :: cs) = none := by
  rcases escape_cases c with ⟨body, hbody, _⟩ | ⟨hself, hvisible, hquote, _⟩
  · exact ⟨_, _, hbody, by decide, fun _ => rfl⟩
  · exact ⟨_, _, hself, hquote, newline?_cons_of_isVisible hvisible⟩

theorem basic_flatMap_escape (cs rest : List Char) (fuel : Nat) (hfuel : cs.length < fuel) :
    basic fuel (cs.flatMap escape ++ '"' :: rest) = some (cs, rest) := by
  induction cs generalizing fuel with
  | nil =>
    obtain ⟨f, rfl⟩ : ∃ f, fuel = f + 1 := ⟨fuel - 1, by simp at hfuel; omega⟩
    rfl
  | cons c cs ih =>
    obtain ⟨f, rfl⟩ : ∃ f, fuel = f + 1 := ⟨fuel - 1, by simp at hfuel; omega⟩
    have hcs := ih f (by simp at hfuel; omega)
    rw [List.flatMap_cons, List.append_assoc]
    rcases escape_cases c with ⟨body, hbody, hread⟩ | ⟨hself, hvisible, hquote, hslash⟩
    · rw [hbody, List.cons_append, basic, (hread _).1, Option.bind_some]
      simp only [hcs]
      rfl
    · rw [hself, List.cons_append, List.nil_append, basic]
      · rw [if_pos hvisible, hcs]
        rfl
      all_goals (intros; simp_all)

theorem literal_append {cs : List Char} (hcs : ∀ c ∈ cs, isVisible c = true ∧ c ≠ '\'')
    (rest : List Char) : literal (cs ++ '\'' :: rest) = some (cs, rest) := by
  induction cs with
  | nil => rfl
  | cons c cs ih =>
    obtain ⟨hvisible, hquote⟩ := hcs c (by simp)
    rw [List.cons_append, literal, if_neg hquote, if_pos hvisible,
      ih fun x hx => hcs x (by simp [hx])]
    rfl

section Closing
variable {q : Char} {rest : List Char}

theorem closing?_of_ne_first {x : Char} (hx : x ≠ q) (cs : List Char) :
    closing? q (x :: cs) = none := by
  unfold closing?
  split <;> simp_all

theorem closing?_of_ne_second {x : Char} (hx : x ≠ q) (a : Char) (cs : List Char) :
    closing? q (a :: x :: cs) = none := by
  unfold closing?
  split <;> simp_all

theorem closing?_of_ne_third {x : Char} (hx : x ≠ q) (a b : Char) (cs : List Char) :
    closing? q (a :: b :: x :: cs) = none := by
  unfold closing?
  split <;> simp_all

/-- At most two quotes before the closing ones belong to the text. -/
theorem closing?_replicate (hrest : rest.head? ≠ some q) {n : Nat} (hn : n ≤ 2) :
    closing? q (List.replicate n q ++ q :: q :: q :: rest) = some (n, rest) := by
  obtain rfl | rfl | rfl : n = 0 ∨ n = 1 ∨ n = 2 := by omega
  · match rest with
    | [] => simp [closing?]
    | [d] => simp_all [closing?]
    | d :: e :: r => simp_all [closing?]
  · match rest with
    | [] => simp [closing?, List.replicate]
    | e :: r => simp_all [closing?, List.replicate]
  · simp [closing?, List.replicate]

end Closing

/-- After two quotes in a row or before any other character nothing is written that begins with a
quote. -/
theorem escapeLines_eq_cons (run : Nat) (c : Char) (cs : List Char) (h : 2 ≤ run ∨ c ≠ '"') :
    ∃ x tl, escapeLines run (c :: cs) = x :: tl ∧ x ≠ '"' := by
  rw [escapeLines]
  by_cases hline : c = '\n'
  · exact ⟨'\n', _, by rw [if_pos hline, hline], by decide⟩
  · by_cases hquote : c = '"'
    · have hrun : ¬ run < 2 := by
        rcases h with h | h
        · omega
        · exact absurd hquote h
      exact ⟨'\\', _, by rw [if_neg hline, if_pos hquote, if_neg hrun], by decide⟩
    · obtain ⟨x, tl, hx, hne, _⟩ := escape_eq_cons c
      exact ⟨x, _, by rw [if_neg hline, if_neg hquote, hx, List.cons_append], hne⟩

theorem newline?_escapeLines (run : Nat) {cs : List Char} (hcs : '\n' ∉ cs) (rest : List Char) :
    newline? (escapeLines run cs ++ '"' :: rest) = none := by
  cases cs with
  | nil => rfl
  | cons c cs =>
    have hline : c ≠ '\n' := fun h => hcs (by simp [h])
    rw [escapeLines, if_neg hline]
    split
    case isTrue hquote =>
      rw [hquote]
      split <;> rfl
    case isFalse =>
      obtain ⟨x, tl, hx, _, hnone⟩ := escape_eq_cons c
      rw [hx]
      exact hnone _

/-- A quote that is written as it is closes the text only if at most one more is left of it. -/
theorem closing?_escapeLines_quote {run : Nat} (hrun : run < 2) (cs rest : List Char) :
    (∃ n ≤ 1, cs = List.replicate n '"' ∧ escapeLines (run + 1) cs = cs) ∨
      closing? '"' ('"' :: (escapeLines (run + 1) cs ++ rest)) = none := by
  cases cs with
  | nil => exact .inl ⟨0, by omega, rfl, rfl⟩
  | cons c cs =>
    by_cases hc : run + 1 < 2 ∧ c = '"'
    · obtain ⟨hrun', rfl⟩ := hc
      obtain rfl : run = 0 := by omega
      cases cs with
      | nil => exact .inl ⟨1, by omega, rfl, rfl⟩
      | cons d cs =>
        obtain ⟨x, tl, hx, hne⟩ := escapeLines_eq_cons 2 d cs (.inl (by omega))
        have hwritten : escapeLines (0 + 1) ('"' :: d :: cs) = '"' :: x :: tl := by
          rw [escapeLines, if_neg (by decide), if_pos rfl, if_pos (by omega), hx]
        rw [hwritten]
        exact .inr (closing?_of_ne_third hne _ _ _)
    · obtain ⟨x, tl, hx, hne⟩ := escapeLines_eq_cons (run + 1) c cs (by
        by_cases hrun' : run + 1 < 2
        · exact .inr fun hquote => hc ⟨hrun', hquote⟩
        · exact .inl (by omega))
      rw [hx]
      exact .inr (closing?_of_ne_second hne _ _)

theorem multiBasic_push_self {fuel : Nat} {c : Char} {cs : List Char}
    (hclose : closing? '"' (c :: cs) = none) (hvisible : isVisible c = true) (hslash : c ≠ '\\') :
    multiBasic (fuel + 1) (c :: cs) = (multiBasic fuel cs).push c := by
  have hline : c ≠ '\n' := by rintro rfl; simp [isVisible] at hvisible
  have hreturn : c ≠ '\r' := by rintro rfl; simp [isVisible] at hvisible
  rw [multiBasic, hclose]
  · simp only [hvisible, if_true]
  all_goals (intros; simp_all)

theorem multiBasic_push_escape {fuel : Nat} {c : Char} (body cs : List Char)
    (hread : ∀ rest, escape? (body ++ rest) = some (c, rest) ∧
      lineContinuation? (body ++ rest) = none) :
    multiBasic (fuel + 1) ('\\' :: (body ++ cs)) = (multiBasic fuel cs).push c := by
  rw [multiBasic, closing?_of_ne_first (by decide)]
  simp only [(hread cs).1, (hread cs).2, Option.bind_some]

theorem multiBasic_escapeLines {rest : List Char} (hrest : rest.head? ≠ some '"') (cs : List Char)
    (run fuel : Nat) (hfuel : cs.length < fuel) :
    multiBasic fuel (escapeLines run cs ++ '"' :: '"' :: '"' :: rest) = some (cs, rest) := by
  induction cs generalizing run fuel with
  | nil =>
    obtain ⟨f, rfl⟩ : ∃ f, fuel = f + 1 := ⟨fuel - 1, by simp at hfuel; omega⟩
    have hclose := closing?_replicate hrest (n := 0) (by omega)
    simp only [List.replicate_zero, List.nil_append] at hclose
    simp only [escapeLines, List.nil_append, multiBasic, hclose, List.replicate_zero]
  | cons c cs ih =>
    obtain ⟨f, rfl⟩ : ∃ f, fuel = f + 1 := ⟨fuel - 1, by simp at hfuel; omega⟩
    have ih' := fun run => ih run f (by simp at hfuel; omega)
    rw [escapeLines]
    split
    case isTrue hline =>
      subst hline
      rw [List.cons_append, multiBasic, closing?_of_ne_first (by decide)]
      simp only [ih']
      rfl
    split
    case isFalse.isTrue hline hquote =>
      subst hquote
      split
      case isTrue hrun =>
        rcases closing?_escapeLines_quote hrun cs ('"' :: '"' :: '"' :: rest) with
          ⟨n, hn, hcs, hself⟩ | hclose
        · have hclose := closing?_replicate hrest (n := n + 1) (by omega)
          rw [List.replicate_succ, ← hcs, List.cons_append] at hclose
          rw [hself]
          simp only [multiBasic, List.cons_append, hclose, List.replicate_succ, ← hcs]
        · rw [List.cons_append, multiBasic_push_self hclose rfl (by decide), ih']
          rfl
      case isFalse hrun =>
        have hstep : multiBasic (f + 1)
            ('\\' :: '"' :: (escapeLines 0 cs ++ '"' :: '"' :: '"' :: rest)) =
            (multiBasic f (escapeLines 0 cs ++ '"' :: '"' :: '"' :: rest)).push '"' :=
          multiBasic_push_escape ['"'] _ fun rest => ⟨rfl, rfl⟩
        exact hstep.trans (by rw [ih']; rfl)
    case isFalse.isFalse hline hquote =>
      rw [List.append_assoc]
      rcases escape_cases c with ⟨body, hbody, hread⟩ | ⟨hself, hvisible, _, hslash⟩
      · rw [hbody, List.cons_append, multiBasic_push_escape body _ hread, ih']
        rfl
      · rw [hself, List.singleton_append,
          multiBasic_push_self (closing?_of_ne_first hquote _) hvisible hslash, ih']
        rfl

section Runs
variable (q : Char)

theorem le_longestRun (run best : Nat) (cs : List Char) : best ≤ longestRun q run best cs := by
  induction cs generalizing run best with
  | nil => exact Nat.le_refl _
  | cons c cs ih =>
    rw [longestRun]
    split
    · exact Nat.le_trans (Nat.le_max_left _ _) (ih _ _)
    · exact ih _ _

theorem longestRun_mono {run run' best best' : Nat} (hrun : run ≤ run') (hbest : best ≤ best')
    (cs : List Char) : longestRun q run best cs ≤ longestRun q run' best' cs := by
  induction cs generalizing run run' best best' with
  | nil => exact hbest
  | cons c cs ih =>
    rw [longestRun, longestRun]
    split
    · exact ih (by omega) (by omega)
    · exact ih (by omega) hbest

theorem longestRun_tail_le (c : Char) (cs : List Char) :
    longestRun q 0 0 cs ≤ longestRun q 0 0 (c :: cs) := by
  simp only [longestRun]
  by_cases hc : c = q
  · rw [if_pos hc]
    exact longestRun_mono q (Nat.zero_le 1) (Nat.zero_le 1) cs
  · exact Nat.le_of_eq (if_neg hc).symm

theorem not_mem_of_longestRun_eq_zero {cs : List Char} (h : longestRun q 0 0 cs = 0) : q ∉ cs := by
  induction cs with
  | nil => simp
  | cons c cs ih =>
    have htail := longestRun_tail_le q c cs
    have hc : q ≠ c := by
      rintro rfl
      have hrun := le_longestRun q 1 1 cs
      simp only [longestRun, if_true] at h
      exact absurd (Nat.le_trans hrun (Nat.le_of_eq h)) (by omega)
    simp [hc, ih (by omega)]

end Runs

/-- In a literal text a quote does not close it, unless nothing but two quotes at most is left. -/
theorem closing?_quote_append {q : Char} {cs : List Char} (hcs : longestRun q 0 0 (q :: cs) ≤ 2)
    (rest : List Char) :
    (∃ n ≤ 1, cs = List.replicate n q) ∨ closing? q (q :: (cs ++ rest)) = none := by
  match cs with
  | [] => exact .inl ⟨0, by omega, rfl⟩
  | c :: cs =>
    by_cases hc : c = q
    · subst hc
      match cs with
      | [] => exact .inl ⟨1, by omega, rfl⟩
      | d :: cs =>
        have hd : d ≠ c := by
          rintro rfl
          have hrun := le_longestRun d 3 3 cs
          simp only [longestRun, if_true] at hcs
          exact absurd (Nat.le_trans hrun hcs) (by omega)
        exact .inr (closing?_of_ne_third hd _ _ _)
    · exact .inr (closing?_of_ne_second hc _ _)

theorem multiLiteral_push_self {fuel : Nat} {c : Char} {cs : List Char}
    (hclose : closing? '\'' (c :: cs) = none) (hc : isVisible c = true ∨ c = '\n') :
    multiLiteral (fuel + 1) (c :: cs) = (multiLiteral fuel cs).push c := by
  rcases hc with hvisible | rfl
  · have hline : c ≠ '\n' := by rintro rfl; simp [isVisible] at hvisible
    have hreturn : c ≠ '\r' := by rintro rfl; simp [isVisible] at hvisible
    rw [multiLiteral, hclose]
    · simp only [hvisible, if_true]
    all_goals (intros; simp_all)
  · rw [multiLiteral, hclose]

theorem multiLiteral_append {rest : List Char} (hrest : rest.head? ≠ some '\'') {cs : List Char}
    (hcs : ∀ c ∈ cs, isVisible c = true ∨ c = '\n') (hrun : longestRun '\'' 0 0 cs ≤ 2) (fuel : Nat)
    (hfuel : cs.length < fuel) :
    multiLiteral fuel (cs ++ '\'' :: '\'' :: '\'' :: rest) = some (cs, rest) := by
  induction cs generalizing fuel with
  | nil =>
    obtain ⟨f, rfl⟩ : ∃ f, fuel = f + 1 := ⟨fuel - 1, by simp at hfuel; omega⟩
    have hclose := closing?_replicate hrest (n := 0) (by omega)
    simp only [List.replicate_zero, List.nil_append] at hclose
    simp only [List.nil_append, multiLiteral, hclose, List.replicate_zero]
  | cons c cs ih =>
    obtain ⟨f, rfl⟩ : ∃ f, fuel = f + 1 := ⟨fuel - 1, by simp at hfuel; omega⟩
    have ih' := ih (fun x hx => hcs x (by simp [hx]))
      (Nat.le_trans (longestRun_tail_le _ c cs) hrun) f (by simp at hfuel; omega)
    have hpush : ∀ _ : closing? '\'' (c :: (cs ++ '\'' :: '\'' :: '\'' :: rest)) = none,
        multiLiteral (f + 1) (c :: cs ++ '\'' :: '\'' :: '\'' :: rest) = some (c :: cs, rest) := by
      intro hclose
      rw [List.cons_append, multiLiteral_push_self hclose (hcs c (by simp)), ih']
      rfl
    by_cases hc : c = '\''
    · subst hc
      rcases closing?_quote_append hrun ('\'' :: '\'' :: '\'' :: rest) with ⟨n, hn, hcs⟩ | hclose
      · have hclose := closing?_replicate hrest (n := n + 1) (by omega)
        rw [List.replicate_succ, ← hcs, List.cons_append] at hclose
        simp only [multiLiteral, List.cons_append, hclose, List.replicate_succ, ← hcs]
      · exact hpush hclose
    · exact hpush (closing?_of_ne_first hc _)

section Choice
variable {cs : List Char}

theorem isVisible_or_eq_newline {c : Char} (hc : needsEscape c = false) :
    isVisible c = true ∨ c = '\n' := by
  by_cases hline : c = '\n'
  · exact .inr hline
  · by_cases htab : c = '\t'
    · exact .inl (by simp [isVisible, htab])
    · simp only [needsEscape, Bool.or_eq_false_iff, Bool.and_eq_false_iff, decide_eq_false_iff_not,
        Char.not_lt] at hc
      have hspace : ' ' ≤ c := by simpa [htab, hline] using hc.1
      have hdelete : c ≠ '\x7f' := by simpa using hc.2
      exact .inl (by simp [isVisible, hspace, hdelete])

theorem choose_eq_literal (h : Quoting.choose cs = .literal) :
    cs ≠ [] ∧ ∀ c ∈ cs, isVisible c = true ∧ c ≠ '\'' := by
  refine ⟨by rintro rfl; exact absurd h (by decide), fun c hc => ?_⟩
  have hchoice : (cs.any needsEscape = false ∧ longestRun '\'' 0 0 cs = 0) ∧ '\n' ∉ cs := by
    unfold Quoting.choose at h
    dsimp only at h
    split at h
    · cases h
    · split at h
      next hliteral => simpa using hliteral
      · repeat' split at h
        all_goals cases h
  obtain ⟨⟨hescapes, hsingles⟩, hlines⟩ := hchoice
  refine ⟨(isVisible_or_eq_newline ?_).resolve_right ?_, ?_⟩
  · simpa using List.any_eq_false.1 hescapes c hc
  · exact fun hline => hlines (hline ▸ hc)
  · exact fun hquote => not_mem_of_longestRun_eq_zero _ hsingles (hquote ▸ hc)

theorem choose_eq_multiLiteral (h : Quoting.choose cs = .multiLiteral) :
    (∀ c ∈ cs, isVisible c = true ∨ c = '\n') ∧ longestRun '\'' 0 0 cs ≤ 2 := by
  have hchoice : cs.any needsEscape = false ∧ longestRun '\'' 0 0 cs ≤ 2 := by
    unfold Quoting.choose at h
    dsimp only at h
    split at h
    · cases h
    · split at h
      · cases h
      · split at h
        · cases h
        · split at h
          next hliteral => simpa using hliteral
          · split at h <;> cases h
  exact ⟨fun c hc => isVisible_or_eq_newline (by simpa using List.any_eq_false.1 hchoice.1 c hc),
    hchoice.2⟩

end Choice

section Scan
variable {q : Char} {rest : List Char}

theorem scan_basic {r : List Char} (h : r.head? ≠ some '"' ∨ r.tail.head? ≠ some '"') :
    scan ('"' :: r) = basic (r.length + 1) r := by
  unfold scan
  split <;> simp_all

theorem scan_literal {c : Char} (hc : c ≠ '\'') (r : List Char) :
    scan ('\'' :: c :: r) = literal (c :: r) := by
  unfold scan
  split <;> simp_all

/-- A line feed is written after the opening quotes just when the text has one. -/
theorem afterFirstNewline_of (cs body : List Char)
    (hbody : '\n' ∉ cs → newline? body = none) :
    afterFirstNewline ((if cs.contains '\n' then ['\n'] else []) ++ body) = body := by
  by_cases hlines : '\n' ∈ cs
  · simp [hlines, afterFirstNewline, newline?]
  · simp [hlines, afterFirstNewline, hbody hlines]

theorem length_le_length_escapeLines (run : Nat) (cs : List Char) :
    cs.length ≤ (escapeLines run cs).length := by
  induction cs generalizing run with
  | nil => exact Nat.le_refl _
  | cons c cs ih =>
    have hzero := ih 0
    have hnext := ih (run + 1)
    obtain ⟨x, tl, hx, _⟩ := escape_eq_cons c
    rw [escapeLines]
    split
    · simpa using hzero
    · split
      · split
        · simpa using hnext
        · simp only [List.length_cons]
          omega
      · rw [hx]
        simp only [List.length_append, List.length_cons]
        omega

theorem length_le_length_flatMap_escape (cs : List Char) :
    cs.length ≤ (cs.flatMap escape).length := by
  induction cs with
  | nil => exact Nat.le_refl _
  | cons c cs ih =>
    obtain ⟨x, tl, hx, _⟩ := escape_eq_cons c
    rw [List.flatMap_cons, hx]
    simp only [List.length_append, List.length_cons]
    omega

/-- A written string reads back as itself. -/
theorem scan_write_append (s : String) (hbasic : rest.head? ≠ some '"')
    (hliteral : rest.head? ≠ some '\'') : scan (write s ++ rest) = some (s.toList, rest) := by
  have hlength := length_le_length_flatMap_escape s.toList
  have hlines := length_le_length_escapeLines 0 s.toList
  rw [write]
  cases hchoice : Quoting.choose s.toList with
  | basic =>
    rw [List.cons_append, List.append_assoc, List.singleton_append, scan_basic]
    · exact basic_flatMap_escape _ _ _ (by simp only [List.length_append]; omega)
    · cases s.toList with
      | nil => exact .inr hbasic
      | cons c cs =>
        obtain ⟨x, tl, hx, hne, _⟩ := escape_eq_cons c
        exact .inl (by simpa [hx] using hne)
  | literal =>
    obtain ⟨hne, hvisible⟩ := choose_eq_literal hchoice
    rw [List.cons_append, List.append_assoc, List.singleton_append, ← literal_append hvisible rest]
    obtain ⟨c, cs, hcs⟩ := List.exists_cons_of_ne_nil hne
    rw [hcs]
    exact scan_literal (hvisible c (by simp [hcs])).2 _
  | multiBasic =>
    have hfirst := afterFirstNewline_of s.toList
      (escapeLines 0 s.toList ++ '"' :: '"' :: '"' :: rest)
      fun h => newline?_escapeLines 0 h _
    simp only [List.replicate, List.append_assoc, List.cons_append, List.nil_append] at hfirst ⊢
    rw [scan, hfirst]
    exact multiBasic_escapeLines hbasic _ 0 _ (by simp only [List.length_append]; omega)
  | multiLiteral =>
    obtain ⟨hvisible, hrun⟩ := choose_eq_multiLiteral hchoice
    have hfirst := afterFirstNewline_of s.toList
      (s.toList ++ '\'' :: '\'' :: '\'' :: rest) fun hline => by
        cases hcs : s.toList with
        | nil => rfl
        | cons c cs =>
          have hc : c ∈ s.toList := by simp [hcs]
          exact newline?_cons_of_isVisible
            ((hvisible c hc).resolve_right fun h => hline (h ▸ hc)) _
    simp only [List.replicate, List.append_assoc, List.cons_append, List.nil_append] at hfirst ⊢
    rw [scan, hfirst]
    exact multiLiteral_append hliteral hvisible hrun _ (by simp only [List.length_append]; omega)

end Scan

end SiteNav.Toml.Literal
