import SiteNav.Proofs.Yaml.Scanning.Words
import SiteNav.Proofs.Yaml.Growth

/-!
# Lines in a text that goes on

A scanner that goes on over several lines may reach the end of the text, but only at the start of a
line. If a document begins there when there is more text, it stops there as well. Main statement: the
pieces of a text that ends in a line break are read the same with another document behind it.
-/
namespace SiteNav.Yaml

/-- The start of a line, with all of the text behind it or nothing. -/
def Tail.Lined (t : Tail) : Prop :=
  t.Ended ∨ (t.chars = [] ∧ t.mark.column = 0)

/-- A text that begins with the mark of a document's beginning. -/
inductive Opens : List Char → Prop
  | intro {more : List Char} (h : atGap more = true) : Opens ('-' :: '-' :: '-' :: more)

theorem Tail.Lined.ended {m : Mark} {c : Char} {cs : List Char} (h : Tail.Lined ⟨m, c :: cs⟩) :
    Yaml.Ended (c :: cs) :=
  h.resolve_right fun h => List.cons_ne_nil _ _ h.1

theorem Tail.Lined.column_eq_zero {t : Tail} (h : t.Lined) (ht : t.chars = []) : t.mark.column = 0 := by
  rcases h with h | h
  · exact absurd ht h.ne_nil
  · exact h.2

/-- What comes after a line break. -/
theorem Tail.Lined.of_break {m : Mark} {c : Char} {cs : List Char}
    (h : Yaml.Ended (c :: cs)) (hc : isBreak c = true) : Tail.Lined ⟨m.past c, cs⟩ := by
  rcases h.behind with hcs | hcs
  · refine .inr ⟨hcs, ?_⟩
    rw [Mark.past, if_pos hc]
  · exact .inl hcs

/-- A scan that ends in a line ends at the start of one or in it. -/
theorem Agree.lined {α : Type} {rest : List Char} {x y : Option (α × Tail)}
    (h : Agree Tail.Ended rest x y) : Agree Tail.Lined rest x y :=
  h.mono fun _ => .inl

/-- The three characters of a document's mark. -/
def Boundary.sign : Boundary → List Char
  | .start => ['-', '-', '-']
  | .stop => ['.', '.', '.']

theorem Boundary.all_sign (b : Boundary) : b.sign.all (fun c => !isBreak c) = true := by
  cases b with
  | start => rfl
  | stop => rfl

theorem Boundary.length_sign (b : Boundary) : b.sign.length = 3 := by
  cases b with
  | start => rfl
  | stop => rfl

theorem boundary?_eq_some_iff {m : Mark} {cs : List Char} {b : Boundary} : boundary? m cs = some b ↔
    m.column = 0 ∧ ∃ tl, cs = b.sign ++ tl ∧ atGap tl = true := by
  constructor
  · intro h
    unfold boundary? at h
    split_ifs at h with hm
    refine ⟨not_not.1 hm, ?_⟩
    split at h
    · split_ifs at h with htl
      cases h
      exact ⟨_, rfl, htl⟩
    · split_ifs at h with htl
      cases h
      exact ⟨_, rfl, htl⟩
    · cases h
  · rintro ⟨hm, tl, rfl, htl⟩
    unfold boundary?
    rw [if_neg (not_not.2 hm)]
    cases b with
    | start => exact if_pos htl
    | stop => exact if_pos htl

theorem boundary?_before {m : Mark} {cs : List Char} (h : Ended cs) (rest : List Char) :
    boundary? m (cs ++ rest) = boundary? m cs := by
  refine Option.ext fun b => ?_
  rw [boundary?_eq_some_iff, boundary?_eq_some_iff]
  refine and_congr_right fun _ => ?_
  constructor
  · rintro ⟨tl, heq, htl⟩
    obtain ⟨tl', rfl, rfl, hended⟩ := h.exists_of_append_eq b.all_sign heq
    rw [hended.atGap] at htl
    exact ⟨tl', rfl, htl⟩
  · rintro ⟨tl, rfl, htl⟩
    obtain ⟨tl', -, rfl, hended⟩ :=
      h.exists_of_append_eq b.all_sign (List.append_nil (b.sign ++ tl))
    rw [List.append_nil] at htl ⊢
    refine ⟨tl' ++ rest, List.append_assoc _ _ _, ?_⟩
    rwa [hended.atGap]

variable {rest : List Char}

/-! ## Scalars -/

namespace Quoted

-- A quote that is still open where the text ends is an error, so nothing has to be said about the rest.
theorem scanSingle_before {acc : List Char} {gap : Gap} {m : Mark} {cs : List Char}
    (h : cs = [] ∨ Ended cs) :
    Agree Tail.Ended rest (scanSingle acc gap m cs) (scanSingle acc gap m (cs ++ rest)) := by
  fun_induction scanSingle acc gap m cs with
  | case1 => exact .none _
  | case2 acc gap m cs ih =>
    have hcs := (Ended.of_or h).tail rfl
    rw [List.cons_append, List.cons_append, scanSingle]
    exact ih hcs.behind
  | case3 acc gap m c cs _ hgap ih =>
    have h := Ended.of_or h
    rw [List.cons_append, scanSingle, if_pos hgap]
    · exact ih h.behind
    · rintro _ rfl _
      cases hgap
  | case4 => exact .none _
  | case5 acc gap m cs hquote hgap hboundary =>
    have h := Ended.of_or h
    have hcs : Ended cs := h.tail rfl
    rw [← boundary?_before h rest, List.cons_append] at hboundary
    rw [List.cons_append, scanSingle, if_neg hgap, if_neg hboundary, if_pos rfl]
    · exact .some (t := ⟨m.past '\'', cs⟩) hcs
    · intro _ _ heq
      obtain ⟨tl, rfl, -, -⟩ := hcs.exists_of_append_eq (w := ['\'']) rfl heq
      exact hquote tl rfl rfl
  | case6 acc gap m c cs _ hgap hboundary hc ih =>
    have h := Ended.of_or h
    rw [← boundary?_before h rest, List.cons_append] at hboundary
    rw [List.cons_append, scanSingle, if_neg hgap, if_neg hboundary, if_neg hc]
    · exact ih h.behind
    · exact fun _ hc' _ => hc hc'

theorem scanDouble_before {acc : List Char} {gap : Gap} {phase : Phase} {m : Mark} {cs : List Char}
    (h : cs = [] ∨ Ended cs) :
    Agree Tail.Ended rest (scanDouble acc gap phase m cs) (scanDouble acc gap phase m (cs ++ rest)) := by
  fun_induction scanDouble acc gap phase m cs with
  | case1 => exact .none _
  | case2 acc gap m c cs hgap ih =>
    rw [List.cons_append, scanDouble, if_pos hgap]
    exact ih (Ended.of_or h).behind
  | case3 => exact .none _
  | case4 acc gap m cs hgap hboundary =>
    have h := Ended.of_or h
    rw [← boundary?_before h rest, List.cons_append] at hboundary
    rw [List.cons_append, scanDouble, if_neg hgap, if_neg hboundary, if_pos rfl]
    exact .some (t := ⟨m.past '"', cs⟩) (h.tail rfl)
  | case5 acc gap m cs hgap hboundary hquote ih =>
    have h := Ended.of_or h
    rw [← boundary?_before h rest, List.cons_append] at hboundary
    rw [List.cons_append, scanDouble, if_neg hgap, if_neg hboundary, if_neg hquote, if_pos rfl]
    exact ih h.behind
  | case6 acc gap m c cs hgap hboundary hquote hc ih =>
    have h := Ended.of_or h
    rw [← boundary?_before h rest, List.cons_append] at hboundary
    rw [List.cons_append, scanDouble, if_neg hgap, if_neg hboundary, if_neg hquote, if_neg hc]
    exact ih h.behind
  | case7 acc gap m c cs hbreak ih =>
    rw [List.cons_append, scanDouble, if_pos hbreak]
    exact ih (Ended.of_or h).behind
  | case8 acc gap m c cs hbreak n hcode ih =>
    rw [List.cons_append, scanDouble, if_neg hbreak, hcode]
    exact ih (Ended.of_or h).behind
  | case9 acc gap m c cs hbreak x hescape hcode ih =>
    rw [List.cons_append, scanDouble, if_neg hbreak, hcode, hescape]
    exact ih (Ended.of_or h).behind
  | case10 => exact .none _
  | case11 => exact .none _
  | case12 acc gap v m c cs d hdigit x hx ih =>
    simp only [List.cons_append, scanDouble, hdigit, hx]
    exact ih (Ended.of_or h).behind
  | case13 => exact .none _
  | case14 acc gap v m c cs d more hdigit ih =>
    simp only [List.cons_append, scanDouble, hdigit]
    exact ih (Ended.of_or h).behind

theorem single_before {t : Tail} (h : t.Ended) : Agree Tail.Ended rest (single t) (single (t.before rest)) :=
  (scanSingle_before (.inr h)).map fun acc => String.ofList acc.reverse

theorem double_before {t : Tail} (h : t.Ended) : Agree Tail.Ended rest (double t) (double (t.before rest)) :=
  (scanDouble_before (.inr h)).map fun acc => String.ofList acc.reverse

end Quoted

theorem Gap.isNil_push {gap : Gap} {c : Char} (hc : isBreak c = true) : (gap.push c).isNil = false := by
  cases gap with
  | blanks cs =>
    rw [push, if_pos hc]
    rfl
  | lines first more =>
    rw [push, if_pos hc]
    rfl

namespace Plain
variable {flow : Bool} {c : Char} {cs : List Char}

theorem strayColon_before (h : Ended cs) (rest : List Char) :
    strayColon flow c (cs ++ rest) = strayColon flow c cs := by
  rw [strayColon, strayColon, h.head?]

theorem ends_before (h : Ended cs) (rest : List Char) : ends flow c (cs ++ rest) = ends flow c cs := by
  rw [ends, ends, h.atGap]

theorem begins_before (h : Ended cs) (rest : List Char) :
    begins flow c (cs ++ rest) = begins flow c cs := by
  rw [begins, begins, h.atGap, h.head?]

theorem scanFrom_before (hrest : Opens rest) {lines : Bool} {indent : Nat} {acc acc' : List Char}
    {gap : Gap} {m : Mark} {t : Tail}
    (h : Ended cs ∨ (cs = [] ∧ m.column = 0 ∧ gap.isNil = false))
    (hscan : scanFrom flow indent acc gap m cs = some (acc', lines, t)) :
    t.Lined ∧ scanFrom flow indent acc gap m (cs ++ rest) = some (acc', lines, t.before rest) := by
  have hended {m : Mark} {gap : Gap} {c : Char} {cs : List Char}
      (h : Ended (c :: cs) ∨ (c :: cs = [] ∧ m.column = 0 ∧ gap.isNil = false)) : Ended (c :: cs) :=
    h.resolve_right fun h => List.cons_ne_nil _ _ h.1
  fun_induction scanFrom flow indent acc gap m cs with
  | case1 acc gap m =>
    -- The gap holds a line break, so the scalar ends before the mark of the document.
    cases hscan
    obtain ⟨-, hcolumn, hgap⟩ := h.resolve_left fun h => h.ne_nil rfl
    cases hrest with
    | @intro more hmore =>
      have hboundary : boundary? m ('-' :: '-' :: '-' :: more) = some .start :=
        boundary?_eq_some_iff.2 ⟨hcolumn, more, rfl, hmore⟩
      refine ⟨.inr ⟨rfl, hcolumn⟩, ?_⟩
      rw [List.nil_append, scanFrom, if_neg (by decide), if_neg (by decide), if_pos]
      · rfl
      · rw [hboundary, hgap]
        simp
  | case2 acc gap m c cs hc ih =>
    rw [List.cons_append, scanFrom, if_pos hc]
    refine ih ?_ hscan
    rcases (hended h).behind with hcs | hcs
    · refine .inr ⟨hcs, ?_, Gap.isNil_push hc⟩
      rw [Mark.past, if_pos hc]
    · exact .inl hcs
  | case3 => cases hscan
  | case4 acc gap m c cs hc hblank htab ih =>
    rw [List.cons_append, scanFrom, if_neg hc, if_pos hblank, if_neg htab]
    exact ih (.inl ((hended h).after hc)) hscan
  | case5 acc gap m c cs hc hblank hend =>
    cases hscan
    rw [← boundary?_before (hended h) rest, List.cons_append] at hend
    rw [List.cons_append, scanFrom, if_neg hc, if_neg hblank, if_pos hend]
    exact ⟨.inl (hended h), rfl⟩
  | case6 => cases hscan
  | case7 acc gap m c cs hc hblank hend hcolon hends =>
    cases hscan
    have hcs := (hended h).after hc
    rw [← boundary?_before (hended h) rest, List.cons_append] at hend
    rw [List.cons_append, scanFrom, if_neg hc, if_neg hblank, if_neg hend, strayColon_before hcs,
      if_neg hcolon, ends_before hcs, if_pos hends]
    exact ⟨.inl (hended h), rfl⟩
  | case8 acc gap m c cs hc hblank hend hcolon hends ih =>
    have hcs := (hended h).after hc
    rw [← boundary?_before (hended h) rest, List.cons_append] at hend
    rw [List.cons_append, scanFrom, if_neg hc, if_neg hblank, if_neg hend, strayColon_before hcs,
      if_neg hcolon, ends_before hcs, if_neg hends]
    exact ih (.inl hcs) hscan

theorem scan_before (hrest : Opens rest) {indent : Nat} {t u : Tail} {s : String} {lines : Bool}
    (h : t.Ended) (hscan : scan flow indent t = some (s, lines, u)) :
    u.Lined ∧ scan flow indent (t.before rest) = some (s, lines, u.before rest) := by
  obtain ⟨⟨acc, lines', v⟩, hscan, hs⟩ := Option.map_eq_some_iff.1 hscan
  cases hs
  obtain ⟨hu, hscan'⟩ := scanFrom_before hrest (.inl h) hscan
  exact ⟨hu, Option.map_eq_some_iff.2 ⟨_, hscan', rfl⟩⟩

end Plain

namespace Block

theorem header?_of_isBreak {c : Char} (hc : isBreak c = true) (cs : List Char) :
    header? (c :: cs) = some (⟨.clip, none⟩, c :: cs) := by
  rcases isBreak_cases hc with rfl | rfl | rfl
  · rfl
  · rfl
  · rfl

theorem not_isBreak_of_chomping? {c : Char} {k : Chomping} (h : chomping? c = some k) :
    isBreak c = false :=
  not_isBreak_of (p := fun c => (chomping? c).isSome) (Option.isSome_of_eq_some h) rfl rfl rfl

theorem header?_before {cs cs' : List Char} {hd : Header} (h : Ended cs)
    (hheader : header? cs = some (hd, cs')) :
    Ended cs' ∧ header? (cs ++ rest) = some (hd, cs' ++ rest) := by
  cases cs with
  | nil => exact absurd rfl h.ne_nil
  | cons c cs =>
    cases hc : isBreak c with
    | true =>
      rw [header?_of_isBreak hc] at hheader
      cases hheader
      exact ⟨h, header?_of_isBreak hc (cs ++ rest)⟩
    | false =>
      have hcs := h.tail hc
      cases cs with
      | nil => exact absurd rfl hcs.ne_nil
      | cons d cs =>
        unfold header? at hheader ⊢
        dsimp only [List.cons_append] at hheader ⊢
        split at hheader
        · split_ifs at hheader ⊢
          · cases hheader
            exact ⟨hcs.tail (not_isBreak_of ‹_› rfl rfl rfl), rfl⟩
          · cases hheader
            exact ⟨hcs, rfl⟩
        · split_ifs at hheader ⊢
          · split at hheader
            · next k hk =>
              cases hheader
              exact ⟨hcs.tail (not_isBreak_of_chomping? hk), rfl⟩
            · cases hheader
              exact ⟨hcs, rfl⟩
          · cases hheader
            exact ⟨h, rfl⟩

theorem digit?_pos {d : Char} {n : Nat} (hd : Text.isDigit d = true) (hne : d ≠ '0')
    (hn : Text.digit? 10 d = some n) : 0 < n := by
  rw [Text.digit?, if_pos hd] at hn
  split_ifs at hn
  have hzero : '0'.toNat ≠ d.toNat := fun h => hne (Char.toNat_inj.1 h.symm)
  rw [Text.isDigit, Bool.and_eq_true, decide_eq_true_iff] at hd
  have hle : '0'.toNat ≤ d.toNat := hd.1
  cases hn
  omega

theorem indent_pos_of_header? {cs cs' : List Char} {hd : Header} {n : Nat}
    (hheader : header? cs = some (hd, cs')) (hn : hd.indent = some n) : 0 < n := by
  unfold header? at hheader
  split at hheader
  · cases hheader
    cases hn
  · split at hheader
    · split at hheader
      · split_ifs at hheader
        · cases hheader
          exact digit?_pos ‹_› ‹_› hn
        · cases hheader
          cases hn
      · cases hheader
        cases hn
    · split_ifs at hheader
      · split at hheader
        · split at hheader
          · cases hheader
            exact digit?_pos ‹_› ‹_› hn
          · cases hheader
            exact digit?_pos ‹_› ‹_› hn
        · cases hheader
          exact digit?_pos ‹_› ‹_› hn
      · cases hheader
        cases hn

/-- What follows the blanks and the comment on the rest of a line. -/
def pastComment (t : Tail) : Tail :=
  let t := t.dropWhile isBlank
  if t.chars.head? = some '#' then t.dropWhile fun _ => true else t

theorem pastComment_before {t : Tail} (rest : List Char) (h : t.Ended) :
    (pastComment t).Ended ∧ pastComment (t.before rest) = (pastComment t).before rest := by
  have hblanks : (t.dropWhile isBlank).Ended := h.takeWhile isBlank
  rw [pastComment, pastComment, Directive.dropWhile_before rest h, hblanks.head?_before]
  split
  · exact ⟨hblanks.takeWhile _, Directive.dropWhile_before rest hblanks _⟩
  · exact ⟨hblanks, rfl⟩

theorem restOfLine_of_pastComment {t : Tail} {m : Mark} {c : Char} {cs : List Char}
    (h : pastComment t = ⟨m, c :: cs⟩) :
    restOfLine t = if isBreak c then some ⟨m.past c, cs⟩ else none := by
  rw [pastComment] at h
  rw [restOfLine, h]

theorem restOfLine_before {t u : Tail} (rest : List Char) (h : t.Ended) (hline : restOfLine t = some u) :
    u.Lined ∧ restOfLine (t.before rest) = some (u.before rest) := by
  obtain ⟨hended, hbefore⟩ := pastComment_before rest h
  rcases hpast : pastComment t with ⟨m, cs⟩
  rw [hpast] at hended hbefore
  cases cs with
  | nil => exact absurd rfl hended.ne_nil
  | cons c cs =>
    rw [restOfLine_of_pastComment hpast] at hline
    rw [restOfLine_of_pastComment hbefore]
    split_ifs at hline ⊢ with hc
    cases hline
    exact ⟨.of_break hended hc, rfl⟩

/-- The mark of a document is indented less than any line of a block. -/
theorem measure_opens (hrest : Opens rest) (breaks : List Char) (deepest : Nat) (m : Mark) :
    measure breaks deepest m rest = some (breaks, max deepest m.column, ⟨m, rest⟩) := by
  cases hrest with
  | intro h => rfl

theorem scanLines_opens (hrest : Opens rest) {folded : Bool} {indent : Nat} {st : State} {m : Mark}
    (hindent : 0 < indent) (hm : m.column = 0) (hline : st.inLine = false) :
    scanLines folded indent st m rest = some (st, ⟨m, rest⟩) := by
  cases hrest with
  | intro h =>
    rw [scanLines, if_neg (by rw [hline]; decide), if_neg (fun h => absurd h.1 (by decide)),
      if_neg (fun h => absurd h.1 (by decide)), if_neg (by decide), if_neg (by omega)]

theorem measure_before (hrest : Opens rest) {breaks breaks' : List Char} {deepest deepest' : Nat}
    {m : Mark} {cs : List Char} {t : Tail} (h : Tail.Lined ⟨m, cs⟩)
    (hmeasure : measure breaks deepest m cs = some (breaks', deepest', t)) :
    t.Lined ∧ measure breaks deepest m (cs ++ rest) = some (breaks', deepest', t.before rest) := by
  fun_induction measure breaks deepest m cs with
  | case1 =>
    cases hmeasure
    exact ⟨h, measure_opens hrest _ _ _⟩
  | case2 breaks deepest m cs ih =>
    rw [List.cons_append, measure, if_pos rfl]
    exact ih (.inl (h.ended.tail rfl)) hmeasure
  | case3 => cases hmeasure
  | case4 breaks deepest m c cs hspace htab hc ih =>
    rw [List.cons_append, measure, if_neg hspace, if_neg htab, if_pos hc]
    exact ih (.of_break h.ended hc) hmeasure
  | case5 breaks deepest m c cs hspace htab hc =>
    cases hmeasure
    rw [List.cons_append, measure, if_neg hspace, if_neg htab, if_neg hc]
    exact ⟨h, rfl⟩

theorem scanLines_before (hrest : Opens rest) {folded : Bool} {indent : Nat} {st : State} {m : Mark}
    {cs : List Char} (hindent : 0 < indent) (h : Tail.Lined ⟨m, cs⟩)
    (hline : cs = [] → st.inLine = false) :
    Agree Tail.Lined rest (scanLines folded indent st m cs) (scanLines folded indent st m (cs ++ rest)) := by
  fun_induction scanLines folded indent st m cs with
  | case1 st m =>
    rw [List.nil_append, scanLines_opens hrest hindent (h.column_eq_zero rfl) (hline rfl)]
    exact .some (t := ⟨m, []⟩) h
  | case2 st m c cs hin hc ih =>
    rw [List.cons_append, scanLines, if_pos hin, if_pos hc]
    exact ih (.of_break h.ended hc) fun _ => rfl
  | case3 st m c cs hin hc ih =>
    have hcs := h.ended.after hc
    rw [List.cons_append, scanLines, if_pos hin, if_neg hc]
    exact ih (.inl hcs) fun hnil => absurd hnil hcs.ne_nil
  | case4 st m c cs hin hspace ih =>
    have hcs : Ended cs := h.ended.tail (hspace.1 ▸ rfl)
    rw [List.cons_append, scanLines, if_neg hin, if_pos hspace]
    exact ih (.inl hcs) fun hnil => absurd hnil hcs.ne_nil
  | case5 => exact .none _
  | case6 st m c cs hin hspace htab hc ih =>
    rw [List.cons_append, scanLines, if_neg hin, if_neg hspace, if_neg htab, if_pos hc]
    exact ih (.of_break h.ended hc) fun _ => Bool.eq_false_iff.2 hin
  | case7 st m c cs hin hspace htab hc hm ih =>
    have hcs := h.ended.after hc
    rw [List.cons_append, scanLines, if_neg hin, if_neg hspace, if_neg htab, if_neg hc, if_pos hm]
    exact ih (.inl hcs) fun hnil => absurd hnil hcs.ne_nil
  | case8 st m c cs hin hspace htab hc hm =>
    rw [List.cons_append, scanLines, if_neg hin, if_neg hspace, if_neg htab, if_neg hc, if_neg hm]
    exact .some (t := ⟨m, c :: cs⟩) h

/-- The lines after the header. -/
def body (folded : Bool) (least : Nat) (indent : Option Nat) (t : Tail) : Option (State × Tail) :=
  match indent with
  | some n => scanLines folded (least - 1 + n) {} t.mark t.chars
  | none =>
    (measure [] 0 t.mark t.chars).bind fun (breaks, deepest, t) =>
      scanLines folded (max 1 (max deepest least)) { more := breaks } t.mark t.chars

theorem scan_eq (folded : Bool) (least : Nat) (t : Tail) : scan folded least t =
    (header? t.chars).bind fun (hd, cs) =>
      (restOfLine ⟨⟨t.mark.line, t.mark.column + (t.chars.length - cs.length)⟩, cs⟩).bind fun t =>
        (body folded least hd.indent t).map fun (st, t) =>
          (String.ofList (st.finish hd.chomping).reverse, t) := by
  rw [scan]
  refine congrArg (Option.bind _) (funext fun (hd, cs) => ?_)
  refine congrArg (Option.bind _) (funext fun t => ?_)
  obtain ⟨chomping, indent⟩ := hd
  cases indent with
  | some n => exact Option.map_eq_bind.symm
  | none =>
    rw [body, Option.map_eq_bind, Option.bind_assoc]
    rfl

theorem body_before (hrest : Opens rest) (folded : Bool) (least : Nat) {indent : Option Nat} {t : Tail}
    (hindent : ∀ n, indent = some n → 0 < n) (h : t.Lined) :
    Agree Tail.Lined rest (body folded least indent t) (body folded least indent (t.before rest)) := by
  cases indent with
  | some n =>
    refine scanLines_before hrest ?_ h fun _ => rfl
    exact Nat.add_pos_right _ (hindent n rfl)
  | none =>
    intro st u hbody
    obtain ⟨⟨breaks, deepest, v⟩, hmeasure, hlines⟩ := Option.bind_eq_some_iff.1 hbody
    obtain ⟨hv, hmeasure'⟩ := measure_before hrest h hmeasure
    have hpos : 0 < max 1 (max deepest least) := Nat.lt_of_lt_of_le Nat.zero_lt_one (Nat.le_max_left _ _)
    obtain ⟨hu, hlines'⟩ := scanLines_before hrest hpos hv (fun _ => rfl) st u hlines
    refine ⟨hu, ?_⟩
    exact Option.bind_eq_some_iff.2 ⟨_, hmeasure', hlines'⟩

theorem scan_before (hrest : Opens rest) {folded : Bool} {least : Nat} {t : Tail} (h : t.Ended) :
    Agree Tail.Lined rest (scan folded least t) (scan folded least (t.before rest)) := by
  intro s u hscan
  rw [scan_eq] at hscan ⊢
  obtain ⟨⟨hd, cs⟩, hheader, hscan⟩ := Option.bind_eq_some_iff.1 hscan
  obtain ⟨v, hline, hscan⟩ := Option.bind_eq_some_iff.1 hscan
  obtain ⟨hcs, hheader'⟩ := header?_before h hheader
  obtain ⟨hv, hline'⟩ := restOfLine_before (t := ⟨_, cs⟩) rest hcs hline
  have hbody := (body_before hrest folded least (fun n => indent_pos_of_header? hheader) hv).map
    fun st => String.ofList (st.finish hd.chomping).reverse
  obtain ⟨hu, hbody'⟩ := hbody s u hscan
  refine ⟨hu, Option.bind_eq_some_iff.2 ⟨_, hheader', Option.bind_eq_some_iff.2 ⟨_, ?_, hbody'⟩⟩⟩
  rw [← hline']
  simp only [Tail.before, List.length_append, Nat.add_sub_add_right]

end Block

/-! ## Pieces -/

namespace Outline

theorem skipGap_opens (hrest : Opens rest) (flow keyAllowed : Bool) (m : Mark) :
    skipGap flow keyAllowed false m rest = (keyAllowed, ⟨m, rest⟩) := by
  cases hrest with
  | intro h => rfl

theorem skipGap_before (hrest : Opens rest) (flow keyAllowed : Bool) {comment : Bool} {m : Mark}
    {cs : List Char} (h : Tail.Lined ⟨m, cs⟩) (hcomment : cs = [] → comment = false) :
    (skipGap flow keyAllowed comment m cs).2.Lined ∧
    skipGap flow keyAllowed comment m (cs ++ rest) =
      ((skipGap flow keyAllowed comment m cs).1, (skipGap flow keyAllowed comment m cs).2.before rest) := by
  fun_induction skipGap flow keyAllowed comment m cs with
  | case1 keyAllowed comment m =>
    rw [hcomment rfl, List.nil_append, skipGap_opens hrest]
    exact ⟨h, rfl⟩
  | case2 keyAllowed comment m c cs hc ih =>
    rw [List.cons_append, skipGap, if_pos hc]
    exact ih (.of_break h.ended hc) fun _ => rfl
  | case3 keyAllowed comment m c cs hc hmark ih =>
    have hcs := h.ended.after hc
    rw [List.cons_append, skipGap, if_neg hc, if_pos hmark]
    exact ih (.inl hcs) fun hnil => absurd hnil hcs.ne_nil
  | case4 keyAllowed comment m c cs hc hmark hblank ih =>
    have hcs := h.ended.after hc
    rw [List.cons_append, skipGap, if_neg hc, if_neg hmark, if_pos hblank]
    exact ih (.inl hcs) fun hnil => absurd hnil hcs.ne_nil
  | case5 keyAllowed comment m c cs hc hmark hblank =>
    rw [List.cons_append, skipGap, if_neg hc, if_neg hmark, if_neg hblank]
    exact ⟨h, rfl⟩

theorem not_isBreak_of_skipGap {flow keyAllowed comment : Bool} {m : Mark} {cs cs' : List Char}
    {c : Char} (h : (skipGap flow keyAllowed comment m cs).2.chars = c :: cs') : isBreak c = false := by
  fun_induction skipGap flow keyAllowed comment m cs with
  | case1 => cases h
  | case2 _ _ _ _ _ _ ih => exact ih h
  | case3 _ _ _ _ _ _ _ ih => exact ih h
  | case4 _ _ _ _ _ _ _ _ ih => exact ih h
  | case5 _ _ _ _ _ hc =>
    cases h
    exact Bool.eq_false_iff.2 hc

theorem piece?_before (hrest : Opens rest) {flow : Bool} {least : Nat} {m : Mark} {c : Char}
    {cs : List Char} (hc : isBreak c = false) (h : Ended (c :: cs)) :
    Agree Tail.Lined rest (piece? flow least m c cs) (piece? flow least m c (cs ++ rest)) := by
  have hcs : Ended cs := h.tail hc
  have hafter : Tail.Ended ⟨m.past c, cs⟩ := hcs
  have hboundary := boundary?_before (m := m) h rest
  rw [List.cons_append] at hboundary
  rw [piece?, piece?]
  refine .ite Iff.rfl (fun _ => ?_) fun _ => ?_
  · intro p t hdirective
    obtain ⟨⟨x, u⟩, hread, hline⟩ := Option.bind_eq_some_iff.1 hdirective
    obtain ⟨v, hline, hp⟩ := Option.bind_eq_some_iff.1 hline
    cases hp
    obtain ⟨hu, hread'⟩ := Directive.read?_before rest hafter x u hread
    obtain ⟨hv, hline'⟩ := Block.restOfLine_before rest hu hline
    refine ⟨hv, Option.bind_eq_some_iff.2 ⟨_, hread', ?_⟩⟩
    exact Option.bind_eq_some_iff.2 ⟨_, hline', rfl⟩
  rw [hboundary]
  cases hb : boundary? m (c :: cs) with
  | some b =>
    obtain ⟨-, tl, heq, -⟩ := boundary?_eq_some_iff.1 hb
    obtain ⟨tl', heq', -, htl'⟩ :=
      h.exists_of_append_eq b.all_sign ((List.append_nil (c :: cs)).trans heq)
    have hdrop : cs.drop 2 = tl' := by
      rw [← List.drop_succ_cons (a := c), heq', List.drop_left' b.length_sign]
    have hdrop' : (cs ++ rest).drop 2 = tl' ++ rest := by
      rw [← List.drop_succ_cons (a := c), ← List.cons_append, heq', List.append_assoc,
        List.drop_left' b.length_sign]
    dsimp only
    rw [hdrop, hdrop']
    exact .some (t := ⟨_, tl'⟩) (.inl htl')
  | none =>
    have hsign (p : Piece) : Agree Tail.Lined rest (some (p, ⟨m.past c, cs⟩))
        (some (p, ⟨m.past c, cs ++ rest⟩)) :=
      .some (t := ⟨m.past c, cs⟩) (.inl hafter)
    dsimp only
    rw [hcs.atGap, Plain.begins_before hcs]
    refine .ite Iff.rfl (fun _ => hsign _) fun _ => .ite Iff.rfl (fun _ => hsign _) fun _ =>
      .ite Iff.rfl (fun _ => hsign _) fun _ => .ite Iff.rfl (fun _ => hsign _) fun _ =>
      .ite Iff.rfl (fun _ => hsign _) fun _ => .ite Iff.rfl (fun _ => hsign _) fun _ =>
      .ite Iff.rfl (fun _ => hsign _) fun _ => .ite Iff.rfl (fun _ => hsign _) fun _ =>
      .ite Iff.rfl (fun _ => ?_) fun _ => .ite Iff.rfl (fun _ => ?_) fun _ =>
      .ite Iff.rfl (fun _ => ?_) fun _ => .ite Iff.rfl (fun _ => ?_) fun _ =>
      .ite Iff.rfl (fun _ => ?_) fun _ => .ite Iff.rfl (fun _ => ?_) fun _ =>
      .ite Iff.rfl (fun _ => ?_) fun _ => .none _
    · exact ((anchorName?_before rest hafter).map fun name => Piece.content (.reference name)).lined
    · exact ((anchorName?_before rest hafter).map fun name => Piece.content (.anchor name)).lined
    · exact ((Tag.read?_before rest flow (t := ⟨m, c :: cs⟩) h).map Piece.content).lined
    · exact (Block.scan_before hrest hafter).map fun s => Piece.blockScalar (.scalar _ s)
    · exact ((Quoted.single_before hafter).map fun s => Piece.content (.scalar .single s)).lined
    · exact ((Quoted.double_before hafter).map fun s => Piece.content (.scalar .double s)).lined
    · intro p t hplain
      obtain ⟨⟨s, lines, u⟩, hscan, hp⟩ := Option.map_eq_some_iff.1 hplain
      cases hp
      obtain ⟨hu, hscan'⟩ := Plain.scan_before hrest (t := ⟨m, c :: cs⟩) h hscan
      exact ⟨hu, Option.map_eq_some_iff.2 ⟨_, hscan', rfl⟩⟩

end Outline

end SiteNav.Yaml
