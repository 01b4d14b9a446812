import Mathlib.Data.List.Infix
import SiteNav.Toml.Reader

/-!
# What scanners pass over

A scanner leaves the end of the text that it is given. Keys, blanks and escapes stand on one line, and a
key is the text of its name, but for its quotes and where it has escapes.
-/
namespace SiteNav.Toml
open Literal (dropBlanks newline?)

/-- What is passed over has no line end in it. -/
def InLine (cs rest : List Char) : Prop :=
  ∃ word, cs = word ++ rest ∧ '\n' ∉ word

namespace InLine
variable {cs mid rest : List Char} {c : Char}

theorem refl (cs : List Char) : InLine cs cs :=
  ⟨[], rfl, List.not_mem_nil⟩

theorem cons (h : InLine cs rest) (hc : c ≠ '\n') : InLine (c :: cs) rest := by
  obtain ⟨word, rfl, hword⟩ := h
  refine ⟨c :: word, rfl, ?_⟩
  rw [List.mem_cons, not_or]
  exact ⟨hc.symm, hword⟩

theorem trans (h : InLine cs mid) (h' : InLine mid rest) : InLine cs rest := by
  obtain ⟨word, rfl, hword⟩ := h
  obtain ⟨word', rfl, hword'⟩ := h'
  refine ⟨word ++ word', (List.append_assoc ..).symm, ?_⟩
  rw [List.mem_append, not_or]
  exact ⟨hword, hword'⟩

theorem isSuffix (h : InLine cs rest) : rest <:+ cs := by
  obtain ⟨word, rfl, -⟩ := h
  exact List.suffix_append word rest

end InLine

theorem ne_newline_of_isVisible {c : Char} (h : isVisible c = true) : c ≠ '\n' := by
  rintro rfl
  revert h
  decide

theorem ne_newline_of_isBlank {c : Char} (h : isBlank c = true) : c ≠ '\n' := by
  rintro rfl
  revert h
  decide

theorem inLine_dropBlanks (cs : List Char) : InLine cs (dropBlanks cs) := by
  induction cs with
  | nil => exact .refl []
  | cons c cs ih =>
    rw [dropBlanks]
    by_cases hc : isBlank c = true
    · rw [if_pos hc]
      exact ih.cons (ne_newline_of_isBlank hc)
    · rw [if_neg hc]
      exact .refl _

/-! ## Strings -/

theorem inLine_of_digits? {n v value : Nat} {cs rest : List Char}
    (h : Text.digits? 16 n v cs = some (value, rest)) : InLine cs rest := by
  induction n generalizing v cs with
  | zero =>
    cases h
    exact .refl _
  | succ n ih =>
    cases cs with
    | nil => cases h
    | cons c cs =>
      obtain ⟨d, hd, hrest⟩ := Option.bind_eq_some_iff.1 h
      apply (ih hrest).cons
      rintro rfl
      have hnone : Text.digit? 16 '\n' = none := by decide
      rw [hnone] at hd
      cases hd

theorem inLine_of_codePoint? {n : Nat} {cs rest : List Char} {c : Char}
    (h : Text.codePoint? n cs = some (c, rest)) : InLine cs rest := by
  obtain ⟨⟨v, rest'⟩, hdigits, h⟩ := Option.bind_eq_some_iff.1 h
  obtain ⟨c', -, heq⟩ := Option.bind_eq_some_iff.1 h
  cases heq
  exact inLine_of_digits? hdigits

namespace Literal
variable {cs text rest : List Char} {fuel : Nat} {c : Char}

theorem inLine_of_escape? (h : escape? cs = some (c, rest)) : InLine cs rest := by
  unfold escape? at h
  split at h
  case h_9 | h_10 | h_11 => exact (inLine_of_codePoint? h).cons (by decide)
  case h_12 => cases h
  all_goals
    cases h
    exact (InLine.refl _).cons (by decide)

theorem isSuffix_of_newline? (h : newline? cs = some rest) : rest <:+ cs := by
  unfold newline? at h
  split at h
  · cases h
    exact List.suffix_cons _ _
  · cases h
    exact (List.suffix_cons _ _).trans (List.suffix_cons _ _)
  · cases h

theorem dropLines_isSuffix (cs : List Char) : dropLines cs <:+ cs := by
  fun_induction dropLines cs with
  | case1 cs ih => exact ih.trans ((List.suffix_cons _ _).trans (List.suffix_cons _ _))
  | case2 c cs hcr hc ih => exact ih.trans (List.suffix_cons _ _)
  | case3 c cs hcr hc => exact List.suffix_rfl
  | case4 => exact List.suffix_rfl

theorem isSuffix_of_lineContinuation? (h : lineContinuation? cs = some rest) : rest <:+ cs := by
  obtain ⟨mid, hmid, rfl⟩ := Option.map_eq_some_iff.1 h
  exact (dropLines_isSuffix mid).trans ((isSuffix_of_newline? hmid).trans (inLine_dropBlanks cs).isSuffix)

theorem isSuffix_of_closing? {q : Char} {n : Nat} (h : closing? q cs = some (n, rest)) : rest <:+ cs := by
  unfold closing? at h
  split at h
  · rename_i x y z r
    have hr : rest <:+ r := by
      split_ifs at h
      split at h
      · split_ifs at h <;> cases h
        · exact List.suffix_append [_, _] _
        · exact List.suffix_cons _ _
        · exact List.suffix_rfl
      · split_ifs at h <;> cases h
        · exact List.nil_suffix
        · exact List.suffix_rfl
      · cases h
        exact List.suffix_rfl
    exact hr.trans (List.suffix_append [x, y, z] r)
  · cases h

theorem eq_some_of_push {s : Scanned} (h : s.push c = some (text, rest)) :
    ∃ text', s = some (text', rest) ∧ text = c :: text' := by
  obtain ⟨⟨text', rest'⟩, hs, heq⟩ := Option.map_eq_some_iff.1 h
  cases heq
  exact ⟨text', hs, rfl⟩

/-- Without escapes the string is what is written before its closing quote. -/
theorem exists_of_basic (h : basic fuel cs = some (text, rest)) :
    ∃ word, cs = word ++ '"' :: rest ∧ '\n' ∉ word ∧ ('\\' ∉ word → text = word) := by
  induction fuel generalizing cs text with
  | zero => cases h
  | succ fuel ih =>
    unfold basic at h
    split at h
    · cases h
    · cases h
      exact ⟨[], rfl, List.not_mem_nil, fun _ => rfl⟩
    · rename_i r
      obtain ⟨⟨c, r'⟩, hescape, hpush⟩ := Option.bind_eq_some_iff.1 h
      obtain ⟨text', htext, -⟩ := eq_some_of_push hpush
      obtain ⟨word, rfl, hword, -⟩ := ih htext
      obtain ⟨code, rfl, hcode⟩ := inLine_of_escape? hescape
      refine ⟨'\\' :: (code ++ word), by simp, ?_, fun hplain => absurd List.mem_cons_self hplain⟩
      simp [hcode, hword]
    · rename_i c r hquote hescape
      by_cases hc : isVisible c = true
      · rw [if_pos hc] at h
        obtain ⟨text', htext, rfl⟩ := eq_some_of_push h
        obtain ⟨word, rfl, hword, hsame⟩ := ih htext
        refine ⟨c :: word, rfl, ?_, ?_⟩
        · rw [List.mem_cons, not_or]
          exact ⟨(ne_newline_of_isVisible hc).symm, hword⟩
        · intro hplain
          rw [hsame fun hmem => hplain (List.mem_cons_of_mem c hmem)]
      · rw [if_neg hc] at h
        cases h

theorem eq_append_of_literal (h : literal cs = some (text, rest)) :
    cs = text ++ '\'' :: rest ∧ '\n' ∉ text := by
  induction cs generalizing text with
  | nil => cases h
  | cons c cs ih =>
    rw [literal] at h
    split_ifs at h with hquote hc
    · cases h
      exact ⟨by rw [hquote]; rfl, List.not_mem_nil⟩
    · obtain ⟨text', htext, rfl⟩ := eq_some_of_push h
      obtain ⟨rfl, hnewline⟩ := ih htext
      refine ⟨rfl, ?_⟩
      rw [List.mem_cons, not_or]
      exact ⟨(ne_newline_of_isVisible hc).symm, hnewline⟩

theorem isSuffix_of_multiBasic (h : multiBasic fuel cs = some (text, rest)) : rest <:+ cs := by
  induction fuel generalizing cs text with
  | zero => cases h
  | succ fuel ih =>
    unfold multiBasic at h
    split at h
    · cases h
      exact isSuffix_of_closing? ‹_›
    · split at h
      · cases h
      · split at h
        · exact (ih h).trans ((isSuffix_of_lineContinuation? ‹_›).trans (List.suffix_cons _ _))
        · obtain ⟨⟨c, r⟩, hescape, hpush⟩ := Option.bind_eq_some_iff.1 h
          obtain ⟨text', htext, -⟩ := eq_some_of_push hpush
          exact (ih htext).trans ((inLine_of_escape? hescape).isSuffix.trans (List.suffix_cons _ _))
      · obtain ⟨text', htext, -⟩ := eq_some_of_push h
        exact (ih htext).trans (List.suffix_cons _ _)
      · obtain ⟨text', hpush, -⟩ := eq_some_of_push h
        obtain ⟨text'', htext, -⟩ := eq_some_of_push hpush
        exact (ih htext).trans ((List.suffix_cons _ _).trans (List.suffix_cons _ _))
      · split at h
        · obtain ⟨text', htext, -⟩ := eq_some_of_push h
          exact (ih htext).trans (List.suffix_cons _ _)
        · cases h

theorem isSuffix_of_multiLiteral (h : multiLiteral fuel cs = some (text, rest)) : rest <:+ cs := by
  induction fuel generalizing cs text with
  | zero => cases h
  | succ fuel ih =>
    unfold multiLiteral at h
    split at h
    · cases h
      exact isSuffix_of_closing? ‹_›
    · split at h
      · cases h
      · obtain ⟨text', htext, -⟩ := eq_some_of_push h
        exact (ih htext).trans (List.suffix_cons _ _)
      · obtain ⟨text', hpush, -⟩ := eq_some_of_push h
        obtain ⟨text'', htext, -⟩ := eq_some_of_push hpush
        exact (ih htext).trans ((List.suffix_cons _ _).trans (List.suffix_cons _ _))
      · split at h
        · obtain ⟨text', htext, -⟩ := eq_some_of_push h
          exact (ih htext).trans (List.suffix_cons _ _)
        · cases h

theorem afterFirstNewline_isSuffix (cs : List Char) : afterFirstNewline cs <:+ cs := by
  rw [afterFirstNewline]
  cases h : newline? cs with
  | none => exact List.suffix_rfl
  | some rest => exact isSuffix_of_newline? h

theorem isSuffix_of_scan (h : scan cs = some (text, rest)) : rest <:+ cs := by
  unfold scan at h
  split at h
  · rename_i r
    exact ((isSuffix_of_multiBasic h).trans (afterFirstNewline_isSuffix r)).trans (List.suffix_append ['"', '"', '"'] r)
  · rename_i r
    exact ((isSuffix_of_multiLiteral h).trans (afterFirstNewline_isSuffix r)).trans (List.suffix_append ['\'', '\'', '\''] r)
  · obtain ⟨word, rfl, -⟩ := exists_of_basic h
    exact List.suffix_append ('"' :: (word ++ ['"'])) rest |>.trans (by simp)
  · obtain ⟨rfl, -⟩ := eq_append_of_literal h
    exact List.suffix_append ('\'' :: (text ++ ['\''])) rest |>.trans (by simp)
  · cases h

end Literal

/-! ## Other scalars, and gaps -/

namespace Bare
variable {cs word rest : List Char}

theorem eq_append_of_spanBare (h : spanBare cs = (word, rest)) : cs = word ++ rest := by
  induction cs generalizing word with
  | nil =>
    cases h
    rfl
  | cons c cs ih =>
    rw [spanBare] at h
    split at h
    · cases hspan : spanBare cs with
      | mk more rest' =>
        rw [hspan] at h
        cases h
        rw [ih hspan]
        rfl
    · cases h
      rfl

theorem isSuffix_of_run (h : run cs = (word, rest)) : rest <:+ cs := by
  unfold run at h
  split at h
  · rename_i first d more hspan
    have hcs := eq_append_of_spanBare hspan
    split at h
    · cases htime : spanBare (d :: more) with
      | mk time rest' =>
        have hmore := eq_append_of_spanBare htime
        simp only [htime] at h
        cases h
        rw [hcs, hmore]
        exact List.suffix_append_of_suffix ((List.suffix_append _ _).trans (List.suffix_cons _ _))
    · cases h
      rw [hcs]
      exact List.suffix_append _ _
  · rw [eq_append_of_spanBare h]
    exact List.suffix_append _ _

theorem isSuffix_of_scan {value : Scalar} (h : scan cs = some (value, rest)) : rest <:+ cs := by
  rw [scan] at h
  cases hrun : run cs with
  | mk word rest' =>
    rw [hrun] at h
    obtain ⟨_, -, heq⟩ := Option.map_eq_some_iff.1 h
    cases heq
    exact isSuffix_of_run hrun

end Bare

section Gaps
variable {cs rest : List Char}

theorem isSuffix_of_dropComment (h : dropComment cs = some rest) : rest <:+ cs := by
  fun_induction dropComment cs with
  | case1 =>
    cases h
    exact List.suffix_rfl
  | case2 =>
    cases h
    exact List.suffix_rfl
  | case3 =>
    cases h
    exact List.suffix_rfl
  | case4 c cs _ _ _ ih => exact (ih h).trans (List.suffix_cons c cs)
  | case5 => cases h

theorem isSuffix_of_dropGaps {fuel : Nat} (h : dropGaps fuel cs = some rest) : rest <:+ cs := by
  induction fuel generalizing cs with
  | zero => cases h
  | succ fuel ih =>
    have hblanks := (inLine_dropBlanks cs).isSuffix
    unfold dropGaps at h
    split at h
    · rename_i r hcs
      obtain ⟨r', hcomment, hrest⟩ := Option.bind_eq_some_iff.1 h
      rw [hcs] at hblanks
      exact (ih hrest).trans ((isSuffix_of_dropComment hcomment).trans ((List.suffix_cons _ r).trans hblanks))
    · rename_i r hcs
      rw [hcs] at hblanks
      exact (ih h).trans ((List.suffix_cons _ r).trans hblanks)
    · rename_i r hcs
      rw [hcs] at hblanks
      exact (ih h).trans ((List.suffix_append ['\r', '\n'] r).trans hblanks)
    · cases h
      exact hblanks

theorem isSuffix_of_gaps (h : gaps cs = some rest) : rest <:+ cs :=
  isSuffix_of_dropGaps h

theorem isSuffix_of_endLine (h : endLine cs = some rest) : rest <:+ cs := by
  have hblanks := (inLine_dropBlanks cs).isSuffix
  unfold endLine at h
  dsimp only at h
  split at h
  · rename_i r hcs
    obtain ⟨mid, hcomment, hrest⟩ := Option.bind_eq_some_iff.1 h
    rw [hcs] at hblanks
    have hmid := (isSuffix_of_dropComment hcomment).trans ((List.suffix_cons _ r).trans hblanks)
    split at hrest
    · cases hrest
      exact List.nil_suffix
    · exact (Literal.isSuffix_of_newline? hrest).trans hmid
  · obtain ⟨mid, hmid, hrest⟩ := Option.bind_eq_some_iff.1 h
    cases hmid
    split at hrest
    · cases hrest
      exact List.nil_suffix
    · exact (Literal.isSuffix_of_newline? hrest).trans hblanks

end Gaps

/-! ## Keys -/

/-- A key that is written as the word has the name. -/
def SpellsKey (word : List Char) (name : String) : Prop :=
  ∃ rest k, scanKey (word ++ rest) = some (k, rest) ∧ k.name = name

theorem eq_append_of_spanKeyChars {cs word rest : List Char} (h : spanKeyChars cs = (word, rest)) :
    cs = word ++ rest ∧ ∀ c ∈ word, isBareKeyChar c = true := by
  induction cs generalizing word with
  | nil =>
    cases h
    exact ⟨rfl, List.forall_mem_nil _⟩
  | cons c cs ih =>
    rw [spanKeyChars] at h
    split at h
    · cases hspan : spanKeyChars cs with
      | mk more rest' =>
        rw [hspan] at h
        cases h
        obtain ⟨rfl, hmore⟩ := ih hspan
        exact ⟨rfl, List.forall_mem_cons.2 ⟨‹_›, hmore⟩⟩
    · cases h
      exact ⟨rfl, List.forall_mem_nil _⟩

theorem ne_newline_of_isBareKeyChar {c : Char} (h : isBareKeyChar c = true) : c ≠ '\n' := by
  rintro rfl
  revert h
  decide

theorem exists_of_scanKey {cs rest : List Char} {k : Key} (h : scanKey cs = some (k, rest)) :
    ∃ word, cs = word ++ rest ∧ '\n' ∉ word ∧ k.span.start = cs.length ∧
      ('\\' ∉ word → k.name.toList <:+: word) := by
  unfold scanKey at h
  split at h
  · obtain ⟨⟨text, rest'⟩, htext, heq⟩ := Option.map_eq_some_iff.1 h
    cases heq
    obtain ⟨word, rfl, hword, hsame⟩ := Literal.exists_of_basic htext
    refine ⟨'"' :: (word ++ ['"']), by simp, by simp [hword], rfl, ?_⟩
    intro hplain
    rw [String.toList_ofList, hsame fun hmem => hplain (by simp [hmem])]
    exact ⟨['"'], ['"'], by simp⟩
  · obtain ⟨⟨text, rest'⟩, htext, heq⟩ := Option.map_eq_some_iff.1 h
    cases heq
    obtain ⟨rfl, hline⟩ := Literal.eq_append_of_literal htext
    refine ⟨'\'' :: (text ++ ['\'']), by simp, by simp [hline], rfl, fun _ => ?_⟩
    rw [String.toList_ofList]
    exact ⟨['\''], ['\''], by simp⟩
  · split at h
    · cases h
    · cases hspan : spanKeyChars cs with
      | mk word rest' =>
        rw [hspan] at h
        cases h
        obtain ⟨rfl, hword⟩ := eq_append_of_spanKeyChars hspan
        refine ⟨word, rfl, ?_, rfl, fun _ => ?_⟩
        · intro hmem
          exact ne_newline_of_isBareKeyChar (hword _ hmem) rfl
        · rw [String.toList_ofList]

namespace SpellsKey
variable {word : List Char} {name : String} (h : SpellsKey word name)
include h

theorem newline_notMem : '\n' ∉ word := by
  obtain ⟨rest, k, hscan, -⟩ := h
  obtain ⟨word', hcs, hword, -⟩ := exists_of_scanKey hscan
  rwa [List.append_cancel_right hcs]

/-- A key without escapes holds its name as it is. -/
theorem isInfix (hplain : '\\' ∉ word) : name.toList <:+: word := by
  obtain ⟨rest, k, hscan, rfl⟩ := h
  obtain ⟨word', hcs, -, -, hname⟩ := exists_of_scanKey hscan
  obtain rfl := List.append_cancel_right hcs
  exact hname hplain

end SpellsKey

/-- The key is written somewhere in the word, behind which the rest is left. -/
def KeyIn (word rest : List Char) (k : Key) : Prop :=
  ∃ front key back, word = front ++ (key ++ back) ∧ SpellsKey key k.name ∧
    k.span.start = (key ++ (back ++ rest)).length

theorem KeyIn.append {word more rest : List Char} {k : Key} (h : KeyIn word (more ++ rest) k) :
    KeyIn (word ++ more) rest k := by
  obtain ⟨front, key, back, rfl, hkey, hstart⟩ := h
  refine ⟨front, key, back ++ more, by simp, hkey, ?_⟩
  rw [hstart, List.append_assoc]

theorem KeyIn.prepend {word rest : List Char} {k : Key} (h : KeyIn word rest k) (before : List Char) :
    KeyIn (before ++ word) rest k := by
  obtain ⟨front, key, back, rfl, hkey, hstart⟩ := h
  exact ⟨before ++ front, key, back, by simp, hkey, hstart⟩

/-- All keys of a dotted key stand on one line. -/
theorem exists_of_scanDottedKey {fuel : Nat} {cs rest : List Char} {key : DottedKey}
    (h : scanDottedKey fuel cs = some (key, rest)) :
    ∃ word, cs = word ++ rest ∧ '\n' ∉ word ∧ ∀ k ∈ key.path ++ [key.last], KeyIn word rest k := by
  induction fuel generalizing cs key with
  | zero => cases h
  | succ fuel ih =>
    obtain ⟨⟨k, rest₁⟩, hscan, hnext⟩ := Option.bind_eq_some_iff.1 h
    obtain ⟨word, rfl, hword, hstart, -⟩ := exists_of_scanKey hscan
    have hkey : SpellsKey word k.name := ⟨rest₁, k, hscan, rfl⟩
    dsimp only at hnext
    split at hnext
    · rename_i r hdot
      obtain ⟨⟨more, rest₂⟩, hmore, heq⟩ := Option.bind_eq_some_iff.1 hnext
      cases heq
      obtain ⟨gap, hgap, hgapline⟩ := inLine_dropBlanks rest₁
      obtain ⟨gap', hgap', hgapline'⟩ := inLine_dropBlanks r
      obtain ⟨word', hword', hline, hkeys⟩ := ih hmore
      have hrest : rest₁ = gap ++ '.' :: (gap' ++ word') ++ rest₂ := by
        rw [hgap, hdot, hgap', hword']
        simp
      refine ⟨word ++ (gap ++ '.' :: (gap' ++ word')), by simp [hrest], ?_, ?_⟩
      · simp [hword, hgapline, hgapline', hline]
      · rw [List.cons_append, List.forall_mem_cons]
        refine ⟨⟨[], word, _, rfl, hkey, by rw [hstart, hrest]⟩, ?_⟩
        intro k' hk'
        have hlong := (hkeys k' hk').prepend (word ++ (gap ++ '.' :: gap'))
        simpa using hlong
    · cases hnext
      refine ⟨word, rfl, hword, ?_⟩
      rw [List.nil_append, List.forall_mem_singleton]
      exact ⟨[], word, [], by simp, hkey, by simp [hstart]⟩

end SiteNav.Toml
