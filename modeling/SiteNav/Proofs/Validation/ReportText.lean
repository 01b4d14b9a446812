import SiteNav.Proofs.Text.Quoted
import SiteNav.Report
import SiteNav.Validation

/-!
# Reports as text

A finding stands on a line of its own whatever the texts it quotes: they hold no line feed once they
are quoted, and nothing else in a line does. From a line the place can be read up to its colon, as
numbers stand in brackets and quoted texts are told apart from what comes behind them, and the rule
from the message that is left. Main statement: the lines of a report are its findings, and neither two
findings nor two reports are described alike.
-/
namespace SiteNav
open Text (quoted)

/-! ## Rules -/

namespace Rule

/-- A rule without the position that it names. -/
def variant : Rule → Rule
  | duplicateGroupText _ => duplicateGroupText 0
  | duplicateLink _ => duplicateLink 0
  | r => r

def variants : List Rule :=
  [emptyBasePath, basePathNotAbsolute, basePathWithoutTrailingSlash, emptyTitle, emptySidebar,
    emptyGroup, duplicateGroupText 0, duplicateLink 0, emptyLink, linkNotRelative]

theorem variant_mem_variants (r : Rule) : r.variant ∈ variants := by
  cases r <;> simp [variant, variants]

theorem message_duplicateGroupText (first : Nat) : (duplicateGroupText first).message =
    "duplicate group text (first used by sidebar[" ++ toString first ++ "])" := rfl

theorem message_duplicateLink (first : Nat) : (duplicateLink first).message =
    "duplicate link (first used by items[" ++ toString first ++ "])" := rfl

theorem take_toList_append {n : Nat} {a : String} (h : n ≤ a.toList.length) (b c : String) :
    (a ++ b ++ c).toList.take n = a.toList.take n := by
  rw [String.append_assoc, String.toList_append, List.take_append_of_le_length h]

/-- No position is named in the first eleven characters of a message. -/
theorem take_message (r : Rule) : r.message.toList.take 11 = r.variant.message.toList.take 11 := by
  cases r with
  | duplicateGroupText first =>
    have hlong : 11 ≤ "duplicate group text (first used by sidebar[".toList.length := by decide
    exact (take_toList_append hlong _ _).trans (take_toList_append hlong _ _).symm
  | duplicateLink first =>
    have hlong : 11 ≤ "duplicate link (first used by items[".toList.length := by decide
    exact (take_toList_append hlong _ _).trans (take_toList_append hlong _ _).symm
  | _ => rfl

theorem eq_of_take_message : ∀ r ∈ variants, ∀ s ∈ variants,
    r.message.toList.take 11 = s.message.toList.take 11 → r = s := by decide +kernel

theorem message_injective : Function.Injective message := by
  intro r s h
  have hstart : r.variant.message.toList.take 11 = s.variant.message.toList.take 11 := by
    rw [← take_message, ← take_message, h]
  have hvariant : r.variant = s.variant :=
    eq_of_take_message _ r.variant_mem_variants _ s.variant_mem_variants hstart
  cases r with
  | duplicateGroupText m =>
    cases s with
    | duplicateGroupText n =>
      have hdigits : Nat.toDigits 10 m = Nat.toDigits 10 n := by
        simpa [message_duplicateGroupText] using congrArg String.toList h
      rw [Text.toDigits_inj (by decide) (by decide) hdigits]
    | _ => cases hvariant
  | duplicateLink m =>
    cases s with
    | duplicateLink n =>
      have hdigits : Nat.toDigits 10 m = Nat.toDigits 10 n := by
        simpa [message_duplicateLink] using congrArg String.toList h
      rw [Text.toDigits_inj (by decide) (by decide) hdigits]
    | _ => cases hvariant
  | _ => cases s <;> simp_all [variant]

end Rule

/-! ## Places -/

namespace Location
variable {i j : Nat} {t u : String} {l m : Location} {r r' : List Char}

/-- A position in brackets and a quoted text, each behind a word. -/
def numbered (word : List Char) (i : Nat) (word' : List Char) (t : String) : List Char :=
  word ++ (Nat.toDigits 10 i ++ ']' :: (word' ++ (quoted t).toList))

theorem numbered_append_inj {word word' : List Char}
    (h : numbered word i word' t ++ r = numbered word j word' u ++ r') : i = j ∧ t = u ∧ r = r' := by
  simp only [numbered, List.append_assoc, List.cons_append, List.append_cancel_left_eq] at h
  obtain ⟨hposition, htext⟩ := Text.toDigits_append_inj (by decide) (by decide) rfl h
  exact ⟨hposition, Text.quoted_append_inj (List.append_cancel_left htext)⟩

theorem newline_notMem_numbered {word word' : List Char} (h : '\n' ∉ word) (h' : '\n' ∉ word') :
    '\n' ∉ numbered word i word' t := by
  simp [numbered, h, h', Text.newline_notMem_toDigits, Text.newline_notMem_quoted]

theorem toList_describe_group :
    (group i t).describe.toList = numbered "sidebar[".toList i " ".toList t := by
  change ("sidebar[" ++ toString i ++ "] " ++ quoted t).toList = _
  simp [numbered]

theorem toList_describe_item : (item i t j u).describe.toList =
    numbered "sidebar[".toList i " ".toList t ++ numbered " items[".toList j " link ".toList u := by
  change ("sidebar[" ++ toString i ++ "] " ++ quoted t ++ " items[" ++ toString j ++ "] link " ++
    quoted u).toList = _
  simp [numbered]

/-- A place is known from its description and the colon behind it: there the description of an item
goes on where that of a group ends. -/
theorem describe_append_inj (h : l.describe.toList ++ ':' :: r = m.describe.toList ++ ':' :: r') :
    l = m ∧ r = r' := by
  cases l with
  | title => cases m <;> simp_all [describe]
  | basePath => cases m <;> simp_all [describe]
  | sidebar => cases m <;> simp_all [describe]
  | group i t =>
    cases m with
    | group j u =>
      rw [toList_describe_group, toList_describe_group] at h
      obtain ⟨rfl, rfl, hrest⟩ := numbered_append_inj h
      exact ⟨rfl, (List.cons.inj hrest).2⟩
    | item j u n link' =>
      rw [toList_describe_group, toList_describe_item, List.append_assoc] at h
      obtain ⟨-, -, hrest⟩ := numbered_append_inj h
      simp [numbered] at hrest
    | _ => simp [describe] at h
  | item i t k link =>
    cases m with
    | group j u =>
      rw [toList_describe_group, toList_describe_item, List.append_assoc] at h
      obtain ⟨-, -, hrest⟩ := numbered_append_inj h
      simp [numbered] at hrest
    | item j u n link' =>
      rw [toList_describe_item, toList_describe_item, List.append_assoc, List.append_assoc] at h
      obtain ⟨rfl, rfl, hitem⟩ := numbered_append_inj h
      obtain ⟨rfl, rfl, hrest⟩ := numbered_append_inj hitem
      exact ⟨rfl, (List.cons.inj hrest).2⟩
    | _ => simp [describe] at h

theorem newline_notMem_describe (l : Location) : '\n' ∉ l.describe.toList := by
  cases l with
  | group i t =>
    rw [toList_describe_group]
    exact newline_notMem_numbered (by decide) (by decide)
  | item i t k link =>
    rw [toList_describe_item, List.mem_append, not_or]
    exact ⟨newline_notMem_numbered (by decide) (by decide),
      newline_notMem_numbered (by decide) (by decide)⟩
  | _ => decide

end Location

theorem Rule.newline_notMem_message (r : Rule) : '\n' ∉ r.message.toList := by
  cases r with
  | duplicateGroupText first => simp [message_duplicateGroupText, Text.newline_notMem_toDigits]
  | duplicateLink first => simp [message_duplicateLink, Text.newline_notMem_toDigits]
  | _ => decide

/-! ## Findings -/

namespace Issue
variable {i j : Issue}

theorem toList_describe (i : Issue) : i.describe.toList =
    i.severity.name.toList ++ ':' :: ' ' :: (i.location.describe.toList ++
      ':' :: ' ' :: i.rule.message.toList) := by
  simp [describe]

theorem describe_injective : Function.Injective describe := by
  intro i j h
  have hlists := congrArg String.toList h
  rw [toList_describe, toList_describe] at hlists
  have hseverity : i.severity = j.severity := by
    cases hi : i.severity <;> cases hj : j.severity <;> simp [hi, hj, Severity.name] at hlists ⊢
  rw [hseverity] at hlists
  have hplace := (List.cons.inj (List.cons.inj (List.append_cancel_left hlists)).2).2
  obtain ⟨hlocation, hmessage⟩ := Location.describe_append_inj hplace
  have hrule : i.rule = j.rule :=
    Rule.message_injective (String.toList_inj.1 (List.cons.inj hmessage).2)
  cases i
  cases j
  cases hlocation
  cases hrule
  rfl

theorem describe_ne_empty (i : Issue) : i.describe ≠ "" := by
  intro h
  simpa [h] using i.toList_describe

theorem newline_notMem_describe (i : Issue) : '\n' ∉ i.describe.toList := by
  have hname : '\n' ∉ i.severity.name.toList := by
    cases i.severity <;> decide
  rw [toList_describe]
  simp [hname, i.location.newline_notMem_describe, i.rule.newline_notMem_message]

end Issue

/-! ## Reports -/

namespace Report
variable {r s : Report}

theorem splitOn_describe (h : r.issues ≠ []) :
    r.describe.toList.splitOn '\n' = r.issues.map (·.describe.toList) := by
  have hlines : ∀ line ∈ r.issues.map (·.describe.toList), '\n' ∉ line := by
    rw [List.forall_mem_map]
    exact fun i _ => i.newline_notMem_describe
  rw [describe, String.toList_intercalate, List.map_map]
  exact List.splitOn_intercalate '\n' hlines (by simpa using h)

theorem describe_eq_empty_iff : r.describe = "" ↔ r.issues = [] := by
  constructor
  · intro hempty
    by_contra hne
    have hlines := splitOn_describe hne
    rw [hempty] at hlines
    obtain ⟨i, -, hblank⟩ : ∃ i, r.issues = [i] ∧ i.describe = "" := by simpa using hlines.symm
    exact i.describe_ne_empty hblank
  · intro hnil
    rw [describe, hnil]
    rfl

theorem describe_injective : Function.Injective describe := by
  intro r s h
  have hissues : r.issues = s.issues := by
    by_cases hr : r.issues = []
    · rw [hr, describe_eq_empty_iff.1 (h.symm.trans (describe_eq_empty_iff.2 hr))]
    · have hs : s.issues ≠ [] := by rwa [ne_eq, ← describe_eq_empty_iff, ← h, describe_eq_empty_iff]
      have hlines := splitOn_describe hr
      rw [h, splitOn_describe hs] at hlines
      have hinjective : Function.Injective fun i : Issue => i.describe.toList :=
        fun i j hij => Issue.describe_injective (String.toList_inj.1 hij)
      exact List.map_injective_iff.2 hinjective hlines.symm
  cases r
  cases s
  cases hissues
  rfl

end Report

/-- The report of a site has a line for each finding, in order, and is empty if there is none. What is
found is known from the description, of one finding as of the whole report. -/
theorem Site.describe_validate_faithful (s : Site) :
    (s.validate.describe.toList.splitOn '\n' = if s.validate.issues = [] then [[]]
      else s.validate.issues.map (·.describe.toList)) ∧
    (s.validate.describe = "" ↔ s.validate.issues = []) ∧
    Function.Injective Issue.describe ∧
    ∀ t : Site, s.validate.describe = t.validate.describe → s.validate = t.validate := by
  refine ⟨?_, Report.describe_eq_empty_iff, Issue.describe_injective, fun t h => ?_⟩
  · split_ifs with hnil
    · rw [Report.describe_eq_empty_iff.2 hnil]
      rfl
    · exact Report.splitOn_describe hnil
  · exact Report.describe_injective h

end SiteNav
