import SiteNav.Proofs.Validation.Order

/-!
# Lookups and repeats

A lookup goes through a list until it meets the text it was given, while validation keeps a table of
first uses and reports every later one. Both mean the same entry. Main statement: what is found under
the text of an entry is the first entry with that text, and the entry is reported as a repeat exactly
if it comes behind that one, by the position of that one.
-/
namespace SiteNav

/-- The entry `a` at `j` is the first with the text `t`. -/
structure IsFirst {α : Type} (key : α → String) (as : List α) (t : String) (j : Nat) (a : α) :
    Prop where
  getElem? : as[j]? = some a
  key_eq : key a = t
  before : ∀ i < j, ∀ b, as[i]? = some b → key b ≠ t

section Entries
variable {α : Type} {key : α → String} {as : List α} {t : String} {i j k : Nat} {a b : α}

/-- By induction on the entries: the first of the rest is the first of all, unless it comes behind an
entry with the same text. -/
theorem exists_isFirst (key : α → String) (h : as[i]? = some a) : ∃ j b, IsFirst key as (key a) j b := by
  induction as generalizing i with
  | nil => simp at h
  | cons c as ih =>
    by_cases hc : key c = key a
    · exact ⟨0, c, rfl, hc, fun i hi => absurd hi i.not_lt_zero⟩
    · cases i with
      | zero =>
        obtain rfl : c = a := by simpa using h
        exact absurd rfl hc
      | succ i =>
        obtain ⟨j, b, hb⟩ := ih (by simpa using h)
        refine ⟨j + 1, b, by simpa using hb.getElem?, hb.key_eq, ?_⟩
        intro i hi d hd
        cases i with
        | zero =>
          obtain rfl : c = d := by simpa using hd
          exact hc
        | succ i => exact hb.before i (by omega) d (by simpa using hd)

theorem IsFirst.find?_eq (h : IsFirst key as t j a) : as.find? (key · == t) = some a := by
  obtain ⟨hj, ha⟩ := List.getElem?_eq_some_iff.1 h.getElem?
  rw [List.find?_eq_some_iff_getElem]
  refine ⟨beq_iff_eq.2 h.key_eq, j, hj, ha, fun i hi => ?_⟩
  have hne : key as[i] ≠ t := h.before i hi as[i] (List.getElem?_eq_getElem (by omega))
  simpa using hne

theorem IsFirst.idxOf_eq (h : IsFirst key as t j a) : (as.map key).idxOf t = j := by
  obtain ⟨hj, rfl⟩ := List.getElem?_eq_some_iff.1 h.getElem?
  rw [List.idxOf, List.findIdx_map, List.findIdx_eq hj]
  refine ⟨beq_iff_eq.2 h.key_eq, fun i hi => ?_⟩
  exact beq_eq_false_iff_ne.2 (h.before i hi as[i] (List.getElem?_eq_getElem (by omega)))

theorem IsFirst.firstUse?_eq_some_iff (h : IsFirst key as t j a) (n : Nat) :
    firstUse? (as.map key) t k = some n ↔ j < k ∧ n = j := by
  rw [firstUse?, h.idxOf_eq]
  by_cases hk : j < k
  · rw [if_pos hk, Option.some_inj, and_iff_right hk, eq_comm]
  · rw [if_neg hk]
    simp [hk]

/-- Among different texts each is the first of its kind. -/
theorem isFirst_of_nodup (h : (as.map key).Nodup) (ha : as[i]? = some a) :
    IsFirst key as (key a) i a := by
  refine ⟨ha, rfl, fun k hk b hb heq => ?_⟩
  have hbound : k < (as.map key).length := by
    rw [List.length_map]
    exact (List.getElem?_eq_some_iff.1 hb).1
  have hkey : (as.map key)[k]? = (as.map key)[i]? := by
    rw [List.getElem?_map, List.getElem?_map, hb, ha, Option.map_some, Option.map_some, heq]
  exact hk.ne ((List.getElem?_inj hbound h).1 hkey)

end Entries

/-! ## What is reported of an entry -/

theorem Group.mem_findings_duplicateGroupText {groups : List Group} {g : Group} {i n : Nat}
    {t : String} : ⟨.group i t, .duplicateGroupText n⟩ ∈ g.findings groups i ↔
      t = g.text ∧ firstUse? (groups.map (·.text)) g.text i = some n := by
  rw [← Option.mem_toList, findings, List.mem_append, List.mem_map]
  constructor
  · rintro (⟨first, hfirst, heq⟩ | hbody)
    · cases heq
      exact ⟨rfl, hfirst⟩
    · split_ifs at hbody
      · cases List.mem_singleton.1 hbody
      · obtain ⟨p, -, hp⟩ := List.mem_flatMap.1 hbody
        cases Item.location_of_mem_findings hp
  · rintro ⟨rfl, hfirst⟩
    exact .inl ⟨n, hfirst, rfl⟩

theorem Item.mem_findings_duplicateLink {i k n : Nat} {g : Group} {it : Item} {loc : Location} :
    ⟨loc, .duplicateLink n⟩ ∈ it.findings i g k ↔
      loc = .item i g.text k it.link ∧ firstUse? (g.items.map (·.link)) it.link k = some n := by
  rw [← Option.mem_toList, findings, List.mem_append, List.mem_map]
  constructor
  · rintro (hlink | ⟨first, hfirst, heq⟩)
    · split_ifs at hlink <;> simp at hlink
    · cases heq
      exact ⟨rfl, hfirst⟩
  · rintro ⟨rfl, hfirst⟩
    exact .inr ⟨n, hfirst, rfl⟩

theorem Group.mem_findings_duplicateLink {groups : List Group} {g : Group} {i k n : Nat} {it : Item}
    {t link : String} (hit : g.items[k]? = some it) :
    ⟨.item i t k link, .duplicateLink n⟩ ∈ g.findings groups i ↔
      t = g.text ∧ link = it.link ∧ firstUse? (g.items.map (·.link)) it.link k = some n := by
  have hsome : g.items ≠ [] := by
    rintro hnil
    simp [hnil] at hit
  rw [findings, if_neg hsome, List.mem_append, List.mem_map, List.mem_flatMap]
  constructor
  · rintro (⟨first, -, heq⟩ | ⟨p, hp, hmem⟩)
    · cases heq
    · obtain ⟨hloc, hfirst⟩ := Item.mem_findings_duplicateLink.1 hmem
      cases hloc
      obtain rfl : it = p.1 := by simpa [hit] using List.mem_zipIdx_iff_getElem?.1 hp
      exact ⟨rfl, rfl, hfirst⟩
  · rintro ⟨rfl, rfl, hfirst⟩
    refine .inr ⟨(it, k), List.mem_zipIdx_iff_getElem?.2 hit, ?_⟩
    exact Item.mem_findings_duplicateLink.2 ⟨rfl, hfirst⟩

namespace Site
variable {s : Site}

theorem mem_validate_iff {i : Nat} {g : Group} (h : s.sidebar[i]? = some g) {issue : Issue}
    (hin : issue.location.isIn i = true) :
    issue ∈ s.validate.issues ↔ issue ∈ g.findings s.sidebar i := by
  rw [← filter_isIn h, List.mem_filter, and_iff_left hin]

theorem valid_of_errors_eq_nil (h : s.validate.errors = []) : s.Valid := by
  rw [← hasErrors_validate_iff, Report.hasErrors, List.any_eq_false]
  intro i hi
  simpa using List.filter_eq_nil_iff.1 h i hi

/-- A lookup under the text of a group, or under the link of an item, finds the first entry with it.
That is the one that a repeat is reported with, and the only entry with it if there are no errors. A
lookup under any other text finds nothing. -/
theorem lookup_agrees_with_validate (s : Site) :
    (∀ i g, s.sidebar[i]? = some g →
      (∃ j first, IsFirst (·.text) s.sidebar g.text j first ∧ s.group? g.text = some first ∧
        ∀ t n, ⟨.group i t, .duplicateGroupText n⟩ ∈ s.validate.issues ↔
          t = g.text ∧ j < i ∧ n = j) ∧
      ∀ k it, g.items[k]? = some it →
        ∃ l first, IsFirst (·.link) g.items it.link l first ∧ g.item? it.link = some first ∧
          ∀ t link n, ⟨.item i t k link, .duplicateLink n⟩ ∈ s.validate.issues ↔
            t = g.text ∧ link = it.link ∧ l < k ∧ n = l) ∧
    (s.validate.errors = [] → ∀ i g, s.sidebar[i]? = some g →
      IsFirst (·.text) s.sidebar g.text i g ∧ s.group? g.text = some g ∧
      ∀ k it, g.items[k]? = some it →
        IsFirst (·.link) g.items it.link k it ∧ g.item? it.link = some it) ∧
    (∀ text, s.group? text = none ↔ ∀ g ∈ s.sidebar, g.text ≠ text) ∧
    ∀ (g : Group) link, g.item? link = none ↔ ∀ it ∈ g.items, it.link ≠ link := by
  refine ⟨fun i g hg => ⟨?_, fun k it hit => ?_⟩, fun herrors i g hg => ?_, fun text => ?_,
    fun g link => ?_⟩
  · obtain ⟨j, first, hfirst⟩ := exists_isFirst (·.text) hg
    refine ⟨j, first, hfirst, hfirst.find?_eq, fun t n => ?_⟩
    have hin : (Location.group i t).isIn i = true := decide_eq_true rfl
    rw [mem_validate_iff hg hin, Group.mem_findings_duplicateGroupText,
      hfirst.firstUse?_eq_some_iff]
  · obtain ⟨l, first, hfirst⟩ := exists_isFirst (·.link) hit
    refine ⟨l, first, hfirst, hfirst.find?_eq, fun t link n => ?_⟩
    have hin : (Location.item i t k link).isIn i = true := decide_eq_true rfl
    rw [mem_validate_iff hg hin, Group.mem_findings_duplicateLink hit,
      hfirst.firstUse?_eq_some_iff]
  · have hvalid := valid_of_errors_eq_nil herrors
    have hfirst := isFirst_of_nodup hvalid.distinct hg
    refine ⟨hfirst, hfirst.find?_eq, fun k it hit => ?_⟩
    have hgroup := hvalid.groups g (List.mem_of_getElem? hg)
    have hitem := isFirst_of_nodup hgroup.distinct hit
    exact ⟨hitem, hitem.find?_eq⟩
  · simp [group?]
  · simp [Group.item?]

/-- Two groups have one heading, and the last two of three links are the same. Without the last group
and the last item there are no errors. -/
theorem lookup_agrees_with_validate_repeated :
    let g : Group := ⟨"g", none, [⟨"a", "/x"⟩, ⟨"b", "/y"⟩]⟩
    let h : Group := ⟨"g", none, [⟨"a", "/x"⟩, ⟨"b", "/y"⟩, ⟨"c", "/y"⟩]⟩
    let s : Site := ⟨"T", "D", "/b", [g]⟩
    let t : Site := ⟨"T", "D", "/b", [g, h]⟩
    s.sidebar[0]? = some g ∧ s.validate.errors = [] ∧ s.group? "g" = some g ∧
      t.sidebar[1]? = some h ∧ h.items[2]? = some ⟨"c", "/y"⟩ ∧ h.item? "/y" ≠ some ⟨"c", "/y"⟩ ∧
      ∃ l first, h.item? "/y" = some first ∧ l < 2 ∧
        ⟨.item 1 "g" 2 "/y", .duplicateLink l⟩ ∈ t.validate.issues := by
  intro g h s t
  have herrors : s.validate.errors = [] := by decide
  obtain ⟨-, hfound, -⟩ := (lookup_agrees_with_validate s).2.1 herrors 0 g rfl
  obtain ⟨-, hitems⟩ := (lookup_agrees_with_validate t).1 1 h rfl
  obtain ⟨l, first, hfirst, hitem, hreported⟩ := hitems 2 ⟨"c", "/y"⟩ rfl
  have hl : l = 1 := hfirst.idxOf_eq.symm.trans (by decide)
  refine ⟨rfl, herrors, hfound, rfl, rfl, by decide, l, first, hitem, by omega, ?_⟩
  exact (hreported "g" "/y" l).2 ⟨rfl, rfl, by omega, rfl⟩

end Site

end SiteNav
