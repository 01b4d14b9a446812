import Mathlib.Data.List.Nodup
import SiteNav.Proofs.Loading

/-!
# Valid sites

A site is valid if its base path and its links start with a slash and neither two of its headings nor
two links of one group are the same. It is flawless if besides it has a title, its base path ends with
a slash and nothing in it is empty. Main statement: validation reports no error exactly for a valid
site and nothing at all exactly for a flawless one, and so every site that is loaded is valid.
-/
namespace SiteNav

structure Group.Valid (g : Group) : Prop where
  distinct : (g.items.map (·.link)).Nodup
  relative : ∀ it ∈ g.items, ['/'] <+: it.link.toList

structure Site.Valid (s : Site) : Prop where
  absolute : ['/'] <+: s.basePath.toList
  distinct : (s.sidebar.map (·.text)).Nodup
  groups : ∀ g ∈ s.sidebar, g.Valid

structure Site.Flawless (s : Site) : Prop extends s.Valid where
  closed : ['/'] <:+ s.basePath.toList
  titled : ∃ c ∈ s.title.toList, Text.isWhite c = false
  sidebar_ne_nil : s.sidebar ≠ []
  items_ne_nil : ∀ g ∈ s.sidebar, g.items ≠ []

theorem startsWithSlash_iff (t : String) : startsWithSlash t = true ↔ ['/'] <+: t.toList := by
  rw [startsWithSlash, beq_iff_eq]
  cases t.toList with
  | nil => simp
  | cons c cs => simp [eq_comm]

theorem endsWithSlash_iff (t : String) : endsWithSlash t = true ↔ ['/'] <:+ t.toList := by
  rw [endsWithSlash, beq_iff_eq, List.getLast?_eq_some_iff]
  constructor
  · rintro ⟨cs, h⟩
    exact ⟨cs, h.symm⟩
  · rintro ⟨cs, h⟩
    exact ⟨cs, h.symm⟩

theorem isEmpty_eq_false_of_startsWithSlash {t : String} (h : startsWithSlash t = true) :
    t.isEmpty = false := by
  by_contra hempty
  rw [Bool.not_eq_false, String.isEmpty_iff] at hempty
  subst hempty
  cases h

/-! ## Links and items -/

theorem linkIssues_eq_nil_iff (loc : Location) (link : String) :
    linkIssues loc link = [] ↔ startsWithSlash link = true := by
  rw [linkIssues]
  by_cases hslash : startsWithSlash link = true
  · simp [hslash, isEmpty_eq_false_of_startsWithSlash hslash]
  · cases link.isEmpty <;> simp [hslash]

theorem isError_of_mem_linkIssues {loc : Location} {link : String} {i : Issue}
    (h : i ∈ linkIssues loc link) : i.isError = true := by
  rw [linkIssues] at h
  split_ifs at h
  · obtain rfl := List.mem_singleton.1 h
    rfl
  · cases h
  · obtain rfl := List.mem_singleton.1 h
    rfl

section Tables
variable {α : Type} {seen : FirstUse} {key : α → String} {a : α} {as : List α}

/-- The keys are new to the table and to each other. -/
def Fresh (seen : FirstUse) (key : α → String) (as : List α) : Prop :=
  (as.map key).Nodup ∧ ∀ a ∈ as, seen.lookup (key a) = none

theorem fresh_empty : Fresh [] key as ↔ (as.map key).Nodup :=
  and_iff_left fun _ _ => rfl

theorem not_fresh_of_lookup {n : Nat} (h : seen.lookup (key a) = some n) : ¬Fresh seen key (a :: as) := by
  intro hfresh
  have hnone := hfresh.2 a List.mem_cons_self
  rw [h] at hnone
  cases hnone

theorem lookup_cons_eq_none {t text : String} {n : Nat} :
    List.lookup t ((text, n) :: seen) = none ↔ t ≠ text ∧ seen.lookup t = none := by
  rw [List.lookup_cons]
  by_cases h : t = text
  · simp [h]
  · simp [h, beq_eq_false_iff_ne.2 h]

/-- Whether a key is met in the table or further on, it is met twice. -/
theorem fresh_cons (n : Nat) (h : seen.lookup (key a) = none) :
    Fresh seen key (a :: as) ↔ Fresh ((key a, n) :: seen) key as := by
  simp only [Fresh, lookup_cons_eq_none, List.map_cons, List.nodup_cons, List.mem_map, not_exists,
    not_and, List.forall_mem_cons]
  constructor
  · rintro ⟨⟨hne, hnodup⟩, -, hnew⟩
    exact ⟨hnodup, fun x hx => ⟨hne x hx, hnew x hx⟩⟩
  · rintro ⟨hnodup, hnew⟩
    exact ⟨⟨fun x hx => (hnew x hx).1, hnodup⟩, h, fun x hx => (hnew x hx).2⟩

end Tables

/-- By induction on the items: the table grows by the links that are passed until it knows one. -/
theorem itemIssues_eq_nil_iff (gi : Nat) (text : String) (seen : FirstUse) (i : Nat)
    (items : List Item) : itemIssues gi text seen i items = [] ↔
      Fresh seen (·.link) items ∧ ∀ it ∈ items, startsWithSlash it.link = true := by
  induction items generalizing seen i with
  | nil => simp [itemIssues, Fresh]
  | cons it items ih =>
    rw [itemIssues]
    cases hit : seen.lookup it.link with
    | some first =>
      have hknown : ¬Fresh seen (·.link) (it :: items) := not_fresh_of_lookup hit
      simp [hknown]
    | none =>
      rw [List.append_eq_nil_iff, linkIssues_eq_nil_iff, ih, ← fresh_cons i hit, List.forall_mem_cons]
      exact and_left_comm

theorem isError_of_mem_itemIssues {gi i : Nat} {text : String} {seen : FirstUse} {items : List Item}
    {issue : Issue} (h : issue ∈ itemIssues gi text seen i items) : issue.isError = true := by
  induction items generalizing seen i with
  | nil => cases h
  | cons it items ih =>
    rw [itemIssues] at h
    cases hit : seen.lookup it.link with
    | some first =>
      simp only [hit, List.mem_append, List.mem_cons] at h
      rcases h with h | rfl | h
      · exact isError_of_mem_linkIssues h
      · rfl
      · exact ih h
    | none =>
      simp only [hit, List.mem_append] at h
      rcases h with h | h
      · exact isError_of_mem_linkIssues h
      · exact ih h

/-! ## Groups -/

theorem Group.valid_iff (g : Group) (gi : Nat) : g.Valid ↔ itemIssues gi g.text [] 0 g.items = [] := by
  rw [itemIssues_eq_nil_iff, fresh_empty]
  constructor
  · intro h
    exact ⟨h.distinct, fun it hit => (startsWithSlash_iff it.link).2 (h.relative it hit)⟩
  · rintro ⟨hdistinct, hslash⟩
    exact ⟨hdistinct, fun it hit => (startsWithSlash_iff it.link).1 (hslash it hit)⟩

/-- A group without items is valid, and its emptiness is no error. -/
theorem forall_groupBodyIssues_iff_valid (gi : Nat) (g : Group) :
    (∀ i ∈ groupBodyIssues gi g, i.isError = false) ↔ g.Valid := by
  rw [g.valid_iff gi, groupBodyIssues]
  cases hitems : g.items with
  | nil => simp [itemIssues, Issue.isError, Issue.severity, Rule.severity]
  | cons it items =>
    simp only [List.isEmpty_cons, Bool.false_eq_true, if_false, List.eq_nil_iff_forall_not_mem]
    refine forall₂_congr fun i hi => ?_
    simp [isError_of_mem_itemIssues hi]

theorem groupBodyIssues_eq_nil_iff (gi : Nat) (g : Group) :
    groupBodyIssues gi g = [] ↔ g.Valid ∧ g.items ≠ [] := by
  rw [g.valid_iff gi, groupBodyIssues]
  cases hitems : g.items with
  | nil => simp
  | cons it items => simp

/-- What is tolerated of all groups is tolerated of each, if no repeated heading is. By induction on
the groups, with the table as for items. -/
theorem forall_groupIssues_iff (tolerated : Issue → Prop) (fine : Group → Prop)
    (hrepeated : ∀ loc first, ¬tolerated ⟨loc, .duplicateGroupText first⟩)
    (hbody : ∀ gi g, (∀ i ∈ groupBodyIssues gi g, tolerated i) ↔ fine g)
    (seen : FirstUse) (gi : Nat) (groups : List Group) :
    (∀ i ∈ groupIssues seen gi groups, tolerated i) ↔
      Fresh seen (·.text) groups ∧ ∀ g ∈ groups, fine g := by
  induction groups generalizing seen gi with
  | nil => simp [groupIssues, Fresh]
  | cons g groups ih =>
    rw [groupIssues]
    cases hg : seen.lookup g.text with
    | some first =>
      have hknown : ¬Fresh seen (·.text) (g :: groups) := not_fresh_of_lookup hg
      simp [hknown, hrepeated]
    | none =>
      rw [List.forall_mem_append, hbody, ih, ← fresh_cons gi hg, List.forall_mem_cons]
      exact and_left_comm

/-! ## Sites -/

theorem forall_sidebarIssues_iff_valid (groups : List Group) :
    (∀ i ∈ sidebarIssues groups, i.isError = false) ↔
      (groups.map (·.text)).Nodup ∧ ∀ g ∈ groups, g.Valid := by
  rw [sidebarIssues]
  cases groups with
  | nil => simp [Issue.isError, Issue.severity, Rule.severity]
  | cons g groups =>
    rw [List.isEmpty_cons, if_neg Bool.false_ne_true, ← fresh_empty]
    exact forall_groupIssues_iff (·.isError = false) Group.Valid
      (by simp [Issue.isError, Issue.severity, Rule.severity])
      forall_groupBodyIssues_iff_valid [] 0 (g :: groups)

theorem sidebarIssues_eq_nil_iff (groups : List Group) : sidebarIssues groups = [] ↔
    ((groups.map (·.text)).Nodup ∧ ∀ g ∈ groups, g.Valid) ∧
      groups ≠ [] ∧ ∀ g ∈ groups, g.items ≠ [] := by
  rw [sidebarIssues]
  cases groups with
  | nil => simp
  | cons g groups =>
    have h := forall_groupIssues_iff (fun _ => False) (fun g => g.Valid ∧ g.items ≠ []) (fun _ _ => id)
      (fun gi g => by rw [← groupBodyIssues_eq_nil_iff gi g, List.eq_nil_iff_forall_not_mem])
      [] 0 (g :: groups)
    rw [List.isEmpty_cons, if_neg Bool.false_ne_true, List.eq_nil_iff_forall_not_mem, ← fresh_empty]
    refine h.trans ?_
    simp only [forall₂_and, ne_eq, reduceCtorEq, not_false_eq_true, true_and, and_assoc]

theorem forall_basePathIssues_iff (path : String) :
    (∀ i ∈ basePathIssues path, i.isError = false) ↔ startsWithSlash path = true := by
  rw [basePathIssues]
  by_cases hslash : startsWithSlash path = true
  · cases hend : endsWithSlash path <;>
      simp [hslash, isEmpty_eq_false_of_startsWithSlash hslash, Issue.isError, Issue.severity,
        Rule.severity]
  · cases path.isEmpty <;> simp [hslash, Issue.isError, Issue.severity, Rule.severity]

theorem basePathIssues_eq_nil_iff (path : String) :
    basePathIssues path = [] ↔ startsWithSlash path = true ∧ endsWithSlash path = true := by
  rw [basePathIssues]
  by_cases hslash : startsWithSlash path = true
  · cases hend : endsWithSlash path <;>
      simp [hslash, isEmpty_eq_false_of_startsWithSlash hslash]
  · cases path.isEmpty <;> simp [hslash]

theorem titleIssues_eq_nil_iff (title : String) :
    titleIssues title = [] ↔ ∃ c ∈ title.toList, Text.isWhite c = false := by
  rw [titleIssues, Text.isBlank]
  cases hblank : title.toList.all Text.isWhite with
  | true => simpa using hblank
  | false => simpa using hblank

theorem isError_of_mem_titleIssues {title : String} {i : Issue} (h : i ∈ titleIssues title) :
    i.isError = false := by
  rw [titleIssues] at h
  split_ifs at h
  · obtain rfl := List.mem_singleton.1 h
    rfl
  · cases h

namespace Site
variable (s : Site)

theorem hasErrors_validate_iff : s.validate.hasErrors = false ↔ s.Valid := by
  rw [Report.hasErrors, List.any_eq_false]
  simp only [Bool.not_eq_true]
  rw [validate, List.forall_mem_append, List.forall_mem_append, forall_basePathIssues_iff,
    forall_sidebarIssues_iff_valid, startsWithSlash_iff]
  constructor
  · rintro ⟨⟨-, habsolute⟩, hdistinct, hgroups⟩
    exact ⟨habsolute, hdistinct, hgroups⟩
  · intro h
    exact ⟨⟨fun i hi => isError_of_mem_titleIssues hi, h.absolute⟩, h.distinct, h.groups⟩

theorem passes_validate_iff : s.validate.passes true = true ↔ s.Flawless := by
  rw [Report.passes, if_pos rfl, List.isEmpty_iff, validate, List.append_eq_nil_iff,
    List.append_eq_nil_iff, titleIssues_eq_nil_iff, basePathIssues_eq_nil_iff,
    sidebarIssues_eq_nil_iff, startsWithSlash_iff, endsWithSlash_iff]
  constructor
  · rintro ⟨⟨htitled, habsolute, hclosed⟩, ⟨hdistinct, hgroups⟩, hsidebar, hitems⟩
    exact ⟨⟨habsolute, hdistinct, hgroups⟩, hclosed, htitled, hsidebar, hitems⟩
  · intro h
    exact ⟨⟨h.titled, h.absolute, h.closed⟩, ⟨h.distinct, h.groups⟩, h.sidebar_ne_nil, h.items_ne_nil⟩

/-- Validation reports no error exactly for a valid site and nothing exactly for a flawless one. What
is loaded is valid. -/
theorem validate_decides_validity :
    ((∀ i ∈ s.validate.issues, i.severity ≠ .error) ↔ s.Valid) ∧
    (s.validate.passes true = true ↔ s.Flawless) ∧
    ∀ (w : Workspace) (path basePath : Option String),
      (w.load path basePath).outcome = .ok s → s.Valid := by
  refine ⟨?_, s.passes_validate_iff, fun w path basePath h => ?_⟩
  · rw [← s.hasErrors_validate_iff, Report.hasErrors_eq_false_iff]
  · exact s.hasErrors_validate_iff.1 (Workspace.hasErrors_of_load h)

/-- The file's own base path is no absolute one, and its override lacks the slash at the end. -/
theorem validate_decides_validity_overridden :
    let text := "title: T\ndescription: D\nbase: b\nsidebar:\n- text: g\n  items: [{text: t, link: /a}]\n"
    let w : Workspace := ⟨⟨fun _ => .file text.toUTF8⟩, "/d"⟩
    let s : Site := ⟨"T", "D", "/b", [⟨"g", none, [⟨"t", "/a"⟩]⟩]⟩
    (w.load (some "nav.yml") (some "/b")).outcome = .ok s ∧ s.Valid ∧ ¬s.Flawless := by
  intro text w s
  have hload : (w.load (some "nav.yml") (some "/b")).outcome = .ok s :=
    eq_ok_of_toOption (by decide +kernel)
  refine ⟨hload, (validate_decides_validity s).2.2 w _ _ hload, fun h => ?_⟩
  exact absurd ((validate_decides_validity s).2.1.2 h) (by decide)

end Site

end SiteNav
