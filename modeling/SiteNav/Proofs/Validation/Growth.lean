import SiteNav.Proofs.Validation.Order

/-!
# Validation of a site that grows

A site is built by putting groups behind the others and items behind those of the last group. What is
found at an entry depends on nothing behind it, so a longer site has the findings of the shorter one in
front. The exceptions are the warnings of an empty sidebar and of an empty group, which end with the
first entry. Main statement: an addition takes away no error and moves none, and all that is found
anew is found at the addition.
-/
namespace SiteNav

/-- The second report has the findings of the first in front, except for `lost` at their end, and then
`new`. -/
def Report.Grows (r r' : Report) (lost new : List Issue) : Prop :=
  ∃ kept, r.issues = kept ++ lost ∧ r'.issues = kept ++ new

section Grows
variable {r r' : Report} {lost new : List Issue}

theorem Report.Grows.issues_eq (h : r.Grows r' [] new) : r'.issues = r.issues ++ new := by
  obtain ⟨kept, hr, hr'⟩ := h
  rw [hr, hr', List.append_nil]

theorem Report.Grows.errors_eq (h : r.Grows r' lost new) (hlost : ∀ i ∈ lost, i.isError = false) :
    r'.errors = r.errors ++ new.filter (·.isError) := by
  obtain ⟨kept, hr, hr'⟩ := h
  have hnone : lost.filter (·.isError) = [] := by
    rw [List.filter_eq_nil_iff]
    intro i hi
    rw [hlost i hi]
    exact Bool.false_ne_true
  rw [Report.errors, Report.errors, hr, hr', List.filter_append, List.filter_append, hnone,
    List.append_nil]

end Grows

theorem isError_of_mem_ite {issue : Issue} (h : issue.isError = false) {c : Prop} [Decidable c] :
    ∀ i ∈ if c then [issue] else [], i.isError = false := by
  intro i hi
  split_ifs at hi
  · rwa [List.mem_singleton.1 hi]
  · cases hi

/-! ## Findings with more behind them -/

theorem Group.findings_append {groups : List Group} {g : Group} (hg : g ∈ groups)
    (more : List Group) (i : Nat) : g.findings (groups ++ more) i = g.findings groups i := by
  rw [findings, findings, List.map_append, firstUse?_append_of_mem (List.mem_map_of_mem hg)]

theorem Item.findings_addItem {g : Group} {it : Item} (hit : it ∈ g.items) (more : Item) (i k : Nat) :
    it.findings i (g.addItem more) k = it.findings i g k := by
  rw [findings, findings, Group.addItem, List.map_append,
    firstUse?_append_of_mem (List.mem_map_of_mem hit)]

theorem flatMap_findings_concat (groups : List Group) (g : Group) :
    ((groups ++ [g]).zipIdx.flatMap fun p => p.1.findings (groups ++ [g]) p.2) =
      (groups.zipIdx.flatMap fun p => p.1.findings groups p.2) ++
        g.findings (groups ++ [g]) groups.length := by
  apply flatMap_zipIdx_concat
  intro p hp
  exact Group.findings_append (List.fst_mem_of_mem_zipIdx hp) [g] p.2

theorem flatMap_findings_addItem (i : Nat) (g : Group) (it : Item) :
    ((g.addItem it).items.zipIdx.flatMap fun p => p.1.findings i (g.addItem it) p.2) =
      (g.items.zipIdx.flatMap fun p => p.1.findings i g p.2) ++
        it.findings i (g.addItem it) g.items.length := by
  apply flatMap_zipIdx_concat
  intro p hp
  exact Item.findings_addItem (List.fst_mem_of_mem_zipIdx hp) it i p.2

/-- What is found at a group and at its items, before and after one more item. -/
theorem Group.exists_findings_addItem (groups : List Group) (last : Group) (it : Item) :
    ∃ front, last.findings (groups ++ [last]) groups.length =
        front ++ (if last.items = [] then [⟨.group groups.length last.text, .emptyGroup⟩] else []) ∧
      (last.addItem it).findings (groups ++ [last.addItem it]) groups.length =
        front ++ it.findings groups.length (last.addItem it) last.items.length := by
  have htexts : (groups ++ [last.addItem it]).map (·.text) = (groups ++ [last]).map (·.text) := by
    rw [List.map_append, List.map_append]
    rfl
  have hsome : (last.addItem it).items ≠ [] := by simp [addItem]
  rw [findings, findings, htexts, if_neg hsome, flatMap_findings_addItem]
  by_cases hempty : last.items = []
  · refine ⟨_, by rw [if_pos hempty, if_pos hempty], ?_⟩
    rw [hempty, List.zipIdx_nil, List.flatMap_nil, List.nil_append]
    rfl
  · refine ⟨_, by rw [if_neg hempty, if_neg hempty, List.append_nil], ?_⟩
    rw [List.append_assoc]
    rfl

theorem Item.length_findings_le (i : Nat) (g : Group) (it : Item) (k : Nat) :
    (it.findings i g k).length ≤ 2 := by
  have hrepeat : (firstUse? (g.items.map (·.link)) it.link k).toList.length ≤ 1 :=
    Option.length_toList_le
  rw [findings, List.length_append, List.length_map]
  split_ifs <;> simp only [List.length_singleton, List.length_nil] <;> omega

theorem Item.isError_of_mem_findings {i k : Nat} {g : Group} {it : Item} {issue : Issue}
    (h : issue ∈ it.findings i g k) : issue.isError = true := by
  rw [findings, ← linkIssues_eq, List.mem_append] at h
  rcases h with h | h
  · exact isError_of_mem_linkIssues h
  · obtain ⟨first, -, rfl⟩ := List.mem_map.1 h
    rfl

/-! ## Sites -/

namespace Site
variable (s : Site)

def headIssues : List Issue :=
  titleIssues s.title ++ basePathIssues s.basePath

theorem issues_of_sidebar_ne_nil {s : Site} (h : s.sidebar ≠ []) :
    s.validate.issues =
      s.headIssues ++ s.sidebar.zipIdx.flatMap fun p => p.1.findings s.sidebar p.2 := by
  rw [validate, sidebarIssues_eq, if_neg h, headIssues]

theorem issues_of_sidebar_concat {s : Site} {groups : List Group} {g : Group}
    (h : s.sidebar = groups ++ [g]) :
    s.validate.issues = s.headIssues ++ (groups.zipIdx.flatMap fun p => p.1.findings groups p.2) ++
      g.findings (groups ++ [g]) groups.length := by
  have hne : s.sidebar ≠ [] := by simp [h]
  rw [issues_of_sidebar_ne_nil hne, h, flatMap_findings_concat, List.append_assoc]

/-- A group behind the others only ends the emptiness of the sidebar. -/
theorem grows_addGroup (g : Group) :
    s.validate.Grows (s.addGroup g).validate
      (if s.sidebar = [] then [⟨.sidebar, .emptySidebar⟩] else [])
      (g.findings (s.sidebar ++ [g]) s.sidebar.length) := by
  have hafter : (s.addGroup g).validate.issues =
      s.headIssues ++ (s.sidebar.zipIdx.flatMap fun p => p.1.findings s.sidebar p.2) ++
        g.findings (s.sidebar ++ [g]) s.sidebar.length := issues_of_sidebar_concat rfl
  refine ⟨_, ?_, hafter⟩
  by_cases hempty : s.sidebar = []
  · rw [if_pos hempty, validate, sidebarIssues_eq, if_pos hempty, hempty, List.zipIdx_nil,
      List.flatMap_nil, List.append_nil, headIssues]
  · rw [if_neg hempty, issues_of_sidebar_ne_nil hempty, List.append_nil]

/-- An item behind the others only ends the emptiness of its group. -/
theorem grows_addItem {groups : List Group} {last : Group} (h : s.sidebar = groups ++ [last])
    (it : Item) :
    s.validate.Grows { s with sidebar := groups ++ [last.addItem it] }.validate
      (if last.items = [] then [⟨.group groups.length last.text, .emptyGroup⟩] else [])
      (it.findings groups.length (last.addItem it) last.items.length) := by
  obtain ⟨front, hbefore, hafter⟩ := Group.exists_findings_addItem groups last it
  refine ⟨s.headIssues ++ (groups.zipIdx.flatMap fun p => p.1.findings groups p.2) ++ front, ?_, ?_⟩
  · rw [issues_of_sidebar_concat h, hbefore, List.append_assoc _ front]
  · rw [issues_of_sidebar_concat rfl, hafter, List.append_assoc _ front]
    rfl

/-- A group that is added leaves the errors as they are and has its findings behind them, and behind
everything that is found unless the sidebar was empty. So has an item that is added to the last group,
unless that group was empty; its findings are two at most. -/
theorem validate_grows :
    (∀ g, ∃ new, (s.addGroup g).validate.errors = s.validate.errors ++ new.filter (·.isError) ∧
      (s.sidebar ≠ [] → (s.addGroup g).validate.issues = s.validate.issues ++ new) ∧
      s.validate.Grows (s.addGroup g).validate
        (if s.sidebar = [] then [⟨.sidebar, .emptySidebar⟩] else []) new ∧
      ∀ i ∈ new, i.location.isIn s.sidebar.length = true) ∧
    ∀ groups last it, s.sidebar = groups ++ [last] →
      let t : Site := { s with sidebar := groups ++ [last.addItem it] }
      ∃ new, t.validate.errors = s.validate.errors ++ new ∧
        s.validate.Grows t.validate
          (if last.items = [] then [⟨.group groups.length last.text, .emptyGroup⟩] else []) new ∧
        new.length ≤ 2 ∧
        ∀ i ∈ new, i.location = .item groups.length last.text last.items.length it.link := by
  constructor
  · intro g
    have hgrows := s.grows_addGroup g
    refine ⟨_, hgrows.errors_eq (isError_of_mem_ite rfl), fun hsome => ?_, hgrows, fun i hi => ?_⟩
    · rw [if_neg hsome] at hgrows
      exact hgrows.issues_eq
    · rw [Group.isIn_of_mem_findings hi]
      exact decide_eq_true rfl
  · intro groups last it h t
    have hgrows := s.grows_addItem h it
    have herrors := hgrows.errors_eq (isError_of_mem_ite rfl)
    rw [List.filter_eq_self.2 fun i => Item.isError_of_mem_findings] at herrors
    exact ⟨_, herrors, hgrows, it.length_findings_le _ _ _, fun i => Item.location_of_mem_findings⟩

/-- The last group is empty and its heading a repeated one. Its first item has an empty link. -/
theorem validate_grows_empty_group :
    let g : Group := ⟨"g", none, [⟨"a", "/x"⟩, ⟨"b", "/x"⟩]⟩
    let s : Site := ⟨"T", "D", "/b", [g, ⟨"g", none, []⟩]⟩
    let t : Site := ⟨"T", "D", "/b", [g, ⟨"g", none, [⟨"c", ""⟩]⟩]⟩
    s.sidebar = [g] ++ [⟨"g", none, []⟩] ∧ s.validate.errors.length = 2 ∧
      t.validate.errors = s.validate.errors ++ [⟨.item 1 "g" 0 "", .emptyLink⟩] ∧
      ∃ new, t.validate.errors = s.validate.errors ++ new ∧ new.length ≤ 2 := by
  intro g s t
  have hlast : s.sidebar = [g] ++ [⟨"g", none, []⟩] := rfl
  obtain ⟨new, herrors, -, hlength, -⟩ := (validate_grows s).2 [g] ⟨"g", none, []⟩ ⟨"c", ""⟩ hlast
  exact ⟨hlast, by decide, by decide, new, herrors, hlength⟩

end Site

end SiteNav
