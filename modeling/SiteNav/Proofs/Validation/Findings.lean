import SiteNav.Proofs.Validation.Validity

/-!
# What validation finds

Every entry of a site has findings of its own. Those of a heading or link name its first use, if that
comes earlier: the first position of the same text among all headings, or among the links of the
group. Nothing else is looked at, so repeats are compared whether or not an entry has other findings,
and never with entries of another group. Main statement: validation reports the findings of all
entries in the order they are written.
-/
namespace SiteNav

/-- The first position of a text, if it comes before `k`. -/
def firstUse? (texts : List String) (text : String) (k : Nat) : Option Nat :=
  if texts.idxOf text < k then some (texts.idxOf text) else none

def Item.findings (groupIndex : Nat) (g : Group) (it : Item) (k : Nat) : List Issue :=
  let loc := Location.item groupIndex g.text k it.link
  (if it.link = "" then [⟨loc, .emptyLink⟩]
    else if ['/'] <+: it.link.toList then [] else [⟨loc, .linkNotRelative⟩]) ++
  (firstUse? (g.items.map (·.link)) it.link k).toList.map fun first => ⟨loc, .duplicateLink first⟩

def Group.findings (groups : List Group) (g : Group) (i : Nat) : List Issue :=
  ((firstUse? (groups.map (·.text)) g.text i).toList.map fun first =>
    ⟨.group i g.text, .duplicateGroupText first⟩) ++
  if g.items = [] then [⟨.group i g.text, .emptyGroup⟩]
  else g.items.zipIdx.flatMap fun p => p.1.findings i g p.2

def Site.findings (s : Site) : List Issue :=
  (if s.title.toList.all Text.isWhite then [⟨.title, .emptyTitle⟩] else []) ++
  (if s.basePath = "" then [⟨.basePath, .emptyBasePath⟩]
    else (if ['/'] <+: s.basePath.toList then [] else [⟨.basePath, .basePathNotAbsolute⟩]) ++
      if ['/'] <:+ s.basePath.toList then [] else [⟨.basePath, .basePathWithoutTrailingSlash⟩]) ++
  if s.sidebar = [] then [⟨.sidebar, .emptySidebar⟩]
  else s.sidebar.zipIdx.flatMap fun p => p.1.findings s.sidebar p.2

/-! ## The table of first uses -/

section FirstUse
variable {texts : List String} {t : String}

theorem firstUse?_append_of_mem (ht : t ∈ texts) (more : List String) (k : Nat) :
    firstUse? (texts ++ more) t k = firstUse? texts t k := by
  rw [firstUse?, firstUse?, List.idxOf_append_of_mem ht]

theorem firstUse?_length (texts rest : List String) (t : String) :
    firstUse? (texts ++ t :: rest) t texts.length =
      if t ∈ texts then some (texts.idxOf t) else none := by
  rw [firstUse?]
  by_cases ht : t ∈ texts
  · rw [if_pos ht, List.idxOf_append_of_mem ht, if_pos (List.idxOf_lt_length_iff.2 ht)]
  · rw [if_neg ht, List.idxOf_append_of_notMem ht, if_neg (by simp)]

end FirstUse

/-- The table knows the texts that were passed, each by its first position. -/
def Records (seen : FirstUse) (passed : List String) : Prop :=
  ∀ t, seen.lookup t = if t ∈ passed then some (passed.idxOf t) else none

section Records
variable {seen : FirstUse} {passed : List String} {t : String}

theorem records_nil : Records [] [] := fun _ => rfl

theorem Records.pass_known (h : Records seen passed) {first : Nat} (ht : seen.lookup t = some first) :
    Records seen (passed ++ [t]) := by
  have hmem : t ∈ passed := by
    by_contra hnot
    rw [h, if_neg hnot] at ht
    cases ht
  intro u
  rw [h u]
  by_cases hu : u ∈ passed
  · rw [if_pos hu, if_pos (List.mem_append_left _ hu), List.idxOf_append_of_mem hu]
  · have hne : u ≠ t := fun he => hu (he ▸ hmem)
    rw [if_neg hu, if_neg (by simp [hu, hne])]

theorem Records.pass_new (h : Records seen passed) (ht : seen.lookup t = none) :
    Records ((t, passed.length) :: seen) (passed ++ [t]) := by
  have hnot : t ∉ passed := by
    intro hmem
    rw [h, if_pos hmem] at ht
    cases ht
  intro u
  rw [List.lookup_cons]
  by_cases hu : u = t
  · subst hu
    simp [hnot, List.idxOf_append_of_notMem]
  · rw [beq_eq_false_iff_ne.2 hu]
    simp only [h u, List.mem_append, List.mem_singleton, hu, or_false]
    split
    · next hmem => rw [List.idxOf_append_of_mem hmem]
    · rfl

theorem Records.lookup_eq (h : Records seen passed) (rest : List String) :
    seen.lookup t = firstUse? (passed ++ t :: rest) t passed.length := by
  rw [h, firstUse?_length]

end Records

/-! ## Items and groups -/

theorem linkIssues_eq (loc : Location) (link : String) : linkIssues loc link =
    if link = "" then [⟨loc, .emptyLink⟩]
    else if ['/'] <+: link.toList then [] else [⟨loc, .linkNotRelative⟩] := by
  simp only [linkIssues, String.isEmpty_iff, startsWithSlash_iff]

/-- By induction on the items that are left: the table records the links of those that were passed. -/
theorem itemIssues_eq (gi : Nat) (g : Group) {seen : FirstUse} {passed rest : List Item}
    (hitems : g.items = passed ++ rest) (h : Records seen (passed.map (·.link))) :
    itemIssues gi g.text seen passed.length rest =
      (rest.zipIdx passed.length).flatMap fun p => p.1.findings gi g p.2 := by
  induction rest generalizing seen passed with
  | nil => rfl
  | cons it rest ih =>
    have hfirst : seen.lookup it.link = firstUse? (g.items.map (·.link)) it.link passed.length := by
      rw [hitems, List.map_append, List.map_cons, h.lookup_eq, List.length_map]
    have hnext : g.items = (passed ++ [it]) ++ rest := by rw [hitems, List.append_cons]
    have hlength : (passed ++ [it]).length = passed.length + 1 := List.length_append
    rw [itemIssues, List.zipIdx_cons, List.flatMap_cons, Item.findings, ← hfirst, ← linkIssues_eq,
      ← hlength]
    cases hseen : seen.lookup it.link with
    | some first =>
      rw [ih hnext (by simpa using h.pass_known hseen)]
      simp
    | none =>
      have hnew : Records ((it.link, passed.length) :: seen) ((passed ++ [it]).map (·.link)) := by
        simpa using h.pass_new hseen
      rw [ih hnext hnew]
      simp

theorem groupBodyIssues_eq (i : Nat) (g : Group) : groupBodyIssues i g =
    if g.items = [] then [⟨.group i g.text, .emptyGroup⟩]
    else g.items.zipIdx.flatMap fun p => p.1.findings i g p.2 := by
  have hitems : g.items = [] ++ g.items := rfl
  have hall : itemIssues i g.text [] 0 g.items =
      g.items.zipIdx.flatMap fun p => p.1.findings i g p.2 := itemIssues_eq i g hitems records_nil
  simp only [groupBodyIssues, List.isEmpty_iff, hall]

/-- By induction on the groups that are left, with the table as for items. -/
theorem groupIssues_eq {groups : List Group} {seen : FirstUse} {passed rest : List Group}
    (hgroups : groups = passed ++ rest) (h : Records seen (passed.map (·.text))) :
    groupIssues seen passed.length rest =
      (rest.zipIdx passed.length).flatMap fun p => p.1.findings groups p.2 := by
  induction rest generalizing seen passed with
  | nil => rfl
  | cons g rest ih =>
    have hfirst : seen.lookup g.text = firstUse? (groups.map (·.text)) g.text passed.length := by
      rw [hgroups, List.map_append, List.map_cons, h.lookup_eq, List.length_map]
    have hnext : groups = (passed ++ [g]) ++ rest := by rw [hgroups, List.append_cons]
    have hlength : (passed ++ [g]).length = passed.length + 1 := List.length_append
    rw [groupIssues, List.zipIdx_cons, List.flatMap_cons, Group.findings, ← hfirst,
      ← groupBodyIssues_eq, ← hlength]
    cases hseen : seen.lookup g.text with
    | some first =>
      rw [ih hnext (by simpa using h.pass_known hseen)]
      simp
    | none =>
      have hnew : Records ((g.text, passed.length) :: seen) ((passed ++ [g]).map (·.text)) := by
        simpa using h.pass_new hseen
      rw [ih hnext hnew]
      simp

/-! ## Sites -/

theorem basePathIssues_eq (path : String) : basePathIssues path =
    if path = "" then [⟨.basePath, .emptyBasePath⟩]
    else (if ['/'] <+: path.toList then [] else [⟨.basePath, .basePathNotAbsolute⟩]) ++
      if ['/'] <:+ path.toList then [] else [⟨.basePath, .basePathWithoutTrailingSlash⟩] := by
  simp only [basePathIssues, String.isEmpty_iff, startsWithSlash_iff, endsWithSlash_iff]

theorem sidebarIssues_eq (groups : List Group) : sidebarIssues groups =
    if groups = [] then [⟨.sidebar, .emptySidebar⟩]
    else groups.zipIdx.flatMap fun p => p.1.findings groups p.2 := by
  have hgroups : groups = [] ++ groups := rfl
  have hall : groupIssues [] 0 groups =
      groups.zipIdx.flatMap fun p => p.1.findings groups p.2 := groupIssues_eq hgroups records_nil
  simp only [sidebarIssues, List.isEmpty_iff, hall]

/-- Validation reports the findings of the title, of the base path, of each group and of each item, in
this order. A finding is a warning or an error by its rule alone. -/
theorem Site.issues_validate_eq_findings (s : Site) :
    s.validate.issues = s.findings ∧
    ∀ i : Issue, i.severity = if i.rule = .basePathWithoutTrailingSlash ∨ i.rule = .emptyTitle ∨
      i.rule = .emptySidebar ∨ i.rule = .emptyGroup then .warning else .error := by
  constructor
  · rw [validate, findings, basePathIssues_eq, sidebarIssues_eq]
    rfl
  · rintro ⟨loc, rule⟩
    cases rule <;> rfl

/-- An empty group lends its heading to the comparison, and an empty link is compared too. -/
example : Site.findings ⟨"T", "D", "/b/", [⟨"g", none, []⟩, ⟨"g", none, [⟨"a", ""⟩, ⟨"b", ""⟩]⟩]⟩ =
    [⟨.group 0 "g", .emptyGroup⟩, ⟨.group 1 "g", .duplicateGroupText 0⟩,
      ⟨.item 1 "g" 0 "", .emptyLink⟩, ⟨.item 1 "g" 1 "", .emptyLink⟩,
      ⟨.item 1 "g" 1 "", .duplicateLink 0⟩] := by decide

end SiteNav
