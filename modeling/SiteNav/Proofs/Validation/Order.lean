import Mathlib.Data.Finset.Card
import SiteNav.Proofs.Validation.Findings
import SiteNav.Proofs.Validation.ReportText

/-!
# Validation and the order of entries

Which of two entries with the same text is blamed depends on their order, but not how many are: as
many as there are texts more than different texts. What else is found at an entry is found wherever it
stands. Main statement: a site with its groups, and the items of each, in another order has findings
of the same rules, and so the same tallies and verdicts.
-/
namespace SiteNav

/-- The same group with its items in another order. -/
structure Group.Reordered (g h : Group) : Prop where
  text : g.text = h.text
  collapsible : g.collapsible = h.collapsible
  items : g.items.Perm h.items

/-- The same site with its groups, and the items of each, in another order. -/
structure Site.Reordered (s t : Site) : Prop where
  title : s.title = t.title
  description : s.description = t.description
  basePath : s.basePath = t.basePath
  sidebar : ∃ groups, s.sidebar.Perm groups ∧ List.Forall₂ Group.Reordered groups t.sidebar

/-- How many texts there are more than different texts. -/
def surplus (texts : List String) : Nat :=
  texts.length - texts.toFinset.card

/-- The rules of the findings of a report, without the positions they name. -/
def Report.variants (r : Report) : List Rule :=
  r.issues.map (·.rule.variant)

/-- The place is a group or an item of it. -/
def Location.isIn (i : Nat) : Location → Bool
  | .group j _ | .item j _ _ _ => j = i
  | _ => false

/-! ## Counting repeats -/

theorem surplus_concat (texts : List String) (t : String) :
    surplus (texts ++ [t]) = surplus texts + if t ∈ texts then 1 else 0 := by
  have hle := texts.toFinset_card_le
  rw [surplus, surplus, List.toFinset_append, List.length_append]
  by_cases ht : t ∈ texts
  · rw [if_pos ht, List.toFinset_cons, List.toFinset_nil, LawfulSingleton.insert_empty_eq,
      Finset.union_eq_left.2 (by simpa using ht), List.length_singleton]
    omega
  · rw [if_neg ht, List.toFinset_cons, List.toFinset_nil, LawfulSingleton.insert_empty_eq,
      Finset.card_union_of_disjoint (by simpa using ht), List.length_singleton, Finset.card_singleton]
    omega

theorem surplus_perm {texts texts' : List String} (h : texts.Perm texts') :
    surplus texts = surplus texts' := by
  rw [surplus, surplus, h.length_eq, List.toFinset_eq_of_perm _ _ h]

/-- What an entry at the end adds, if it changes nothing for those before it. -/
theorem flatMap_zipIdx_concat {α β : Type} {as : List α} {f f' : α × Nat → List β}
    (h : ∀ p ∈ as.zipIdx, f' p = f p) (a : α) :
    (as ++ [a]).zipIdx.flatMap f' = as.zipIdx.flatMap f ++ f' (a, as.length) := by
  rw [List.zipIdx_append, List.flatMap_append, List.flatMap_congr h, List.zipIdx_singleton,
    List.flatMap_singleton, Nat.zero_add]

section Level
variable {α β : Type} (key : α → String)

/-- By induction from the end: an entry at the end changes nothing for those before it. -/
theorem length_repeats (as : List α) (c : β) :
    (as.zipIdx.flatMap fun p => (firstUse? (as.map key) (key p.1) p.2).toList.map fun _ => c).length =
      surplus (as.map key) := by
  induction as using List.reverseRecOn with
  | nil => rfl
  | append_singleton as a ih =>
    have hbefore : ∀ p ∈ as.zipIdx,
        (firstUse? ((as ++ [a]).map key) (key p.1) p.2).toList.map (fun _ => c) =
          (firstUse? (as.map key) (key p.1) p.2).toList.map fun _ => c := by
      intro p hp
      rw [List.map_append,
        firstUse?_append_of_mem (List.mem_map_of_mem (List.fst_mem_of_mem_zipIdx hp))]
    have hlast : firstUse? ((as ++ [a]).map key) (key a) as.length =
        if key a ∈ as.map key then some ((as.map key).idxOf (key a)) else none := by
      rw [← firstUse?_length _ [], List.map_append, List.length_map]
      rfl
    rw [flatMap_zipIdx_concat hbefore, List.length_append, ih, hlast, List.map_append,
      List.map_singleton, surplus_concat]
    split_ifs <;> rfl

/-- The rules that the entries of a level break: what each breaks by itself, and once for each
repeated text the rule against repeats. -/
theorem variants_level {own : α → List Rule} {rule : Rule} {as : List α} {f : α × Nat → List Issue}
    (hf : ∀ p, ((f p).map (·.rule.variant)).Perm
      (own p.1 ++ (firstUse? (as.map key) (key p.1) p.2).toList.map fun _ => rule)) :
    ((as.zipIdx.flatMap f).map (·.rule.variant)).Perm
      (as.flatMap own ++ List.replicate (surplus (as.map key)) rule) := by
  have hown : (as.zipIdx.flatMap fun p => own p.1) = as.flatMap own := by
    rw [← List.flatMap_map, List.zipIdx_map_fst]
  have hrepeats : (as.zipIdx.flatMap fun p =>
      (firstUse? (as.map key) (key p.1) p.2).toList.map fun _ => rule) =
      List.replicate (surplus (as.map key)) rule := by
    refine List.eq_replicate_iff.2 ⟨length_repeats key as rule, fun r hr => ?_⟩
    obtain ⟨p, -, hp⟩ := List.mem_flatMap.1 hr
    obtain ⟨-, -, rfl⟩ := List.mem_map.1 hp
    rfl
  rw [List.map_flatMap, ← hown, ← hrepeats]
  exact (List.Perm.flatMap_left _ fun p _ => hf p).trans (List.flatMap_append_perm _ _ _).symm

end Level

/-! ## Rules without places -/

/-- The rules that a link breaks by itself. -/
def Item.rules (it : Item) : List Rule :=
  if it.link = "" then [.emptyLink] else if ['/'] <+: it.link.toList then [] else [.linkNotRelative]

/-- The rules that a group breaks by itself and with its items. -/
def Group.rules (g : Group) : List Rule :=
  if g.items = [] then [.emptyGroup]
  else g.items.flatMap Item.rules ++
    List.replicate (surplus (g.items.map (·.link))) (.duplicateLink 0)

def Site.rules (s : Site) : List Rule :=
  (titleIssues s.title ++ basePathIssues s.basePath).map (·.rule.variant) ++
  if s.sidebar = [] then [.emptySidebar]
  else s.sidebar.flatMap Group.rules ++
    List.replicate (surplus (s.sidebar.map (·.text))) (.duplicateGroupText 0)

theorem variants_item (i : Nat) (g : Group) (it : Item) (k : Nat) :
    (it.findings i g k).map (·.rule.variant) = it.rules ++
      (firstUse? (g.items.map (·.link)) it.link k).toList.map fun _ => Rule.duplicateLink 0 := by
  rw [Item.findings, List.map_append, List.map_map]
  congr 1
  rw [Item.rules]
  split_ifs <;> rfl

theorem variants_groupBodyIssues (i : Nat) (g : Group) :
    ((groupBodyIssues i g).map (·.rule.variant)).Perm g.rules := by
  rw [groupBodyIssues_eq, Group.rules]
  split_ifs
  · exact .refl _
  · exact variants_level (·.link) fun p => .of_eq (variants_item i g p.1 p.2)

theorem variants_group (groups : List Group) (g : Group) (i : Nat) :
    ((g.findings groups i).map (·.rule.variant)).Perm (g.rules ++
      (firstUse? (groups.map (·.text)) g.text i).toList.map fun _ => Rule.duplicateGroupText 0) := by
  rw [Group.findings, ← groupBodyIssues_eq, List.map_append, List.map_map]
  exact List.perm_append_comm.trans ((variants_groupBodyIssues i g).append (.refl _))

theorem Site.variants_validate (s : Site) : s.validate.variants.Perm s.rules := by
  rw [Report.variants, validate, List.map_append, rules, sidebarIssues_eq]
  refine .append (.refl _) ?_
  split_ifs
  · exact .refl _
  · exact variants_level (·.text) fun p => variants_group s.sidebar p.1 p.2

/-! ## Other orders -/

theorem Group.Reordered.rules {g h : Group} (hgh : g.Reordered h) : g.rules.Perm h.rules := by
  have hempty : g.items = [] ↔ h.items = [] := by
    rw [← List.length_eq_zero_iff, hgh.items.length_eq, List.length_eq_zero_iff]
  rw [Group.rules, Group.rules, surplus_perm (hgh.items.map _)]
  simp only [hempty]
  split_ifs
  · exact .refl _
  · exact (hgh.items.flatMap_right _).append (.refl _)

theorem flatMap_rules_of_reordered {groups groups' : List Group}
    (h : List.Forall₂ Group.Reordered groups groups') :
    (groups.flatMap Group.rules).Perm (groups'.flatMap Group.rules) := by
  induction h with
  | nil => exact .refl _
  | cons hgh _ ih => exact hgh.rules.append ih

theorem map_text_of_reordered {groups groups' : List Group}
    (h : List.Forall₂ Group.Reordered groups groups') :
    groups.map (·.text) = groups'.map (·.text) := by
  induction h with
  | nil => rfl
  | cons hgh _ ih => rw [List.map_cons, List.map_cons, hgh.text, ih]

theorem Site.Reordered.rules {s t : Site} (h : s.Reordered t) : s.rules.Perm t.rules := by
  obtain ⟨groups, hperm, hgroups⟩ := h.sidebar
  have hempty : s.sidebar = [] ↔ t.sidebar = [] := by
    rw [← List.length_eq_zero_iff, hperm.length_eq, hgroups.length_eq, List.length_eq_zero_iff]
  rw [Site.rules, Site.rules, h.title, h.basePath, surplus_perm (hperm.map _),
    map_text_of_reordered hgroups]
  simp only [hempty]
  refine .append (.refl _) ?_
  split_ifs
  · exact .refl _
  · exact ((hperm.flatMap_right _).trans (flatMap_rules_of_reordered hgroups)).append (.refl _)

/-! ## Tallies and verdicts -/

theorem Issue.isError_eq (i : Issue) : i.isError = decide (i.rule.variant.severity = .error) := by
  obtain ⟨loc, rule⟩ := i
  cases rule <;> rfl

namespace Report
variable {r s : Report}

theorem length_errors (r : Report) :
    r.errors.length = r.variants.countP (·.severity = .error) := by
  rw [errors, variants, List.countP_map, ← List.countP_eq_length_filter]
  exact List.countP_congr fun i _ => by rw [i.isError_eq, Function.comp_apply]

theorem length_warnings (r : Report) :
    r.warnings.length = r.variants.countP fun rule => !decide (rule.severity = .error) := by
  rw [warnings, variants, List.countP_map, ← List.countP_eq_length_filter]
  exact List.countP_congr fun i _ => by rw [i.isError_eq, Function.comp_apply]

theorem passes_eq (r : Report) (strict : Bool) : r.passes strict =
    if strict then r.variants.isEmpty else !r.variants.any (·.severity = .error) := by
  simp only [passes, hasErrors, variants, List.isEmpty_map, List.any_map, Function.comp_def,
    Issue.isError_eq]

end Report

/-! ## The findings of one group -/

theorem Item.location_of_mem_findings {i k : Nat} {g : Group} {it : Item} {issue : Issue}
    (h : issue ∈ it.findings i g k) : issue.location = .item i g.text k it.link := by
  rw [findings, List.mem_append] at h
  rcases h with h | h
  · split_ifs at h
    · rw [List.mem_singleton.1 h]
    · cases h
    · rw [List.mem_singleton.1 h]
  · obtain ⟨first, -, rfl⟩ := List.mem_map.1 h
    rfl

theorem Group.isIn_of_mem_findings {groups : List Group} {g : Group} {j : Nat} {issue : Issue}
    (h : issue ∈ g.findings groups j) (i : Nat) : issue.location.isIn i = decide (j = i) := by
  rw [findings, List.mem_append] at h
  rcases h with h | h
  · obtain ⟨first, -, rfl⟩ := List.mem_map.1 h
    rfl
  · split_ifs at h
    · rw [List.mem_singleton.1 h]
      rfl
    · obtain ⟨p, -, hp⟩ := List.mem_flatMap.1 h
      rw [Item.location_of_mem_findings hp]
      rfl

theorem isIn_of_mem_titleIssues {title : String} {issue : Issue} (h : issue ∈ titleIssues title)
    (i : Nat) : issue.location.isIn i = false := by
  rw [titleIssues] at h
  split_ifs at h
  · rw [List.mem_singleton.1 h]
    rfl
  · cases h

theorem location_of_mem_basePathIssues {path : String} {issue : Issue}
    (h : issue ∈ basePathIssues path) : issue.location = .basePath := by
  rw [basePathIssues] at h
  split_ifs at h <;> grind

theorem isIn_of_mem_basePathIssues {path : String} {issue : Issue} (h : issue ∈ basePathIssues path)
    (i : Nat) : issue.location.isIn i = false := by
  rw [location_of_mem_basePathIssues h]
  rfl

/-- What is kept of a list that is put together from numbered parts, if it is all of one part and
nothing of the others. -/
theorem filter_flatMap_zipIdx {α β : Type} {as : List α} {a : α} {i : Nat} {f : α × Nat → List β}
    {q : β → Bool} (hf : ∀ p, (f p).filter q = if p.2 = i then f p else []) (h : as[i]? = some a) :
    (as.zipIdx.flatMap f).filter q = f (a, i) := by
  obtain ⟨hi, rfl⟩ := List.getElem?_eq_some_iff.1 h
  have hzip : as.zipIdx = (as.take i).zipIdx ++ (as[i], i) :: (as.drop (i + 1)).zipIdx (i + 1) := by
    conv_lhs => rw [← List.take_append_drop i as, List.drop_eq_getElem_cons hi]
    rw [List.zipIdx_append, List.zipIdx_cons, List.length_take_of_le hi.le, Nat.zero_add]
  have hother : ∀ ps : List (α × Nat), (∀ p ∈ ps, p.2 ≠ i) → (ps.flatMap f).filter q = [] := by
    intro ps hne
    rw [List.filter_flatMap, List.flatMap_eq_nil_iff]
    intro p hp
    rw [hf, if_neg (hne p hp)]
  rw [hzip, List.flatMap_append, List.flatMap_cons, List.filter_append, List.filter_append, hf,
    if_pos rfl, hother _ fun p hp => ?_, hother _ fun p hp => ?_, List.nil_append, List.append_nil]
  · have hle := List.le_snd_of_mem_zipIdx hp
    omega
  · have hlt := List.snd_lt_add_of_mem_zipIdx hp
    rw [List.length_take_of_le hi.le] at hlt
    omega

/-- The findings at the places in a group are those of the group. -/
theorem Site.filter_isIn {s : Site} {i : Nat} {g : Group} (h : s.sidebar[i]? = some g) :
    s.validate.issues.filter (·.location.isIn i) = g.findings s.sidebar i := by
  have htitle : (titleIssues s.title).filter (·.location.isIn i) = [] := by
    simpa [List.filter_eq_nil_iff] using fun issue hissue => isIn_of_mem_titleIssues hissue i
  have hbase : (basePathIssues s.basePath).filter (·.location.isIn i) = [] := by
    simpa [List.filter_eq_nil_iff] using fun issue hissue => isIn_of_mem_basePathIssues hissue i
  have hne : s.sidebar ≠ [] := by
    rintro hnil
    simp [hnil] at h
  have hgroup : ∀ p : Group × Nat, (p.1.findings s.sidebar p.2).filter (·.location.isIn i) =
      if p.2 = i then p.1.findings s.sidebar p.2 else [] := by
    intro p
    split_ifs with hp
    · exact List.filter_eq_self.2 fun issue hissue => by simp [Group.isIn_of_mem_findings hissue, hp]
    · exact List.filter_eq_nil_iff.2 fun issue hissue => by simp [Group.isIn_of_mem_findings hissue, hp]
  rw [validate, List.filter_append, List.filter_append, htitle, hbase, sidebarIssues_eq, if_neg hne,
    filter_flatMap_zipIdx hgroup h, List.nil_append, List.nil_append]

/-! ## Counting rules -/

theorem Item.eq_of_mem_rules {it : Item} {r : Rule} (h : r ∈ it.rules) :
    r = .emptyLink ∨ r = .linkNotRelative := by
  rw [rules] at h
  split_ifs at h
  · exact .inl (List.mem_singleton.1 h)
  · cases h
  · exact .inr (List.mem_singleton.1 h)

theorem count_duplicateLink_rules (g : Group) :
    g.rules.count (.duplicateLink 0) = surplus (g.items.map (·.link)) := by
  rw [Group.rules]
  split_ifs with hitems
  · simp [hitems, surplus]
  · have hitem : Rule.duplicateLink 0 ∉ g.items.flatMap Item.rules := by
      rw [List.mem_flatMap]
      rintro ⟨it, -, hit⟩
      simpa using Item.eq_of_mem_rules hit
    rw [List.count_append, List.count_eq_zero_of_not_mem hitem, List.count_replicate_self,
      Nat.zero_add]

theorem duplicateGroupText_notMem_rules (g : Group) : Rule.duplicateGroupText 0 ∉ g.rules := by
  rw [Group.rules]
  split_ifs
  · simp
  · rw [List.mem_append, List.mem_flatMap]
    rintro (⟨it, -, hit⟩ | hrepeat)
    · simpa using Item.eq_of_mem_rules hit
    · cases List.eq_of_mem_replicate hrepeat

theorem count_duplicateGroupText_rules (s : Site) :
    s.rules.count (.duplicateGroupText 0) = surplus (s.sidebar.map (·.text)) := by
  have hbefore : Rule.duplicateGroupText 0 ∉
      (titleIssues s.title ++ basePathIssues s.basePath).map (·.rule.variant) := by
    rw [titleIssues, basePathIssues]
    split_ifs <;> simp [Rule.variant]
  rw [Site.rules, List.count_append, List.count_eq_zero_of_not_mem hbefore, Nat.zero_add]
  split_ifs with hgroups
  · simp [hgroups, surplus]
  · have hgroup : Rule.duplicateGroupText 0 ∉ s.sidebar.flatMap Group.rules := by
      rw [List.mem_flatMap]
      rintro ⟨g, -, hg⟩
      exact duplicateGroupText_notMem_rules g hg
    rw [List.count_append, List.count_eq_zero_of_not_mem hgroup, List.count_replicate_self,
      Nat.zero_add]

/-- Among the findings of a group a heading may be one that is repeated, which is no link. -/
theorem count_duplicateLink_findings (groups : List Group) (g : Group) (i : Nat) :
    ((g.findings groups i).map (·.rule.variant)).count (.duplicateLink 0) =
      surplus (g.items.map (·.link)) := by
  have hheading : Rule.duplicateLink 0 ∉
      (firstUse? (groups.map (·.text)) g.text i).toList.map fun _ => Rule.duplicateGroupText 0 := by
    simp
  rw [(variants_group groups g i).count_eq, List.count_append, count_duplicateLink_rules,
    List.count_eq_zero_of_not_mem hheading, Nat.add_zero]

namespace Site
variable {s t : Site}

/-- In another order a site breaks the same rules as often, and so it has as many errors and warnings
and passes or fails alike. A heading counts as repeated as often as there are groups more than
different headings, and a link of a group likewise. -/
theorem validate_reordered (h : s.Reordered t) :
    s.validate.variants.Perm t.validate.variants ∧
    s.validate.errors.length = t.validate.errors.length ∧
    s.validate.warnings.length = t.validate.warnings.length ∧
    (∀ strict, s.validate.passes strict = t.validate.passes strict) ∧
    s.validate.variants.count (.duplicateGroupText 0) =
      s.sidebar.length - (s.sidebar.map (·.text)).toFinset.card ∧
    ∀ i g, s.sidebar[i]? = some g →
      ((s.validate.issues.filter (·.location.isIn i)).map (·.rule.variant)).count (.duplicateLink 0) =
        g.items.length - (g.items.map (·.link)).toFinset.card := by
  have hperm : s.validate.variants.Perm t.validate.variants :=
    (variants_validate s).trans (h.rules.trans (variants_validate t).symm)
  refine ⟨hperm, ?_, ?_, fun strict => ?_, ?_, fun i g hg => ?_⟩
  · rw [Report.length_errors, Report.length_errors, hperm.countP_eq]
  · rw [Report.length_warnings, Report.length_warnings, hperm.countP_eq]
  · rw [Report.passes_eq, Report.passes_eq, hperm.isEmpty_eq, hperm.any_eq]
  · rw [(variants_validate s).count_eq, count_duplicateGroupText_rules, surplus, List.length_map]
  · rw [filter_isIn hg, count_duplicateLink_findings, surplus, List.length_map]

/-- The headings of the first and the last group are the same, and so are two links of the first. In
another order the blame is with other entries. -/
theorem validate_reordered_swapped :
    let g : Group := ⟨"g", none, [⟨"a", "/x"⟩, ⟨"b", "x"⟩, ⟨"c", "/x"⟩]⟩
    let g' : Group := ⟨"g", none, [⟨"c", "/x"⟩, ⟨"a", "/x"⟩, ⟨"b", "x"⟩]⟩
    let h : Group := ⟨"g", some true, []⟩
    let s : Site := ⟨"T", "D", "/b", [g, h]⟩
    let t : Site := ⟨"T", "D", "/b", [h, g']⟩
    s.Reordered t ∧ s.validate ≠ t.validate ∧ s.validate.variants.Perm t.validate.variants ∧
      s.validate.errors.length = 3 ∧ t.validate.errors.length = 3 ∧
      s.validate.passes false = t.validate.passes false := by
  intro g g' h s t
  have hitems : g.items.Perm g'.items := by decide
  have hreordered : s.Reordered t :=
    ⟨rfl, rfl, rfl, [h, g], by decide, .cons ⟨rfl, rfl, .refl _⟩ (.cons ⟨rfl, rfl, hitems⟩ .nil)⟩
  obtain ⟨hperm, herrors, -, hpasses, -⟩ := validate_reordered hreordered
  have hthree : s.validate.errors.length = 3 := by decide
  exact ⟨hreordered, by decide, hperm, hthree, herrors ▸ hthree, hpasses false⟩

end Site

end SiteNav
