import Mathlib.Logic.Relation
import SiteNav.Proofs.Document.Order
import SiteNav.Proofs.Document.Positional

/-!
# Documents laid out anew

A document may be laid out in several ways: with its entries in another order, with another name for the
base path, with its sidebar under a theme, and with lists in place of some structures. Main statement: a
document laid out anew is the same site, and its strays are the same but for the order in which they
stand and the steps that lead to them.
-/
namespace SiteNav.Document
variable {κ σ : Type}

/-- The path of what stands under the sidebar, once the sidebar is under a theme. -/
def Path.under (theme : String) (p : Path) : Path :=
  if [.key "sidebar"] <:+ p then p ++ [.key theme] else p

namespace Meaning
variable (M : Meaning κ σ)

/-- A way to lay out a document anew, and what becomes of the paths of its strays. -/
inductive Relayout : (List Path → List Path → Prop) → Tree κ σ → Tree κ σ → Prop
  | rearrange {t t' : Tree κ σ} : t.Rearranged t' → Relayout List.Perm t t'
  | rename {k k' : κ} {name name' : String} {v : Tree κ σ} (es es' : List (κ × Tree κ σ)) :
      M.name k = some name → M.name k' = some name' → name ∈ ["basePath", "base_path", "base"] →
      name' ∈ ["basePath", "base_path", "base"] →
      Relayout Eq (.map (es ++ (k, v) :: es')) (.map (es ++ (k', v) :: es'))
  | move {k k' theme : κ} {name : String} {v : Tree κ σ} (es es' : List (κ × Tree κ σ)) :
      M.name k = some "sidebar" → M.name k' = some "sidebar" → M.name theme = some name →
      name ∈ ["themeConfig", "theme_config"] →
      Relayout (fun ps ps' => ps' = ps.map (Path.under name)) (.map (es ++ (k, v) :: es'))
        (.map (es ++ (theme, .map [(k', v)]) :: es'))
  | list {inner : Shape} {q : Path} {t t' : Tree κ σ} : M.positional = true →
      M.Inside inner q .site [] t t' →
      Relayout (fun ps ps' => ps' = ps.map (Path.placed q inner)) t t'
  | trans {change change' : List Path → List Path → Prop} {t t' t'' : Tree κ σ} :
      Relayout change t t' → Relayout change' t' t'' → Relayout (Relation.Comp change change') t t''

/-- The trees are the same site, and the strays of the first become those of the second. -/
structure Faithful (change : List Path → List Path → Prop) (t t' : Tree κ σ) : Prop where
  isSite : ∀ s, M.IsSite t s ↔ M.IsSite t' s
  legible : M.Legible .site t ↔ M.Legible .site t'
  strays : ∀ s, M.IsSite t s → change (M.strays .site [] t) (M.strays .site [] t')

variable {M}

theorem isSite_congr {es es' : List (κ × Tree κ σ)}
    (hvalues : ∀ s ∈ M.siteSlots, M.values s.names es = M.values s.names es') (s : Site) :
    M.IsSite (.map es) s ↔ M.IsSite (.map es') s := by
  rw [isSite_iff, isSite_iff]
  refine exists_congr fun draft => exists_congr fun raw => and_congr_left fun _ => ?_
  exact forall₂_congr fun s hs => by rw [hvalues s hs]

theorem isSite_of_hasSidebar {es es' : List (κ × Tree κ σ)} (hvalues :
      ∀ names ∈ [["title"], ["description"], ["basePath", "base_path", "base"]],
        M.values names es = M.values names es')
    (hsidebar : ∀ gs, M.HasSidebar es gs → M.HasSidebar es' gs) {s : Site} (h : M.IsSite (.map es) s) :
    M.IsSite (.map es') s := by
  simp only [List.forall_mem_cons] at hvalues
  obtain ⟨htitle, hdescription, hbase, -⟩ := hvalues
  cases h with
  | map ht httext hd hdtext hb hbtext hgroups =>
    exact .map (htitle ▸ ht) httext (hdescription ▸ hd) hdtext (hbase ▸ hb) hbtext (hsidebar _ hgroups)

section Entry
variable {k k' : κ} (v : Tree κ σ) (es es' : List (κ × Tree κ σ))

theorem site_eq : Shape.site = .record (Slot.fields M.siteSlots) :=
  rfl

theorem values_middle (names : List String) {name : String} (hname : M.name k = some name) :
    M.values names (es ++ (k, v) :: es') = M.values names es ++
      if names.contains name then v :: M.values names es' else M.values names es' := by
  rw [values_append, values_cons, hname, Option.any_some]

theorem faithful_rename {name name' : String} (hname : M.name k = some name)
    (hname' : M.name k' = some name') (hmem : name ∈ ["basePath", "base_path", "base"])
    (hmem' : name' ∈ ["basePath", "base_path", "base"]) :
    M.Faithful Eq (.map (es ++ (k, v) :: es')) (.map (es ++ (k', v) :: es')) := by
  have hnamed : ∀ name ∈ ["basePath", "base_path", "base"],
      Shape.named? (Slot.fields M.siteSlots) name = some .leaf := by
    simp [Shape.named?, Slot.fields, siteSlots]
  have hcontains : ∀ s ∈ M.siteSlots, s.names.contains name = s.names.contains name' := by
    simp only [List.mem_cons, List.not_mem_nil, or_false] at hmem hmem'
    rcases hmem with rfl | rfl | rfl <;> rcases hmem' with rfl | rfl | rfl <;> simp [siteSlots]
  constructor
  · refine isSite_congr fun s hs => ?_
    rw [values_middle v es es' _ hname, values_middle v es es' _ hname', hcontains s hs]
  · rw [site_eq, legible_entry es es' hname (hnamed name hmem),
      legible_entry es es' hname' (hnamed name' hmem')]
  · intro s _
    rw [site_eq, strays_entry es es' hname (hnamed name hmem),
      strays_entry es es' hname' (hnamed name' hmem')]
    simp only [strays]

/-- Both places of the sidebar count, so that moving it from one to the other is no matter. -/
theorem hasSidebar_move {theme : κ} {name : String} (hk : M.name k = some "sidebar")
    (hk' : M.name k' = some "sidebar") (htheme : M.name theme = some name)
    (hmem : name ∈ ["themeConfig", "theme_config"]) (gs : List Group) :
    M.HasSidebar (es ++ (k, v) :: es') gs ↔ M.HasSidebar (es ++ (theme, .map [(k', v)]) :: es') gs := by
  have hplain := values_middle v es es' ["sidebar"] hk
  have hplain' := values_middle (.map [(k', v)]) es es' ["sidebar"] htheme
  have hthemed := values_middle v es es' ["themeConfig", "theme_config"] hk
  have hthemed' := values_middle (.map [(k', v)]) es es' ["themeConfig", "theme_config"] htheme
  have hinner : M.values ["sidebar"] [(k', v)] = [v] := by
    rw [values_cons, hk']
    rfl
  have hne : name ≠ "sidebar" := by
    rintro rfl
    simp at hmem
  rw [if_pos (by simp)] at hplain
  rw [if_neg (by simpa using hne)] at hplain'
  rw [if_neg (by simp)] at hthemed
  rw [if_pos (by simpa using hmem)] at hthemed'
  constructor
  · rintro (⟨hs, ht, hgroups⟩ | ⟨hs, ht, -⟩)
    · rw [hplain, List.append_eq_singleton_iff] at hs
      rw [hthemed, List.append_eq_nil_iff] at ht
      simp only [reduceCtorEq, and_false, or_false, List.cons.injEq] at hs
      obtain ⟨hes, rfl, hes'⟩ := hs
      refine .themed ?_ ?_ (.map hinner hgroups)
      · rw [hplain', hes, hes', List.append_nil]
      · rw [hthemed', ht.1, ht.2, List.nil_append]
    · rw [hplain] at hs
      simp at hs
  · rintro (⟨hs, ht, -⟩ | ⟨hs, ht, hgroups⟩)
    · rw [hthemed'] at ht
      simp at ht
    · rw [hplain', List.append_eq_nil_iff] at hs
      rw [hthemed', List.append_eq_singleton_iff] at ht
      simp only [reduceCtorEq, and_false, or_false, List.cons.injEq] at ht
      obtain ⟨hes, rfl, hes'⟩ := ht
      cases hgroups with
      | map hv hgroups =>
        cases hinner.symm.trans hv
        refine .plain ?_ ?_ hgroups
        · rw [hplain, hs.1, hs.2, List.nil_append]
        · rw [hthemed, hes, hes', List.append_nil]

theorem faithful_move {theme : κ} {name : String} (hk : M.name k = some "sidebar")
    (hk' : M.name k' = some "sidebar") (htheme : M.name theme = some name)
    (hmem : name ∈ ["themeConfig", "theme_config"]) :
    M.Faithful (fun ps ps' => ps' = ps.map (Path.under name)) (.map (es ++ (k, v) :: es'))
        (.map (es ++ (theme, .map [(k', v)]) :: es')) := by
  have hsidebar : Shape.named? (Slot.fields M.siteSlots) "sidebar" = some (.list .group) := by
    simp [Shape.named?, Slot.fields, siteSlots]
  have hnamed : ∀ name ∈ ["themeConfig", "theme_config"],
      Shape.named? (Slot.fields M.siteSlots) name = some .theme := by
    simp [Shape.named?, Slot.fields, siteSlots]
  have hlegible : M.Legible .theme (.map [(k', v)]) ↔ M.Legible (.list .group) v := by
    simp [Shape.theme, Legible, LegibleEntries, hk', Shape.named?]
  have hstrays : M.strays .theme [.key name] (.map [(k', v)]) =
      M.strays (.list .group) ([.key "sidebar"] ++ [.key name]) v := by
    simp [Shape.theme, strays, straysOfEntries, hk', Shape.named?]
  constructor
  · have hvalues : ∀ names ∈ [["title"], ["description"], ["basePath", "base_path", "base"]],
        M.values names (es ++ (k, v) :: es') = M.values names (es ++ (theme, .map [(k', v)]) :: es') := by
      intro names hnames
      rw [values_middle v es es' names hk, values_middle _ es es' names htheme]
      simp only [List.mem_cons, List.not_mem_nil, or_false] at hmem hnames
      rcases hmem with rfl | rfl <;> rcases hnames with rfl | rfl | rfl <;> simp
    have hmove := hasSidebar_move v es es' hk hk' htheme hmem
    intro s
    constructor
    · exact isSite_of_hasSidebar hvalues fun gs => (hmove gs).1
    · exact isSite_of_hasSidebar (fun names hnames => (hvalues names hnames).symm) fun gs => (hmove gs).2
  · rw [site_eq, legible_entry es es' hk hsidebar, legible_entry es es' htheme (hnamed name hmem),
      hlegible]
  · intro s hs
    have hothers := (Readable.entry ⟨_, M.IsSite, .site, s, hs⟩ hk hsidebar).2
    have hbeside {es : List (κ × Tree κ σ)} (hes : ∀ e ∈ es, M.name e.1 ≠ some "sidebar") :
        (M.straysOfEntries (Slot.fields M.siteSlots) [] es).map (Path.under name) =
          M.straysOfEntries (Slot.fields M.siteSlots) [] es := by
      refine (List.map_congr_left fun r hr => ?_).trans (List.map_id _)
      obtain ⟨e, he, name', hname', hsuffix⟩ := suffix_of_mem_straysOfEntries hr
      refine if_neg fun hunder => hes e he ?_
      have heq := (List.suffix_of_suffix_length_le hsuffix hunder (Nat.le_refl _)).eq_of_length rfl
      rw [hname', Step.key.inj (List.cons.inj heq).1]
    have hbelow : (M.strays (.list .group) [.key "sidebar"] v).map (Path.under name) =
        (M.strays (.list .group) [.key "sidebar"] v).map (· ++ [.key name]) :=
      List.map_congr_left fun r hr => if_pos (suffix_of_mem_strays hr)
    have hbefore := hbeside fun e he => hothers e (List.mem_append_left es' he)
    have hafter := hbeside fun e he => hothers e (List.mem_append_right es he)
    rw [site_eq, strays_entry es es' hk hsidebar, strays_entry es es' htheme (hnamed name hmem), hstrays,
      strays_append, List.map_append, List.map_append, hbefore, hafter, hbelow]

end Entry

theorem Faithful.trans {change change' : List Path → List Path → Prop} {t t' t'' : Tree κ σ}
    (h : M.Faithful change t t') (h' : M.Faithful change' t' t'') :
    M.Faithful (Relation.Comp change change') t t'' where
  isSite s := (h.isSite s).trans (h'.isSite s)
  legible := h.legible.trans h'.legible
  strays s hs := ⟨_, h.strays s hs, h'.strays s ((h.isSite s).1 hs)⟩

/-- A document laid out anew is the same site. -/
theorem Relayout.faithful {change : List Path → List Path → Prop} {t t' : Tree κ σ}
    (h : M.Relayout change t t') : M.Faithful change t t' := by
  induction h with
  | rearrange h =>
    exact ⟨sameReadings_of_rearranged h .site .site, legible_of_rearranged h .site,
      fun _ _ => strays_perm h .site []⟩
  | rename es es' hname hname' hmem hmem' => exact faithful_rename _ es es' hname hname' hmem hmem'
  | move es es' hk hk' htheme hmem => exact faithful_move _ es es' hk hk' htheme hmem
  | list hpositional h =>
    exact ⟨h.sameReadings hpositional .site, h.legible,
      fun s hs => h.strays ⟨_, M.IsSite, .site, s, hs⟩⟩
  | trans _ _ ih ih' => exact ih.trans ih'

end Meaning

end SiteNav.Document
