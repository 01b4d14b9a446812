import SiteNav.Proofs.Document.Readings

/-!
# The order of entries

The entries of a map may be written in any order, at any depth. Main statement: rearranged trees are
read as the same, and have the same strays up to their order.
-/
namespace SiteNav.Document
variable {κ σ : Type}

namespace Tree

/-- A property of rearranged trees follows from what it takes from the parts of a list or map to the
whole. -/
theorem Rearranged.induct {R : Tree κ σ → Tree κ σ → Prop} (scalar : ∀ v, R (.scalar v) (.scalar v))
    (list : ∀ {ts ts'}, List.Forall₂ R ts ts' → R (.list ts) (.list ts'))
    (map : ∀ {es es' es''}, es.Perm es' →
      List.Forall₂ (fun e e' => SameEntry e e' ∧ R e.2 e'.2) es' es'' → R (.map es) (.map es''))
    {t t' : Tree κ σ} (h : t.Rearranged t') : R t t' := by
  induction t using Tree.induct generalizing t' with
  | scalar v =>
    cases h
    exact scalar v
  | list ts ih =>
    cases h with
    | list hitems =>
      obtain ⟨hlength, hpairs⟩ := List.forall₂_iff_zip.1 hitems
      refine list (List.forall₂_iff_zip.2 ⟨hlength, fun hpair => ?_⟩)
      exact ih _ (List.of_mem_zip hpair).1 (hpairs hpair)
  | map es ih =>
    cases h with
    | @map _ es' es'' hperm hkeys hvalues =>
      rw [← List.forall₂_eq_eq_eq, List.forall₂_map_left_iff, List.forall₂_map_right_iff] at hkeys
      rw [List.forall₂_map_left_iff, List.forall₂_map_right_iff] at hvalues
      obtain ⟨hlength, hpairs⟩ := List.forall₂_iff_zip.1 hvalues
      refine map hperm (List.forall₂_iff_zip.2 ⟨hlength, fun {e e'} hpair => ⟨⟨?_, ?_⟩, ?_⟩⟩)
      · exact (List.forall₂_iff_zip.1 hkeys).2 hpair
      · exact hpairs hpair
      · exact ih e (hperm.mem_iff.2 (List.of_mem_zip hpair).1) (hpairs hpair)

end Tree

namespace Meaning
variable {M : Meaning κ σ}

theorem allEntries_perm {key : κ → Bool} {scalar : σ → Bool} {es es' : List (κ × Tree κ σ)}
    (h : es.Perm es') : Tree.allEntries key scalar es = Tree.allEntries key scalar es' := by
  induction h with
  | nil => rfl
  | cons e _ ih => rw [Tree.allEntries, Tree.allEntries, ih]
  | swap e e' es =>
    simp only [Tree.allEntries]
    exact Bool.and_left_comm ..
  | trans _ _ ih ih' => exact ih.trans ih'

theorem accepts_of_rearranged {t t' : Tree κ σ} (h : t.Rearranged t') : M.accepts t = M.accepts t' := by
  refine h.induct (R := fun t t' => M.accepts t = M.accepts t') (fun _ => rfl) (fun hts => ?_)
    fun hperm hes => (allEntries_perm hperm).trans ?_
  · change Tree.allItems _ _ _ = Tree.allItems _ _ _
    induction hts with
    | nil => rfl
    | cons ht _ ih =>
      rw [Tree.allItems, Tree.allItems, ih]
      exact congrArg (· && _) ht
  · change _ = Tree.allEntries _ _ _
    clear hperm
    induction hes with
    | nil => rfl
    | cons he _ ih =>
      rw [Tree.allEntries, Tree.allEntries, ih]
      exact congrArg (true && · && _) he.2

theorem legibleEntries_perm {fs : List (List String × Shape)} {es es' : List (κ × Tree κ σ)}
    (h : es.Perm es') : M.LegibleEntries fs es ↔ M.LegibleEntries fs es' := by
  induction h with
  | nil => exact Iff.rfl
  | cons e _ ih => rw [LegibleEntries, LegibleEntries, ih]
  | swap e e' es =>
    simp only [LegibleEntries]
    exact and_left_comm
  | trans _ _ ih ih' => exact ih.trans ih'

theorem straysOfEntries_perm {fs : List (List String × Shape)} {p : Path}
    {es es' : List (κ × Tree κ σ)} (h : es.Perm es') :
    (M.straysOfEntries fs p es).Perm (M.straysOfEntries fs p es') := by
  induction h with
  | nil => exact .refl _
  | cons e _ ih =>
    rw [straysOfEntries, straysOfEntries]
    exact ih.append_left _
  | swap e e' es =>
    simp only [straysOfEntries]
    exact List.perm_append_comm_assoc ..
  | trans _ _ ih ih' => exact ih.trans ih'

theorem legibleItems_congr {shapes : Nat → Option Shape} {ts ts' : List (Tree κ σ)}
    (h : List.Forall₂ (fun t t' => ∀ sh, M.Legible sh t ↔ M.Legible sh t') ts ts') (i : Nat) :
    M.LegibleItems shapes i ts ↔ M.LegibleItems shapes i ts' := by
  induction h generalizing i with
  | nil => exact Iff.rfl
  | cons ht _ ih =>
    rw [LegibleItems, LegibleItems, ih]
    cases shapes i with
    | none => exact Iff.rfl
    | some sh => exact and_congr_left fun _ => ht sh

theorem legible_of_rearranged {t t' : Tree κ σ} (h : t.Rearranged t') :
    ∀ sh, M.Legible sh t ↔ M.Legible sh t' := by
  refine h.induct (R := fun t t' => ∀ sh, M.Legible sh t ↔ M.Legible sh t') (fun _ _ => Iff.rfl)
    (fun hts sh => ?_) fun hperm hes sh => ?_
  · cases sh with
    | leaf => simp only [Legible]
    | list sh =>
      rw [Legible, Legible]
      exact legibleItems_congr hts 0
    | record fs =>
      rw [Legible, Legible]
      exact legibleItems_congr hts 0
  · cases sh with
    | leaf => simp only [Legible]
    | list sh => simp only [Legible]
    | record fs =>
      rw [Legible, Legible, legibleEntries_perm hperm]
      clear hperm
      induction hes with
      | nil => exact Iff.rfl
      | @cons e e' _ _ he _ ih =>
        obtain ⟨k, t⟩ := e
        obtain ⟨_, t'⟩ := e'
        obtain ⟨⟨rfl, hsame⟩, ht⟩ := he
        rw [LegibleEntries, LegibleEntries, ih]
        cases M.name k with
        | none => exact Iff.rfl
        | some name =>
          refine and_congr_left fun _ => ?_
          dsimp only
          cases Shape.named? fs name with
          | none => rw [accepts_of_rearranged hsame]
          | some sh => exact ht sh

theorem straysOfItems_perm {shapes : Nat → Option Shape} {p : Path} {ts ts' : List (Tree κ σ)}
    (h : List.Forall₂ (fun t t' => ∀ sh p, (M.strays sh p t).Perm (M.strays sh p t')) ts ts') (i : Nat) :
    (M.straysOfItems shapes p i ts).Perm (M.straysOfItems shapes p i ts') := by
  induction h generalizing i with
  | nil => exact .refl _
  | cons ht _ ih =>
    rw [straysOfItems, straysOfItems]
    apply List.Perm.append _ (ih (i + 1))
    cases shapes i with
    | none => exact .refl _
    | some sh => exact ht sh _

theorem strays_perm {t t' : Tree κ σ} (h : t.Rearranged t') :
    ∀ sh p, (M.strays sh p t).Perm (M.strays sh p t') := by
  refine h.induct (R := fun t t' => ∀ sh p, (M.strays sh p t).Perm (M.strays sh p t'))
    (fun _ _ _ => .refl _) (fun hts sh p => ?_) fun hperm hes sh p => ?_
  · cases sh with
    | leaf => simp only [strays, List.Perm.refl]
    | list sh =>
      rw [strays, strays]
      exact straysOfItems_perm hts 0
    | record fs =>
      rw [strays, strays]
      exact straysOfItems_perm hts 0
  · cases sh with
    | leaf => simp only [strays, List.Perm.refl]
    | list sh => simp only [strays, List.Perm.refl]
    | record fs =>
      rw [strays, strays]
      refine (straysOfEntries_perm hperm).trans ?_
      clear hperm
      induction hes with
      | nil => exact .refl _
      | @cons e e' _ _ he _ ih =>
        obtain ⟨k, t⟩ := e
        obtain ⟨_, t'⟩ := e'
        obtain ⟨⟨rfl, -⟩, ht⟩ := he
        rw [straysOfEntries, straysOfEntries]
        apply List.Perm.append _ ih
        cases M.name k with
        | none => exact .refl _
        | some name =>
          dsimp only
          cases Shape.named? fs name with
          | none => exact .refl _
          | some sh => exact ht sh _

theorem sameReadings_of_rearranged {t t' : Tree κ σ} (h : t.Rearranged t') :
    ∀ sh, M.SameReadings sh t t' := by
  refine h.induct (R := fun t t' => ∀ sh, M.SameReadings sh t t') (fun v sh => .refl sh (.scalar v))
    (fun hts sh => ?_) fun hperm hes sh => ?_
  · cases sh with
    | leaf => exact .leaf nofun nofun
    | list sh => exact .list (hts.imp fun _ _ ht => ht sh)
    | record fs =>
      refine .places hts.length_eq fun j sh t t' _ ht ht' => ?_
      obtain ⟨hj, rfl⟩ := List.getElem?_eq_some_iff.1 ht
      obtain ⟨hj', rfl⟩ := List.getElem?_eq_some_iff.1 ht'
      exact (List.forall₂_iff_get.1 hts).2 j hj hj' sh
  · cases sh with
    | leaf => exact .leaf nofun nofun
    | list sh => exact .list_of_map
    | record fs => exact .entries hperm (hes.imp fun _ _ he => ⟨he.1.1, fun sh _ => he.2 sh⟩)

end Meaning

end SiteNav.Document
