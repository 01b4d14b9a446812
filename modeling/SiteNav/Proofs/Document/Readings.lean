import SiteNav.Proofs.Document.Acceptance
import SiteNav.Proofs.Document.Value

/-!
# What values of a shape are read as

A value of some shape is read as a text or a flag, as a list of what its elements are read as, or as one
of the four structures, which gather their fields in slots. So a property of readings is proved for all
of them at once, by what it takes from the slots of a structure to the structure.
-/
namespace SiteNav.Document
variable {κ σ : Type}

/-- What holds of a tree if it holds of its parts holds of all trees. -/
theorem Tree.induct {P : Tree κ σ → Prop} (scalar : ∀ v, P (.scalar v))
    (list : ∀ ts, (∀ t ∈ ts, P t) → P (.list ts))
    (map : ∀ es, (∀ e ∈ es, P e.2) → P (.map es))
    (t : Tree κ σ) : P t := by
  induction hsize : sizeOf t using Nat.strongRecOn generalizing t with
  | ind n ih =>
    subst hsize
    cases t with
    | scalar v => exact scalar v
    | list ts =>
      refine list ts fun t ht => ih (sizeOf t) ?_ t rfl
      have := List.sizeOf_lt_of_mem ht
      simp only [Tree.list.sizeOf_spec]
      omega
    | map es =>
      refine map es fun e he => ih (sizeOf e.2) ?_ e.2 rfl
      have hentry := List.sizeOf_lt_of_mem he
      have hvalue : sizeOf e.2 < sizeOf e := by
        cases e
        simp +arith
      simp only [Tree.map.sizeOf_spec]
      omega

namespace Meaning
variable (M : Meaning κ σ)

/-- The values of a shape are read as what a relation says. -/
inductive ReadAs : {α : Type} → Shape → (Tree κ σ → α → Prop) → Prop
  | text : ReadAs .leaf M.IsText
  | flag : ReadAs .leaf M.IsFlag
  | list {α : Type} {sh : Shape} {P : Tree κ σ → α → Prop} : ReadAs sh P → ReadAs (.list sh) (M.IsList P)
  | item : ReadAs .item M.IsItem
  | group : ReadAs .group M.IsGroup
  | theme : ReadAs .theme M.IsTheme
  | site : ReadAs .site M.IsSite

variable {M}

theorem readAs_itemSlots : ∀ s ∈ M.itemSlots, M.ReadAs s.shape s.holds := by
  simp only [itemSlots, List.forall_mem_cons]
  exact ⟨.text, .text, fun _ hs => absurd hs List.not_mem_nil⟩

theorem readAs_groupSlots : ∀ s ∈ M.groupSlots, M.ReadAs s.shape s.holds := by
  simp only [groupSlots, List.forall_mem_cons]
  exact ⟨.text, .flag, .list .item, fun _ hs => absurd hs List.not_mem_nil⟩

theorem readAs_themeSlots : ∀ s ∈ M.themeSlots, M.ReadAs s.shape s.holds := by
  simp only [themeSlots, List.forall_mem_cons]
  exact ⟨.list .group, fun _ hs => absurd hs List.not_mem_nil⟩

theorem readAs_siteSlots : ∀ s ∈ M.siteSlots, M.ReadAs s.shape s.holds := by
  simp only [siteSlots, List.forall_mem_cons]
  exact ⟨.text, .text, .text, .list .group, .theme, fun _ hs => absurd hs List.not_mem_nil⟩

/-- A structure that is read from what its slots gather. -/
structure Built {α : Type} {δ : Type} (M : Meaning κ σ) (slots : List (Slot κ σ δ))
    (P : Tree κ σ → α → Prop) : Prop where
  reads : ∀ s ∈ slots, M.ReadAs s.shape s.holds
  apart : slots.Pairwise Slot.Apart
  gathers : ∃ (empty : δ) (finish : δ → α → Prop),
    ∀ t a, P t a ↔ ∃ draft, Slot.Gathers M slots empty t draft ∧ finish draft a

theorem ReadAs.built {α : Type} {fs : List (List String × Shape)} {P : Tree κ σ → α → Prop}
    (h : M.ReadAs (.record fs) P) :
    ∃ (δ : Type) (slots : List (Slot κ σ δ)), fs = Slot.fields slots ∧ M.Built slots P := by
  generalize hsh : Shape.record fs = sh at h
  cases h with
  | text | flag | list _ => cases hsh
  | item =>
    exact ⟨_, M.itemSlots, Shape.record.inj hsh, readAs_itemSlots, serves_itemLayout.apart, _, _,
      fun _ _ => isItem_iff⟩
  | group =>
    exact ⟨_, M.groupSlots, Shape.record.inj hsh, readAs_groupSlots, serves_groupLayout.apart, _, _,
      fun _ _ => isGroup_iff⟩
  | theme =>
    exact ⟨_, M.themeSlots, Shape.record.inj hsh, readAs_themeSlots, serves_themeLayout.apart, _, _,
      fun _ _ => isTheme_iff⟩
  | site =>
    refine ⟨_, M.siteSlots, Shape.record.inj hsh, readAs_siteSlots, serves_siteLayout.apart, {},
      fun draft s => ∃ raw, draft.finish = .ok raw ∧ raw.settle = .ok s, fun t s => ?_⟩
    rw [isSite_iff]
    simp only [← exists_and_left]

end Meaning

/-! ## Readings of structures with the same fields -/

theorem settled_perm {α β : Type} {holds : α → β → Prop} {ts ts' : List α} (hperm : ts.Perm ts')
    {old new : Option β} : Settled holds ts old new ↔ Settled holds ts' old new := by
  refine or_congr (and_congr_left fun _ => ?_) (exists_congr fun t => exists_congr fun b =>
    and_congr_left fun _ => ?_)
  · constructor
    · rintro rfl
      exact hperm.symm.eq_nil
    · rintro rfl
      exact hperm.eq_nil
  · constructor
    · rintro rfl
      exact List.perm_singleton.1 hperm.symm
    · rintro rfl
      exact List.perm_singleton.1 hperm

theorem settled_congr {α β : Type} {holds : α → β → Prop} {ts ts' : List α}
    (h : List.Forall₂ (fun t t' => ∀ b, holds t b ↔ holds t' b) ts ts') {old new : Option β} :
    Settled holds ts old new ↔ Settled holds ts' old new := by
  rcases h with _ | ⟨ht, _ | ⟨_, _⟩⟩
  · exact Iff.rfl
  · simp [Settled, ht]
  · simp [Settled]

namespace Slot
variable {δ : Type} {M : Meaning κ σ}

/-- The field reads the same from both trees. -/
def ReadsSame (s : Slot κ σ δ) (t t' : Tree κ σ) : Prop :=
  ∀ b, s.holds t b ↔ s.holds t' b

/-- A name stands for the slot that has it, as no other does. -/
theorem named?_fields {slots : List (Slot κ σ δ)} (hapart : slots.Pairwise Apart) {s : Slot κ σ δ}
    (hs : s ∈ slots) {name : String} (hname : s.names.contains name = true) :
    Shape.named? (fields slots) name = some s.shape := by
  induction hapart with
  | nil => cases hs
  | @cons s' slots hfirst _ ih =>
    rw [Shape.named?, fields, List.map_cons, List.find?_cons]
    rcases List.mem_cons.1 hs with rfl | hs
    · simp only [hname, Option.map_some]
    · simp only [((hfirst s hs).symm).names name hname]
      exact ih hs

theorem placed_congr {slots : List (Slot κ σ δ)} {ts ts' : List (Tree κ σ)}
    (hlength : ts.length = ts'.length) (hsame : ∀ (j : Nat) (s : Slot κ σ δ) t t', slots[j]? = some s →
      ts[j]? = some t → ts'[j]? = some t' → s.ReadsSame t t') (draft last : δ) :
    Placed M slots ts draft last ↔ Placed M slots ts' draft last := by
  induction slots generalizing ts ts' draft with
  | nil =>
    rw [Placed, Placed]
    refine and_congr_left fun _ => imp_congr_right fun _ => ?_
    rw [← List.length_eq_zero_iff, hlength, List.length_eq_zero_iff]
  | cons s slots ih =>
    cases ts with
    | nil =>
      obtain rfl := List.length_eq_zero_iff.1 hlength.symm
      exact Iff.rfl
    | cons t ts =>
      cases ts' with
      | nil => cases hlength
      | cons t' ts' =>
        rw [Placed, Placed]
        refine exists_congr fun b => and_congr (hsame 0 s t t' rfl rfl rfl b) ?_
        exact ih (Nat.succ.inj hlength) (fun j => hsame (j + 1)) _

end Slot

namespace Meaning
variable {M : Meaning κ σ}

theorem values_perm {es es' : List (κ × Tree κ σ)} (hperm : es.Perm es') (names : List String) :
    (M.values names es).Perm (M.values names es') :=
  (hperm.filter _).map _

theorem values_forall₂ {R : Tree κ σ → Tree κ σ → Prop} {names : List String}
    {es es' : List (κ × Tree κ σ)} (h : List.Forall₂ (fun e e' => e.1 = e'.1 ∧
      ((M.name e.1).any names.contains = true → R e.2 e'.2)) es es') :
    List.Forall₂ R (M.values names es) (M.values names es') := by
  induction h with
  | nil => exact .nil
  | @cons e e' es es' h _ ih =>
    obtain ⟨k, t⟩ := e
    obtain ⟨_, t'⟩ := e'
    obtain ⟨rfl, ht⟩ := h
    rw [values_cons, values_cons]
    cases hname : (M.name k).any names.contains with
    | true => exact .cons (ht hname) ih
    | false => exact ih

namespace Built
variable {α δ : Type} {slots : List (Slot κ σ δ)} {P : Tree κ σ → α → Prop}

/-- Entries may change places, and the values of fields may change as long as they are read the same. -/
theorem congr_map (h : M.Built slots P) {es es' es'' : List (κ × Tree κ σ)} (hperm : es.Perm es')
    (hsame : List.Forall₂ (fun e e' => e.1 = e'.1 ∧ ∀ s ∈ slots,
      (M.name e.1).any s.names.contains = true → s.ReadsSame e.2 e'.2) es' es'') (a : α) :
    P (.map es) a ↔ P (.map es'') a := by
  obtain ⟨empty, finish, hgathers⟩ := h.gathers
  rw [hgathers, hgathers]
  refine exists_congr fun draft => and_congr_left fun _ => ?_
  refine forall₂_congr fun s hs => (settled_perm (values_perm hperm s.names)).trans (settled_congr ?_)
  exact values_forall₂ (hsame.imp fun e e' he => ⟨he.1, he.2 s hs⟩)

theorem congr_list (h : M.Built slots P) {ts ts' : List (Tree κ σ)} (hlength : ts.length = ts'.length)
    (hsame : ∀ (j : Nat) (s : Slot κ σ δ) t t', slots[j]? = some s → ts[j]? = some t → ts'[j]? = some t' →
      s.ReadsSame t t') (a : α) : P (.list ts) a ↔ P (.list ts') a := by
  obtain ⟨empty, finish, hgathers⟩ := h.gathers
  rw [hgathers, hgathers]
  refine exists_congr fun draft => and_congr_left fun _ => and_congr_right fun _ => ?_
  exact Slot.placed_congr hlength hsame empty draft

end Built

variable (M) in
/-- Whatever values of the shape are read as, the two trees are read as the same. -/
def SameReadings (sh : Shape) (t t' : Tree κ σ) : Prop :=
  ∀ ⦃α : Type⦄ ⦃P : Tree κ σ → α → Prop⦄, M.ReadAs sh P → ∀ a, P t a ↔ P t' a

theorem SameReadings.refl (sh : Shape) (t : Tree κ σ) : M.SameReadings sh t t :=
  fun _ _ _ _ => Iff.rfl

theorem SameReadings.leaf {t t' : Tree κ σ} (ht : ∀ v, t ≠ .scalar v) (ht' : ∀ v, t' ≠ .scalar v) :
    M.SameReadings .leaf t t' := by
  intro α P h a
  generalize hsh : Shape.leaf = sh at h
  cases h with
  | text =>
    exact iff_of_false (fun ⟨v, hv, _⟩ => ht v hv) (fun ⟨v, hv, _⟩ => ht' v hv)
  | flag =>
    exact iff_of_false (fun ⟨v, hv, _⟩ => ht v hv) (fun ⟨v, hv, _⟩ => ht' v hv)
  | _ => cases hsh

/-- What is read as a list is read as a list of what some relation says. -/
theorem ReadAs.elim_list {sh : Shape} {α : Type} {P : Tree κ σ → α → Prop} (h : M.ReadAs (.list sh) P)
    {motive : ∀ {α : Type}, (Tree κ σ → α → Prop) → Prop}
    (list : ∀ {β : Type} {Q : Tree κ σ → β → Prop}, M.ReadAs sh Q → motive (M.IsList Q)) :
    motive P := by
  generalize hsh : Shape.list sh = sh' at h
  cases h with
  | list hQ =>
    cases hsh
    exact list hQ
  | _ => cases hsh

theorem ReadAs.elim_item {α : Type} {P : Tree κ σ → α → Prop} (h : M.ReadAs .item P)
    {motive : ∀ {α : Type}, (Tree κ σ → α → Prop) → Prop} (item : motive M.IsItem) : motive P := by
  generalize hsh : Shape.item = sh at h
  cases h with
  | item => exact item
  | _ => simp [Shape.item, Shape.group, Shape.theme, Shape.site] at hsh

theorem ReadAs.elim_group {α : Type} {P : Tree κ σ → α → Prop} (h : M.ReadAs .group P)
    {motive : ∀ {α : Type}, (Tree κ σ → α → Prop) → Prop} (group : motive M.IsGroup) : motive P := by
  generalize hsh : Shape.group = sh at h
  cases h with
  | group => exact group
  | _ => simp [Shape.item, Shape.group, Shape.theme, Shape.site] at hsh

theorem ReadAs.elim_theme {α : Type} {P : Tree κ σ → α → Prop} (h : M.ReadAs .theme P)
    {motive : ∀ {α : Type}, (Tree κ σ → α → Prop) → Prop} (theme : motive M.IsTheme) : motive P := by
  generalize hsh : Shape.theme = sh at h
  cases h with
  | theme => exact theme
  | _ => simp [Shape.item, Shape.group, Shape.theme, Shape.site] at hsh

theorem SameReadings.list {sh : Shape} {ts ts' : List (Tree κ σ)}
    (h : List.Forall₂ (M.SameReadings sh) ts ts') : M.SameReadings (.list sh) (.list ts) (.list ts') := by
  intro α P hP
  refine hP.elim_list (motive := fun P => ∀ a, P (.list ts) a ↔ P (.list ts') a) fun {β Q} hQ as => ?_
  change List.Forall₂ Q ts as ↔ List.Forall₂ Q ts' as
  induction h generalizing as with
  | nil => exact Iff.rfl
  | cons ht _ ih =>
    rw [List.forall₂_cons_left_iff, List.forall₂_cons_left_iff]
    refine exists_congr fun a => exists_congr fun as' => and_congr (ht hQ a) (and_congr_left fun _ => ?_)
    exact ih as'

theorem SameReadings.list_of_map {sh : Shape} {es es' : List (κ × Tree κ σ)} :
    M.SameReadings (.list sh) (.map es) (.map es') := by
  intro α P hP
  exact hP.elim_list (motive := fun P => ∀ a, P (.map es) a ↔ P (.map es') a) fun _ _ => Iff.rfl

theorem SameReadings.places {fs : List (List String × Shape)} {ts ts' : List (Tree κ σ)}
    (hlength : ts.length = ts'.length) (hsame : ∀ (j : Nat) (sh : Shape) t t',
      Shape.placed? fs j = some sh → ts[j]? = some t → ts'[j]? = some t' → M.SameReadings sh t t') :
    M.SameReadings (.record fs) (.list ts) (.list ts') := by
  intro α P hP
  obtain ⟨δ, slots, rfl, hbuilt⟩ := hP.built
  refine hbuilt.congr_list hlength fun j s t t' hs ht ht' => ?_
  have hplaced := Slot.placed?_fields slots j
  rw [Nat.zero_add, hs] at hplaced
  exact hsame j s.shape t t' hplaced ht ht' (hbuilt.reads s (List.mem_of_getElem? hs))

theorem Built.field? {α δ : Type} {slots : List (Slot κ σ δ)} {P : Tree κ σ → α → Prop}
    (h : M.Built slots P) {s : Slot κ σ δ} (hs : s ∈ slots) {k : κ}
    (hk : (M.name k).any s.names.contains = true) : M.field? (Slot.fields slots) k = some s.shape := by
  cases hname : M.name k with
  | none =>
    rw [hname] at hk
    cases hk
  | some name =>
    rw [hname] at hk
    rw [field?_of_name hname]
    exact Slot.named?_fields h.apart hs hk

theorem SameReadings.entries {fs : List (List String × Shape)} {es es' es'' : List (κ × Tree κ σ)}
    (hperm : es.Perm es') (hsame : List.Forall₂ (fun e e' => e.1 = e'.1 ∧
      ∀ sh, M.field? fs e.1 = some sh → M.SameReadings sh e.2 e'.2) es' es'') :
    M.SameReadings (.record fs) (.map es) (.map es'') := by
  intro α P hP
  obtain ⟨δ, slots, rfl, hbuilt⟩ := hP.built
  refine hbuilt.congr_map hperm (hsame.imp fun e e' he => ⟨he.1, fun s hs hk => ?_⟩)
  exact he.2 s.shape (hbuilt.field? hs hk) (hbuilt.reads s hs)

/-! ## Parts of what is read -/

variable (M) in
/-- The tree is read as something. -/
def Readable (sh : Shape) (t : Tree κ σ) : Prop :=
  ∃ (α : Type) (P : Tree κ σ → α → Prop), M.ReadAs sh P ∧ ∃ a, P t a

theorem Readable.element {sh : Shape} {ts : List (Tree κ σ)} {t : Tree κ σ}
    (h : M.Readable (.list sh) (.list ts)) (ht : t ∈ ts) : M.Readable sh t := by
  obtain ⟨α, P, hP, a, ha⟩ := h
  revert a
  refine hP.elim_list (motive := fun P => ∀ a, P (.list ts) a → _) fun {β Q} hQ as has => ?_
  have hall : List.Forall₂ Q ts as := has
  induction hall with
  | nil => cases ht
  | @cons _ b _ _ hb _ ih =>
    rcases List.mem_cons.1 ht with rfl | ht
    · exact ⟨β, Q, hQ, b, hb⟩
    · exact ih ht ‹_›

theorem exists_of_placed {δ : Type} {slots : List (Slot κ σ δ)} {ts : List (Tree κ σ)} {draft last : δ}
    (h : Slot.Placed M slots ts draft last) {j : Nat} {s : Slot κ σ δ} {t : Tree κ σ}
    (hs : slots[j]? = some s) (ht : ts[j]? = some t) : ∃ b, s.holds t b := by
  induction slots generalizing ts draft j with
  | nil => cases hs
  | cons s' slots ih =>
    cases ts with
    | nil => cases ht
    | cons t' ts =>
      obtain ⟨b, hb, hrest⟩ := h
      cases j with
      | zero =>
        cases hs
        cases ht
        exact ⟨b, hb⟩
      | succ j => exact ih hrest hs ht

theorem Readable.place {fs : List (List String × Shape)} {sh : Shape} {ts : List (Tree κ σ)} {j : Nat}
    {t : Tree κ σ} (h : M.Readable (.record fs) (.list ts)) (hplace : Shape.placed? fs j = some sh)
    (ht : ts[j]? = some t) : M.Readable sh t := by
  obtain ⟨α, P, hP, a, ha⟩ := h
  obtain ⟨δ, slots, rfl, hbuilt⟩ := hP.built
  obtain ⟨empty, finish, hgathers⟩ := hbuilt.gathers
  obtain ⟨draft, ⟨-, hplaced⟩, -⟩ := (hgathers _ _).1 ha
  rw [← Nat.zero_add j, Slot.placed?_fields, Option.map_eq_some_iff] at hplace
  obtain ⟨s, hs, rfl⟩ := hplace
  exact ⟨s.β, s.holds, hbuilt.reads s (List.mem_of_getElem? hs), exists_of_placed hplaced hs ht⟩

theorem exists_slot_of_named? {δ : Type} {slots : List (Slot κ σ δ)} {name : String} {sh : Shape}
    (h : Shape.named? (Slot.fields slots) name = some sh) :
    ∃ s ∈ slots, s.names.contains name = true ∧ s.shape = sh := by
  rw [Shape.named?, Option.map_eq_some_iff] at h
  obtain ⟨f, hf, hsh⟩ := h
  obtain ⟨s, hs, heq⟩ := List.mem_map.1 (List.mem_of_find?_eq_some hf)
  have hcontains := List.find?_some hf
  rw [← heq] at hcontains hsh
  exact ⟨s, hs, hcontains, hsh⟩

theorem values_append (names : List String) (es es' : List (κ × Tree κ σ)) :
    M.values names (es ++ es') = M.values names es ++ M.values names es' := by
  rw [values, List.filter_append, List.map_append]
  rfl

theorem ne_of_values_eq_nil {names : List String} {es : List (κ × Tree κ σ)}
    (h : M.values names es = []) {name : String} (hname : names.contains name = true)
    {e : κ × Tree κ σ} (he : e ∈ es) : M.name e.1 ≠ some name := by
  intro heq
  rw [values, List.map_eq_nil_iff, List.filter_eq_nil_iff] at h
  apply h e he
  rw [heq]
  exact hname

/-- An entry for a field is the only one of its name. -/
theorem Readable.entry {fs : List (List String × Shape)} {name : String} {sh : Shape} {k : κ}
    {t : Tree κ σ} {es es' : List (κ × Tree κ σ)}
    (h : M.Readable (.record fs) (.map (es ++ (k, t) :: es'))) (hname : M.name k = some name)
    (hnamed : Shape.named? fs name = some sh) :
    M.Readable sh t ∧ ∀ e ∈ es ++ es', M.name e.1 ≠ some name := by
  obtain ⟨α, P, hP, a, ha⟩ := h
  obtain ⟨δ, slots, rfl, hbuilt⟩ := hP.built
  obtain ⟨empty, finish, hgathers⟩ := hbuilt.gathers
  obtain ⟨draft, hsettled, -⟩ := (hgathers _ _).1 ha
  obtain ⟨s, hs, hcontains, rfl⟩ := exists_slot_of_named? hnamed
  have hvalues : M.values s.names (es ++ (k, t) :: es') =
      M.values s.names es ++ t :: M.values s.names es' := by
    rw [values_append, values_cons, hname, Option.any_some, if_pos hcontains]
  rcases hsettled s hs with ⟨hnone, -⟩ | ⟨t', b, hone, -, hb, -⟩
  · rw [hvalues] at hnone
    simp at hnone
  · rw [hvalues, List.append_eq_singleton_iff] at hone
    simp only [reduceCtorEq, and_false, or_false, List.cons.injEq] at hone
    obtain ⟨hes, rfl, hes'⟩ := hone
    refine ⟨⟨s.β, s.holds, hbuilt.reads s hs, b, hb⟩, fun e he => ?_⟩
    rcases List.mem_append.1 he with he | he
    · exact ne_of_values_eq_nil hes hcontains he
    · exact ne_of_values_eq_nil hes' hcontains he

end Meaning

end SiteNav.Document
