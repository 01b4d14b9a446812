import SiteNav.Proofs.Document.Readings

/-!
# Structures as lists of their fields

A group, an item or a themed sidebar may be written as the list of its fields in declared order instead
of the map of them. Main statement: wherever in a tree such a map becomes a list, the tree is read as the
same, and its strays keep their order; only in paths through the structure positions stand for names.
-/
namespace SiteNav.Document
variable {κ σ : Type}

/-- The position of the field that a key names. Positions stay as they are. -/
def Step.placed (sh : Shape) : Step → Step
  | .key name =>
    match sh with
    | .record fs => .index (fs.findIdx (·.1.contains name))
    | _ => .key name
  | s => s

/-- In a path that leads through a structure at `q`, the step below it is placed. -/
def Path.placed (q : Path) (sh : Shape) : Path → Path
  | [] => []
  | s :: p => if p = q then s.placed sh :: p else s :: placed q sh p

theorem Path.placed_append (q : Path) (sh : Shape) (r : Path) (s : Step) :
    Path.placed q sh (r ++ s :: q) = r ++ s.placed sh :: q := by
  induction r with
  | nil => rw [List.nil_append, placed, if_pos rfl, List.nil_append]
  | cons s' r ih =>
    have hlonger : r ++ s :: q ≠ q := fun h => by
      have := congrArg List.length h
      simp only [List.length_append, List.length_cons] at this
      omega
    rw [List.cons_append, placed, if_neg hlonger, ih, List.cons_append]

/-- Paths that do not lead through the structure stay as they are. -/
theorem Path.placed_eq_self {q r : Path} (sh : Shape) (h : ¬ q <:+ r) : Path.placed q sh r = r := by
  induction r with
  | nil => rfl
  | cons s r ih =>
    have hr : ¬ q <:+ r := fun hsuffix => h (hsuffix.trans (List.suffix_cons s r))
    have hne : r ≠ q := fun heq => hr (heq ▸ List.suffix_rfl)
    rw [placed, if_neg hne, ih hr]

namespace Meaning
variable {M : Meaning κ σ}

/-! ## Strays and their paths -/

/-- The paths of the strays of a tree go on from the path of the tree. -/
theorem strays_append (t : Tree κ σ) :
    ∀ (sh : Shape) (p q : Path), M.strays sh (p ++ q) t = (M.strays sh p t).map (· ++ q) := by
  have hitems {ts : List (Tree κ σ)} (ih : ∀ t ∈ ts, ∀ (sh : Shape) (p q : Path),
      M.strays sh (p ++ q) t = (M.strays sh p t).map (· ++ q)) (shapes : Nat → Option Shape)
      (p q : Path) (i : Nat) :
      M.straysOfItems shapes (p ++ q) i ts = (M.straysOfItems shapes p i ts).map (· ++ q) := by
    induction ts generalizing i with
    | nil => simp only [straysOfItems, List.map_nil]
    | cons t ts ihts =>
      rw [List.forall_mem_cons] at ih
      rw [straysOfItems, straysOfItems, List.map_append, ihts ih.2]
      cases shapes i with
      | none => rfl
      | some sh => exact congrArg (· ++ _) (ih.1 sh (.index i :: p) q)
  induction t using Tree.induct with
  | scalar v =>
    intro sh p q
    cases sh <;> simp only [strays, List.map_nil]
  | list ts ih =>
    intro sh p q
    cases sh with
    | leaf => simp only [strays, List.map_nil]
    | list sh =>
      rw [strays, strays]
      exact hitems ih _ p q 0
    | record fs =>
      rw [strays, strays]
      exact hitems ih _ p q 0
  | map es ih =>
    intro sh p q
    cases sh with
    | leaf => simp only [strays, List.map_nil]
    | list sh => simp only [strays, List.map_nil]
    | record fs =>
      rw [strays, strays]
      induction es with
      | nil => simp only [straysOfEntries, List.map_nil]
      | cons e es ihes =>
        obtain ⟨k, t⟩ := e
        rw [List.forall_mem_cons] at ih
        rw [straysOfEntries, straysOfEntries, List.map_append, ihes ih.2]
        cases M.name k with
        | none => rfl
        | some name =>
          dsimp only
          cases Shape.named? fs name with
          | none => rfl
          | some sh => exact congrArg (· ++ _) (ih.1 sh (.key name :: p) q)

theorem suffix_of_mem_strays {sh : Shape} {p r : Path} {t : Tree κ σ} (h : r ∈ M.strays sh p t) :
    p <:+ r := by
  rw [← List.nil_append p, strays_append, List.mem_map] at h
  obtain ⟨r', -, rfl⟩ := h
  exact List.suffix_append r' p

/-- A stray among entries stands at one of them or below it. -/
theorem suffix_of_mem_straysOfEntries {fs : List (List String × Shape)} {p r : Path}
    {es : List (κ × Tree κ σ)} (h : r ∈ M.straysOfEntries fs p es) :
    ∃ e ∈ es, ∃ name, M.name e.1 = some name ∧ .key name :: p <:+ r := by
  induction es with
  | nil => simp only [straysOfEntries, List.not_mem_nil] at h
  | cons e es ih =>
    obtain ⟨k, t⟩ := e
    rw [straysOfEntries, List.mem_append] at h
    rcases h with h | h
    · cases hname : M.name k with
      | none => simp only [hname, List.not_mem_nil] at h
      | some name =>
        refine ⟨_, List.mem_cons_self, name, hname, ?_⟩
        simp only [hname] at h
        cases hnamed : Shape.named? fs name with
        | none =>
          simp only [hnamed, List.mem_singleton] at h
          exact h ▸ List.suffix_rfl
        | some sh =>
          simp only [hnamed] at h
          exact suffix_of_mem_strays h
    · obtain ⟨e', he', hr⟩ := ih h
      exact ⟨e', List.mem_cons_of_mem _ he', hr⟩

theorem suffix_of_mem_straysOfItems {shapes : Nat → Option Shape} {p r : Path}
    {ts : List (Tree κ σ)} {i : Nat} (h : r ∈ M.straysOfItems shapes p i ts) :
    ∃ j, i ≤ j ∧ j < i + ts.length ∧ .index j :: p <:+ r := by
  induction ts generalizing i with
  | nil => simp only [straysOfItems, List.not_mem_nil] at h
  | cons t ts ih =>
    rw [straysOfItems, List.mem_append] at h
    rcases h with h | h
    · refine ⟨i, Nat.le_refl i, by simp, ?_⟩
      cases hshape : shapes i with
      | none => simp only [hshape, List.not_mem_nil] at h
      | some sh =>
        simp only [hshape] at h
        exact suffix_of_mem_strays h
    · obtain ⟨j, hij, hj, hr⟩ := ih h
      rw [List.length_cons]
      exact ⟨j, by omega, by omega, hr⟩

theorem straysOfEntries_append (fs : List (List String × Shape)) (p : Path)
    (es es' : List (κ × Tree κ σ)) :
    M.straysOfEntries fs p (es ++ es') = M.straysOfEntries fs p es ++ M.straysOfEntries fs p es' := by
  induction es with
  | nil => rw [List.nil_append, straysOfEntries, List.nil_append]
  | cons e es ih =>
    obtain ⟨k, t⟩ := e
    rw [List.cons_append, straysOfEntries, straysOfEntries, ih, List.append_assoc]

theorem straysOfItems_append (shapes : Nat → Option Shape) (p : Path) (ts ts' : List (Tree κ σ))
    (i : Nat) : M.straysOfItems shapes p i (ts ++ ts') =
      M.straysOfItems shapes p i ts ++ M.straysOfItems shapes p (i + ts.length) ts' := by
  induction ts generalizing i with
  | nil => simp only [straysOfItems, List.nil_append, List.length_nil, Nat.add_zero]
  | cons t ts ih =>
    rw [List.cons_append, straysOfItems, straysOfItems, ih, List.length_cons, List.append_assoc,
      Nat.add_assoc i 1, Nat.add_comm 1]

section Entry
variable {fs : List (List String × Shape)} {k : κ} {name : String} {sh : Shape}
  (es es' : List (κ × Tree κ σ))

theorem strays_entry (hname : M.name k = some name) (hnamed : Shape.named? fs name = some sh) (p : Path)
    (t : Tree κ σ) : M.strays (.record fs) p (.map (es ++ (k, t) :: es')) =
      M.straysOfEntries fs p es ++ (M.strays sh (.key name :: p) t ++ M.straysOfEntries fs p es') := by
  rw [strays, straysOfEntries_append, straysOfEntries, hname]
  simp only [hnamed]

theorem legible_entry (hname : M.name k = some name) (hnamed : Shape.named? fs name = some sh)
    (t : Tree κ σ) : M.Legible (.record fs) (.map (es ++ (k, t) :: es')) ↔
      M.LegibleEntries fs es ∧ M.Legible sh t ∧ M.LegibleEntries fs es' := by
  rw [Legible, legibleEntries_append, LegibleEntries, hname]
  simp only [hnamed]

end Entry

/-! ## One structure as a list -/

variable (M) in
/-- All keys of a map are among these names. -/
def OnlyHas (names : List String) (es : List (κ × Tree κ σ)) : Prop :=
  ∀ e ∈ es, ∃ name ∈ names, M.name e.1 = some name

variable (M) in
/-- The list of the fields that a map holds, each once and with no stray among them. A flag that the map
leaves out is open. -/
inductive Listed : Shape → Tree κ σ → Tree κ σ → Prop
  | item {es : List (κ × Tree κ σ)} {t l : Tree κ σ} : M.OnlyHas ["text", "link"] es →
      M.values ["text"] es = [t] → M.values ["link"] es = [l] →
      Listed .item (.map es) (.list [t, l])
  | group {es : List (κ × Tree κ σ)} {t c i : Tree κ σ} :
      M.OnlyHas ["text", "collapsible", "items"] es → M.values ["text"] es = [t] →
      M.values ["collapsible"] es = [c] ∨ M.values ["collapsible"] es = [] ∧ M.IsFlag c none →
      M.values ["items"] es = [i] → Listed .group (.map es) (.list [t, c, i])
  | theme {es : List (κ × Tree κ σ)} {s : Tree κ σ} : M.OnlyHas ["sidebar"] es →
      M.values ["sidebar"] es = [s] → Listed .theme (.map es) (.list [s])

/-- The entries of such a map have strays below one field only, as the values of the others have no parts
of interest. -/
theorem entries_of_sole (fs : List (List String × Shape)) (field : String) (sh : Shape)
    {names : List String}
    (hfs : ∀ name ∈ names, Shape.named? fs name = some (if name = field then sh else .leaf))
    (p : Path) {es : List (κ × Tree κ σ)} (hes : M.OnlyHas names es) :
    M.straysOfEntries fs p es = (M.values [field] es).flatMap (M.strays sh (.key field :: p)) ∧
      (M.LegibleEntries fs es ↔ ∀ t ∈ M.values [field] es, M.Legible sh t) := by
  induction es with
  | nil =>
    refine ⟨by rw [straysOfEntries]; rfl, ?_⟩
    rw [LegibleEntries]
    exact iff_of_true trivial nofun
  | cons e es ih =>
    obtain ⟨k, t⟩ := e
    obtain ⟨⟨name, hmem, hname⟩, hes⟩ := List.forall_mem_cons.1 hes
    obtain ⟨hstrays, hlegible⟩ := ih hes
    rw [straysOfEntries, LegibleEntries, values_cons, hstrays, hlegible, hname]
    simp only [hfs name hmem, Option.any_some]
    by_cases heq : name = field
    · subst heq
      simp
    · simp [heq, strays, Legible]

theorem mayBeFlag_iff {ts : List (Tree κ σ)} {c : Tree κ σ}
    (h : ts = [c] ∨ ts = [] ∧ M.IsFlag c none) (b : Option Bool) : M.MayBeFlag ts b ↔ M.IsFlag c b := by
  rcases h with rfl | ⟨rfl, v, rfl, hv⟩
  · simp [MayBeFlag]
  · simp [MayBeFlag, IsFlag, hv, eq_comm]

theorem Listed.sameReadings (hpositional : M.positional = true) {sh : Shape} {t t' : Tree κ σ}
    (h : M.Listed sh t t') : M.SameReadings sh t t' := by
  have hend : M.MayEnd [] := ⟨hpositional, fun _ => rfl⟩
  intro α P hP
  cases h with
  | item _ ht hl =>
    refine hP.elim_item (motive := fun P => ∀ a, P (.map _) a ↔ P (.list _) a) fun it => ?_
    constructor
    · rintro ⟨ht', htext, hl', hlink⟩
      cases ht.symm.trans ht'
      cases hl.symm.trans hl'
      exact .list hend htext hlink
    · rintro (_ | ⟨_, htext, hlink⟩)
      exact .map ht htext hl hlink
  | group _ ht hc hi =>
    refine hP.elim_group (motive := fun P => ∀ a, P (.map _) a ↔ P (.list _) a) fun g => ?_
    constructor
    · rintro ⟨ht', htext, hc', hi', hitems⟩
      cases ht.symm.trans ht'
      cases hi.symm.trans hi'
      exact .list hend htext ((mayBeFlag_iff hc _).1 hc') hitems
    · rintro (_ | ⟨_, htext, hflag, hitems⟩)
      exact .map ht htext ((mayBeFlag_iff hc _).2 hflag) hi hitems
  | theme _ hs =>
    refine hP.elim_theme (motive := fun P => ∀ a, P (.map _) a ↔ P (.list _) a) fun gs => ?_
    constructor
    · rintro ⟨hs', hgroups⟩
      cases hs.symm.trans hs'
      exact .list hend hgroups
    · rintro (_ | ⟨_, hgroups⟩)
      exact .map hs hgroups

theorem strays_placed (sh sh' : Shape) (s : Step) (p : Path) (t : Tree κ σ) :
    (M.strays sh (s :: p) t).map (Path.placed p sh') = M.strays sh (s.placed sh' :: p) t := by
  have hbelow (s : Step) : M.strays sh (s :: p) t = (M.strays sh [] t).map (· ++ s :: p) :=
    strays_append t sh [] (s :: p)
  rw [hbelow, hbelow, List.map_map]
  exact List.map_congr_left fun r _ => Path.placed_append p sh' r s

/-- Below the list of the fields stands what stood below the map, at positions in place of names. -/
theorem Listed.strays {sh : Shape} {t t' : Tree κ σ} (h : M.Listed sh t t') (p : Path) :
    (M.Legible sh t ↔ M.Legible sh t') ∧
      M.strays sh p t' = (M.strays sh p t).map (Path.placed p sh) := by
  cases h with
  | item hes ht _ =>
    obtain ⟨hstrays, hlegible⟩ := entries_of_sole [(["text"], .leaf), (["link"], .leaf)] "text" .leaf
      (by simp [Shape.named?]) p hes
    simp [Shape.item, Meaning.strays, Legible, hstrays, hlegible, straysOfItems, LegibleItems,
      Shape.placed?, ht]
  | group hes _ _ hi =>
    obtain ⟨hstrays, hlegible⟩ := entries_of_sole
      [(["text"], .leaf), (["collapsible"], .leaf), (["items"], .list .item)] "items" (.list .item)
      (by simp [Shape.named?]) p hes
    have hplaced := strays_placed (M := M) (.list .item) .group (.key "items") p
    simp [Shape.group, Meaning.strays, Legible, hstrays, hlegible, straysOfItems, LegibleItems,
      Shape.placed?, hi]
    exact (hplaced _).symm
  | theme hes hs =>
    obtain ⟨hstrays, hlegible⟩ := entries_of_sole [(["sidebar"], .list .group)] "sidebar" (.list .group)
      (by simp [Shape.named?]) p hes
    have hplaced := strays_placed (M := M) (.list .group) .theme (.key "sidebar") p
    simp [Shape.theme, Meaning.strays, Legible, hstrays, hlegible, straysOfItems, LegibleItems,
      Shape.placed?, hs]
    exact (hplaced _).symm

/-! ## A list somewhere in a tree -/

variable (M) in
/-- In the second tree the structure of this shape at the path `q` of the first is a list. -/
inductive Inside (inner : Shape) (q : Path) : Shape → Path → Tree κ σ → Tree κ σ → Prop
  | here {t t' : Tree κ σ} : M.Listed inner t t' → Inside inner q inner q t t'
  | element {sh : Shape} {p : Path} {t t' : Tree κ σ} (ts ts' : List (Tree κ σ)) :
      Inside inner q sh (.index ts.length :: p) t t' →
      Inside inner q (.list sh) p (.list (ts ++ t :: ts')) (.list (ts ++ t' :: ts'))
  | place {fs : List (List String × Shape)} {sh : Shape} {p : Path} {t t' : Tree κ σ}
      (ts ts' : List (Tree κ σ)) : Shape.placed? fs ts.length = some sh →
      Inside inner q sh (.index ts.length :: p) t t' →
      Inside inner q (.record fs) p (.list (ts ++ t :: ts')) (.list (ts ++ t' :: ts'))
  | entry {fs : List (List String × Shape)} {k : κ} {name : String} {sh : Shape} {p : Path}
      {t t' : Tree κ σ} (es es' : List (κ × Tree κ σ)) : M.name k = some name →
      Shape.named? fs name = some sh → Inside inner q sh (.key name :: p) t t' →
      Inside inner q (.record fs) p (.map (es ++ (k, t) :: es')) (.map (es ++ (k, t') :: es'))

theorem forall₂_middle {α : Type} {R : α → α → Prop} (hrefl : ∀ a, R a a) (as bs : List α) {a a' : α}
    (h : R a a') : List.Forall₂ R (as ++ a :: bs) (as ++ a' :: bs) :=
  List.rel_append (List.forall₂_same.2 fun a _ => hrefl a)
    (.cons h (List.forall₂_same.2 fun a _ => hrefl a))

namespace Inside
variable {inner sh : Shape} {p q : Path} {t t' : Tree κ σ}

theorem sameReadings (hpositional : M.positional = true) (h : M.Inside inner q sh p t t') :
    M.SameReadings sh t t' := by
  induction h with
  | here h => exact h.sameReadings hpositional
  | element ts ts' _ ih =>
    exact .list (forall₂_middle (.refl _) ts ts' ih)
  | @place fs sh _ t t' ts ts' hplace _ ih =>
    refine .places (by simp only [List.length_append, List.length_cons]) fun j sh' u u' hu hj hj' => ?_
    rcases Nat.lt_trichotomy j ts.length with hlt | rfl | hgt
    · rw [List.getElem?_append_left hlt] at hj hj'
      cases hj.symm.trans hj'
      exact .refl _ _
    · simp only [List.getElem?_append_right (Nat.le_refl _), Nat.sub_self, List.getElem?_cons_zero,
        Option.some.injEq] at hj hj'
      cases hplace.symm.trans hu
      rw [← hj, ← hj']
      exact ih
    · obtain ⟨i, rfl⟩ := Nat.exists_eq_add_of_lt hgt
      rw [List.getElem?_append_right (by omega), show ts.length + i + 1 - ts.length = i + 1 by omega,
        List.getElem?_cons_succ] at hj hj'
      cases hj.symm.trans hj'
      exact .refl _ _
  | entry es es' hname hnamed _ ih =>
    refine .entries (.refl _) (forall₂_middle (fun e => ⟨rfl, fun _ _ => .refl _ _⟩) es es'
      ⟨rfl, fun sh hsh => ?_⟩)
    rw [field?_of_name hname, hnamed] at hsh
    cases hsh
    exact ih

theorem legible (h : M.Inside inner q sh p t t') : M.Legible sh t ↔ M.Legible sh t' := by
  induction h with
  | here h => exact (h.strays q).1
  | element ts ts' _ ih =>
    rw [Legible, Legible, legibleItems_append, legibleItems_append, LegibleItems, LegibleItems]
    exact and_congr_right fun _ => and_congr_left fun _ => ih
  | place ts ts' hplace _ ih =>
    rw [Legible, Legible, legibleItems_append, legibleItems_append, LegibleItems, LegibleItems,
      Nat.zero_add, hplace]
    exact and_congr_right fun _ => and_congr_left fun _ => ih
  | entry es es' hname hnamed _ ih =>
    rw [legible_entry es es' hname hnamed, legible_entry es es' hname hnamed, ih]

theorem suffix (h : M.Inside inner q sh p t t') : p <:+ q := by
  induction h with
  | here => exact List.suffix_rfl
  | element _ _ _ ih => exact (List.suffix_cons _ _).trans ih
  | place _ _ _ _ ih => exact (List.suffix_cons _ _).trans ih
  | entry _ _ _ _ _ ih => exact (List.suffix_cons _ _).trans ih

theorem not_suffix {s s' : Step} {r : Path} (h : M.Inside inner q sh (s :: p) t t') (hne : s' ≠ s)
    (hr : s' :: p <:+ r) : ¬ q <:+ r := by
  intro hq
  have heq : s' :: p = s :: p :=
    (List.suffix_of_suffix_length_le hr (h.suffix.trans hq) (Nat.le_refl _)).eq_of_length rfl
  exact hne (List.cons.inj heq).1

theorem map_placed {rs : List Path} (h : ∀ r ∈ rs, ¬ q <:+ r) : rs.map (Path.placed q inner) = rs := by
  have hself : rs.map (Path.placed q inner) = rs.map id :=
    List.map_congr_left fun r hr => Path.placed_eq_self inner (h r hr)
  rw [hself, List.map_id]

theorem straysOfItems {shapes : Nat → Option Shape} {ts ts' : List (Tree κ σ)}
    (hshape : shapes ts.length = some sh) (h : M.Inside inner q sh (.index ts.length :: p) t t')
    (ih : M.strays sh (.index ts.length :: p) t' =
      (M.strays sh (.index ts.length :: p) t).map (Path.placed q inner)) :
    M.straysOfItems shapes p 0 (ts ++ t' :: ts') =
      (M.straysOfItems shapes p 0 (ts ++ t :: ts')).map (Path.placed q inner) := by
  have hbefore : (M.straysOfItems shapes p 0 ts).map (Path.placed q inner) =
      M.straysOfItems shapes p 0 ts := by
    refine map_placed fun r hr => ?_
    obtain ⟨j, -, hj, hsuffix⟩ := suffix_of_mem_straysOfItems hr
    refine h.not_suffix (fun heq => ?_) hsuffix
    cases heq
    omega
  have hafter : (M.straysOfItems shapes p (ts.length + 1) ts').map (Path.placed q inner) =
      M.straysOfItems shapes p (ts.length + 1) ts' := by
    refine map_placed fun r hr => ?_
    obtain ⟨j, hj, -, hsuffix⟩ := suffix_of_mem_straysOfItems hr
    refine h.not_suffix (fun heq => ?_) hsuffix
    cases heq
    omega
  rw [straysOfItems_append, straysOfItems_append, Meaning.straysOfItems, Meaning.straysOfItems,
    Nat.zero_add, List.map_append, List.map_append, hbefore, hafter, hshape]
  simp only [ih]

/-- By induction on the way to the structure: beside it no path leads through it. -/
theorem strays (h : M.Inside inner q sh p t t') (hread : M.Readable sh t) :
    M.strays sh p t' = (M.strays sh p t).map (Path.placed q inner) := by
  induction h with
  | here h => exact (h.strays q).2
  | element ts ts' hinside ih =>
    rw [Meaning.strays, Meaning.strays]
    exact hinside.straysOfItems rfl (ih (hread.element (by simp)))
  | place ts ts' hplace hinside ih =>
    rw [Meaning.strays, Meaning.strays]
    exact hinside.straysOfItems hplace (ih (hread.place hplace (by simp)))
  | @entry fs _ name _ p _ _ es es' hname hnamed hinside ih =>
    obtain ⟨hentry, hothers⟩ := hread.entry hname hnamed
    have hbeside {es : List (κ × Tree κ σ)} (hes : ∀ e ∈ es, M.name e.1 ≠ some name) :
        (M.straysOfEntries fs p es).map (Path.placed q inner) = M.straysOfEntries fs p es := by
      refine map_placed fun r hr => ?_
      obtain ⟨e, he, name', hname', hsuffix⟩ := suffix_of_mem_straysOfEntries hr
      refine hinside.not_suffix (fun heq => hes e he ?_) hsuffix
      rw [hname', Step.key.inj heq]
    have hbefore := hbeside fun e he => hothers e (List.mem_append_left es' he)
    have hafter := hbeside fun e he => hothers e (List.mem_append_right es he)
    rw [strays_entry es es' hname hnamed, strays_entry es es' hname hnamed, List.map_append,
      List.map_append, hbefore, hafter, ih hentry]

end Inside

end Meaning

end SiteNav.Document
