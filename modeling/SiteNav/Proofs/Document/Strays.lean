import Mathlib.Tactic.Common
import SiteNav.Proofs.Document.Tree

/-!
# Entries that nobody asks for

A shape says what is asked of a tree: a list of values of one shape, or a structure with its fields,
which stands in a map or in a list in declared order. The entries of such maps that are no field of
theirs are strays. Main statements: without its strays a tree has none, and a tree that grows by strays
of any kind stays the same without them.
-/
namespace SiteNav.Document

inductive Shape where
  | leaf
  | list (element : Shape)
  /-- Each field has its names and a shape. -/
  | record (fields : List (List String × Shape))

namespace Shape

def item : Shape :=
  record [(["text"], leaf), (["link"], leaf)]

def group : Shape :=
  record [(["text"], leaf), (["collapsible"], leaf), (["items"], list item)]

def theme : Shape :=
  record [(["sidebar"], list group)]

def site : Shape :=
  record [(["title"], leaf), (["description"], leaf), (["basePath", "base_path", "base"], leaf),
    (["sidebar"], list group), (["themeConfig", "theme_config"], theme)]

/-- The shape of the field that answers to a name. -/
def named? (fs : List (List String × Shape)) (name : String) : Option Shape :=
  (fs.find? (·.1.contains name)).map (·.2)

/-- The shape of the field at a position. -/
def placed? (fs : List (List String × Shape)) (i : Nat) : Option Shape :=
  fs[i]?.map (·.2)

end Shape

namespace Meaning
variable {κ σ : Type} (M : Meaning κ σ)

/-- The shape of the field that a key stands for. -/
def field? (fs : List (List String × Shape)) (k : κ) : Option Shape :=
  (M.name k).bind (Shape.named? fs)

mutual

/-- The paths of the strays of a tree at some path, in the order in which they stand. -/
def strays : Shape → Path → Tree κ σ → List Path
  | .list sh, p, .list ts => straysOfItems (fun _ => some sh) p 0 ts
  | .record fs, p, .list ts => straysOfItems (Shape.placed? fs) p 0 ts
  | .record fs, p, .map es => straysOfEntries fs p es
  | _, _, _ => []

def straysOfItems (shapes : Nat → Option Shape) (p : Path) : Nat → List (Tree κ σ) → List Path
  | _, [] => []
  | i, t :: ts =>
    (match shapes i with
      | some sh => strays sh (.index i :: p) t
      | none => []) ++ straysOfItems shapes p (i + 1) ts

def straysOfEntries (fs : List (List String × Shape)) (p : Path) : List (κ × Tree κ σ) → List Path
  | [] => []
  | (k, t) :: es =>
    (match M.name k with
      | some name =>
        match Shape.named? fs name with
        | some sh => strays sh (.key name :: p) t
        | none => [.key name :: p]
      | none => []) ++ straysOfEntries fs p es

end

mutual

/-- A tree without its strays. -/
def prune : Shape → Tree κ σ → Tree κ σ
  | .list sh, .list ts => .list (pruneItems (fun _ => some sh) 0 ts)
  | .record fs, .list ts => .list (pruneItems (Shape.placed? fs) 0 ts)
  | .record fs, .map es => .map (pruneEntries fs es)
  | _, t => t

def pruneItems (shapes : Nat → Option Shape) : Nat → List (Tree κ σ) → List (Tree κ σ)
  | _, [] => []
  | i, t :: ts =>
    (match shapes i with
      | some sh => prune sh t
      | none => t) :: pruneItems shapes (i + 1) ts

def pruneEntries (fs : List (List String × Shape)) : List (κ × Tree κ σ) → List (κ × Tree κ σ)
  | [] => []
  | (k, t) :: es =>
    match M.field? fs k with
    | some sh => (k, prune sh t) :: pruneEntries fs es
    | none => pruneEntries fs es

end

mutual

/-- All keys of structures spell names, and all strays are acceptable. -/
def Legible : Shape → Tree κ σ → Prop
  | .list sh, .list ts => LegibleItems (fun _ => some sh) 0 ts
  | .record fs, .list ts => LegibleItems (Shape.placed? fs) 0 ts
  | .record fs, .map es => LegibleEntries fs es
  | _, _ => True

def LegibleItems (shapes : Nat → Option Shape) : Nat → List (Tree κ σ) → Prop
  | _, [] => True
  | i, t :: ts =>
    (match shapes i with
      | some sh => Legible sh t
      | none => True) ∧ LegibleItems shapes (i + 1) ts

def LegibleEntries (fs : List (List String × Shape)) : List (κ × Tree κ σ) → Prop
  | [] => True
  | (k, t) :: es =>
    (match M.name k with
      | some name =>
        match Shape.named? fs name with
        | some sh => Legible sh t
        | none => M.accepts t = true
      | none => False) ∧ LegibleEntries fs es

end

/-- Strays are put in, one after the other and each somewhere in a structure that stands in a map. -/
inductive Grows : Shape → Tree κ σ → Tree κ σ → Prop
  | refl (sh : Shape) (t : Tree κ σ) : Grows sh t t
  | trans {sh : Shape} {t t' t'' : Tree κ σ} : Grows sh t t' → Grows sh t' t'' → Grows sh t t''
  | stray {fs : List (List String × Shape)} {k : κ} {name : String} {t : Tree κ σ}
      (es es' : List (κ × Tree κ σ)) : M.name k = some name → Shape.named? fs name = none →
      M.accepts t = true → Grows (.record fs) (.map (es ++ es')) (.map (es ++ (k, t) :: es'))
  | entry {fs : List (List String × Shape)} {k : κ} {sh : Shape} {t t' : Tree κ σ}
      (es es' : List (κ × Tree κ σ)) : M.field? fs k = some sh → Grows sh t t' →
      Grows (.record fs) (.map (es ++ (k, t) :: es')) (.map (es ++ (k, t') :: es'))
  | place {fs : List (List String × Shape)} {sh : Shape} {t t' : Tree κ σ}
      (ts ts' : List (Tree κ σ)) : Shape.placed? fs ts.length = some sh → Grows sh t t' →
      Grows (.record fs) (.list (ts ++ t :: ts')) (.list (ts ++ t' :: ts'))
  | element {sh : Shape} {t t' : Tree κ σ} (ts ts' : List (Tree κ σ)) : Grows sh t t' →
      Grows (.list sh) (.list (ts ++ t :: ts')) (.list (ts ++ t' :: ts'))

variable {M}

theorem field?_of_name {fs : List (List String × Shape)} {k : κ} {name : String}
    (h : M.name k = some name) : M.field? fs k = Shape.named? fs name := by
  rw [field?, h, Option.bind_some]

/-- Nothing is asked of values beyond the last field. -/
theorem items_of_forall_none {shapes : Nat → Option Shape} (p : Path) (ts : List (Tree κ σ)) {i : Nat}
    (h : ∀ j, shapes (i + j) = none) :
    M.straysOfItems shapes p i ts = [] ∧ M.LegibleItems shapes i ts := by
  induction ts generalizing i with
  | nil => simp only [straysOfItems, LegibleItems, and_self]
  | cons t ts ih =>
    have hi : shapes i = none := h 0
    have hrest : ∀ j, shapes (i + 1 + j) = none := fun j => by
      rw [Nat.add_assoc]
      exact h (1 + j)
    simp only [straysOfItems, LegibleItems, hi, List.nil_append, true_and]
    exact ih hrest

section Pruned

mutual

/-- A tree without its strays has no strays. -/
theorem strays_prune : ∀ (sh : Shape) (p : Path) (t : Tree κ σ), M.strays sh p (M.prune sh t) = []
  | .leaf, _, _ => by simp only [prune, strays]
  | .list sh, p, .list ts => by
    simp only [prune, strays]
    exact straysOfItems_pruneItems _ p 0 ts
  | .record fs, p, .list ts => by
    simp only [prune, strays]
    exact straysOfItems_pruneItems _ p 0 ts
  | .record fs, p, .map es => by
    simp only [prune, strays]
    exact straysOfEntries_pruneEntries fs p es
  | .list _, _, .scalar _ | .list _, _, .map _ | .record _, _, .scalar _ => by
    simp only [prune, strays]

theorem straysOfItems_pruneItems (shapes : Nat → Option Shape) (p : Path) :
    ∀ (i : Nat) (ts : List (Tree κ σ)),
      M.straysOfItems shapes p i (M.pruneItems shapes i ts) = []
  | _, [] => by simp only [pruneItems, straysOfItems]
  | i, t :: ts => by
    have ih := straysOfItems_pruneItems shapes p (i + 1) ts
    cases h : shapes i with
    | none => simp only [pruneItems, straysOfItems, h, ih, List.append_nil]
    | some sh => simp only [pruneItems, straysOfItems, h, ih, strays_prune, List.append_nil]

theorem straysOfEntries_pruneEntries (fs : List (List String × Shape)) (p : Path) :
    ∀ es : List (κ × Tree κ σ), M.straysOfEntries fs p (M.pruneEntries fs es) = []
  | [] => by simp only [pruneEntries, straysOfEntries]
  | (k, t) :: es => by
    have ih := straysOfEntries_pruneEntries fs p es
    cases h : M.field? fs k with
    | none => simpa only [pruneEntries, h] using ih
    | some sh =>
      obtain ⟨name, hname, hsh⟩ := Option.bind_eq_some_iff.1 h
      simp only [pruneEntries, h, straysOfEntries, hname, hsh, ih, strays_prune, List.append_nil]

end

mutual

theorem Legible.prune : ∀ (sh : Shape) (t : Tree κ σ), M.Legible sh t → M.Legible sh (M.prune sh t)
  | .leaf, _, _ => by simp only [Meaning.prune, Legible]
  | .list sh, .list ts, h => by
    simp only [Meaning.prune, Legible] at h ⊢
    exact LegibleItems.prune _ 0 ts h
  | .record fs, .list ts, h => by
    simp only [Meaning.prune, Legible] at h ⊢
    exact LegibleItems.prune _ 0 ts h
  | .record fs, .map es, h => by
    simp only [Meaning.prune, Legible] at h ⊢
    exact LegibleEntries.prune fs es h
  | .list _, .scalar _, _ | .list _, .map _, _ | .record _, .scalar _, _ => by
    simp only [Meaning.prune, Legible]

theorem LegibleItems.prune (shapes : Nat → Option Shape) : ∀ (i : Nat) (ts : List (Tree κ σ)),
    M.LegibleItems shapes i ts → M.LegibleItems shapes i (M.pruneItems shapes i ts)
  | _, [], _ => by simp only [pruneItems, LegibleItems]
  | i, t :: ts, h => by
    simp only [LegibleItems] at h
    have ih := LegibleItems.prune shapes (i + 1) ts h.2
    cases hsh : shapes i with
    | none => simp only [pruneItems, LegibleItems, hsh, ih, true_and]
    | some sh =>
      simp only [hsh] at h
      simp only [pruneItems, LegibleItems, hsh, ih, and_true]
      exact Legible.prune sh t h.1

theorem LegibleEntries.prune (fs : List (List String × Shape)) : ∀ es : List (κ × Tree κ σ),
    M.LegibleEntries fs es → M.LegibleEntries fs (M.pruneEntries fs es)
  | [], _ => by simp only [pruneEntries, LegibleEntries]
  | (k, t) :: es, h => by
    simp only [LegibleEntries] at h
    have ih := LegibleEntries.prune fs es h.2
    cases hfield : M.field? fs k with
    | none => simpa only [pruneEntries, hfield] using ih
    | some sh =>
      obtain ⟨name, hname, hsh⟩ := Option.bind_eq_some_iff.1 hfield
      simp only [hname, hsh] at h
      simp only [pruneEntries, hfield, LegibleEntries, hname, hsh, ih, and_true]
      exact Legible.prune sh t h.1

end

end Pruned

section Growing

theorem pruneItems_append (shapes : Nat → Option Shape) (ts ts' : List (Tree κ σ)) (i : Nat) :
    M.pruneItems shapes i (ts ++ ts') =
      M.pruneItems shapes i ts ++ M.pruneItems shapes (i + ts.length) ts' := by
  induction ts generalizing i with
  | nil => simp [pruneItems]
  | cons t ts ih => simp [pruneItems, ih, Nat.add_assoc, Nat.add_comm]

theorem pruneEntries_append (fs : List (List String × Shape)) (es es' : List (κ × Tree κ σ)) :
    M.pruneEntries fs (es ++ es') = M.pruneEntries fs es ++ M.pruneEntries fs es' := by
  induction es with
  | nil => simp [pruneEntries]
  | cons e es ih =>
    obtain ⟨k, t⟩ := e
    cases h : M.field? fs k <;> simp [pruneEntries, h, ih]

theorem legibleItems_append (shapes : Nat → Option Shape) (ts ts' : List (Tree κ σ)) (i : Nat) :
    M.LegibleItems shapes i (ts ++ ts') ↔
      M.LegibleItems shapes i ts ∧ M.LegibleItems shapes (i + ts.length) ts' := by
  induction ts generalizing i with
  | nil => simp [LegibleItems]
  | cons t ts ih => simp [LegibleItems, ih, Nat.add_assoc, Nat.add_comm, and_assoc]

theorem legibleEntries_append (fs : List (List String × Shape)) (es es' : List (κ × Tree κ σ)) :
    M.LegibleEntries fs (es ++ es') ↔ M.LegibleEntries fs es ∧ M.LegibleEntries fs es' := by
  induction es with
  | nil => simp [LegibleEntries]
  | cons e es ih =>
    obtain ⟨k, t⟩ := e
    simp [LegibleEntries, ih, and_assoc]

namespace Grows

/-- What a tree is without its strays does not change when it grows. -/
theorem prune_eq {sh : Shape} {t t' : Tree κ σ} (h : M.Grows sh t t') :
    M.prune sh t' = M.prune sh t := by
  induction h with
  | refl => rfl
  | trans _ _ ih ih' => rw [ih', ih]
  | stray es es' hname hfield _ =>
    simp only [prune, pruneEntries_append, pruneEntries, field?_of_name hname, hfield]
  | entry es es' hfield _ ih =>
    simp only [prune, pruneEntries_append, pruneEntries, hfield, ih]
  | place ts ts' hplace _ ih =>
    simp only [prune, pruneItems_append, pruneItems, Nat.zero_add, hplace, ih]
  | element ts ts' _ ih =>
    simp only [prune, pruneItems_append, pruneItems, ih]

theorem legible {sh : Shape} {t t' : Tree κ σ} (h : M.Grows sh t t') (ht : M.Legible sh t) :
    M.Legible sh t' := by
  induction h with
  | refl => exact ht
  | trans _ _ ih ih' => exact ih' (ih ht)
  | stray es es' hname hfield haccepts =>
    simp only [Legible, legibleEntries_append, LegibleEntries, hname, hfield] at ht ⊢
    exact ⟨ht.1, haccepts, ht.2⟩
  | @entry fs k sh _ _ es es' hfield _ ih =>
    obtain ⟨name, hname, hsh⟩ := Option.bind_eq_some_iff.1 hfield
    simp only [Legible, legibleEntries_append, LegibleEntries, hname, hsh] at ht ⊢
    exact ⟨ht.1, ih ht.2.1, ht.2.2⟩
  | place ts ts' hplace _ ih =>
    simp only [Legible, legibleItems_append, LegibleItems, Nat.zero_add, hplace] at ht ⊢
    exact ⟨ht.1, ih ht.2.1, ht.2.2⟩
  | element ts ts' _ ih =>
    simp only [Legible, legibleItems_append, LegibleItems] at ht ⊢
    exact ⟨ht.1, ih ht.2.1, ht.2.2⟩

end Grows

end Growing

section WellFormed

mutual

/-- In a well-formed tree nothing can be in a reader's way. -/
theorem WellFormed.legible : ∀ (sh : Shape) (t : Tree κ σ), M.WellFormed t → M.Legible sh t
  | .leaf, _, _ => by simp only [Legible]
  | .list sh, .list ts, h => by
    simp only [Legible]
    exact legibleItems_of_wellFormed _ 0 ts h
  | .record fs, .list ts, h => by
    simp only [Legible]
    exact legibleItems_of_wellFormed _ 0 ts h
  | .record fs, .map es, h => by
    simp only [Legible]
    exact legibleEntries_of_wellFormed fs es h
  | .list _, .scalar _, _ | .list _, .map _, _ | .record _, .scalar _, _ => by
    simp only [Legible]

theorem legibleItems_of_wellFormed (shapes : Nat → Option Shape) :
    ∀ (i : Nat) (ts : List (Tree κ σ)),
      Tree.allItems (fun k => (M.name k).isSome) M.isSound ts = true → M.LegibleItems shapes i ts
  | _, [], _ => by simp only [LegibleItems]
  | i, t :: ts, h => by
    rw [Tree.allItems, Bool.and_eq_true] at h
    refine ⟨?_, legibleItems_of_wellFormed shapes (i + 1) ts h.2⟩
    cases shapes i with
    | none => trivial
    | some sh => exact WellFormed.legible sh t h.1

theorem legibleEntries_of_wellFormed (fs : List (List String × Shape)) :
    ∀ es : List (κ × Tree κ σ),
      Tree.allEntries (fun k => (M.name k).isSome) M.isSound es = true → M.LegibleEntries fs es
  | [], _ => by simp only [LegibleEntries]
  | (k, t) :: es, h => by
    rw [Tree.allEntries, Bool.and_eq_true, Bool.and_eq_true] at h
    obtain ⟨name, hname⟩ := Option.isSome_iff_exists.1 h.1.1
    refine ⟨?_, legibleEntries_of_wellFormed fs es h.2⟩
    simp only [hname]
    cases Shape.named? fs name with
    | none => exact WellFormed.accepts h.1.2
    | some sh => exact WellFormed.legible sh t h.1.2

end

end WellFormed

end Meaning

end SiteNav.Document
