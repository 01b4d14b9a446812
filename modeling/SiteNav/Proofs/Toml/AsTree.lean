import SiteNav.Proofs.Document.Comparison
import SiteNav.Proofs.Document.Tree
import SiteNav.Toml.Dialect

/-!
# TOML documents as trees

The entries of a map stand in the order of their keys. A date counts as a map that holds it. A number
that is too large for its type is not sound. Main statement: readers see the tree in the document.
-/
namespace SiteNav.Toml
open Document Decimal

abbrev Tree := Document.Tree String Scalar

/-- A number that fits some type, or anything but a number. -/
def Scalar.isSound : Scalar → Bool
  | .floating none => false
  | .integer n => fitsSigned 64 n || fitsUnsigned 64 n || fitsSigned 128 n || fitsUnsigned 128 n
  | _ => true

def meaning : Meaning String Scalar where
  name := some
  text
    | .text s => some s
    | _ => none
  flag
    | .bool b => some (some b)
    | _ => none
  guise
    | .date => some "$__toml_private_datetime"
    | _ => none
  isSound := Scalar.isSound
  positional := true
  exact := false
  name_guise s k h := by
    cases s <;> cases h
    rfl

namespace Node

mutual

def tree : Node → Tree
  | scalar _ value => .scalar value
  | array _ _ items => .list (itemTrees items)
  | table _ _ entries => .map (entryTrees entries)

def itemTrees : List Node → List Tree
  | [] => []
  | n :: rest => tree n :: itemTrees rest

def entryTrees : List (String × Node) → List (String × Tree)
  | [] => []
  | (k, n) :: rest => (k, tree n) :: entryTrees rest

end

theorem itemTrees_eq (ns : List Node) : itemTrees ns = ns.map tree := by
  induction ns with
  | nil => rfl
  | cons n ns ih => rw [itemTrees, ih, List.map_cons]

theorem entryTrees_eq (ns : List (String × Node)) :
    entryTrees ns = ns.map fun e => (e.1, e.2.tree) := by
  induction ns with
  | nil => rfl
  | cons n ns ih =>
    obtain ⟨k, n⟩ := n
    rw [entryTrees, ih, List.map_cons]

/-- A scalar is reported as something exactly if it is sound. -/
theorem exists_found_iff (span : Span) (value : Scalar) :
    (∃ f, (scalar span value).found = .ok f) ↔ value.isSound = true := by
  cases value with
  | text s => simp [found, Scalar.isSound]
  | bool b => simp [found, Scalar.isSound]
  | date => simp [found, Scalar.isSound]
  | floating x => cases x <;> simp [found, Scalar.isSound]
  | integer n =>
    simp only [found, Scalar.isSound]
    split_ifs <;> simp_all

theorem skip_scalar (span : Span) (value : Scalar) :
    (scalar span value).skip = .ok () ↔ value.isSound = true := by
  rw [← exists_found_iff span value, skip]
  cases h : (scalar span value).found with
  | ok f => exact iff_of_true rfl ⟨f, rfl⟩
  | error e => exact iff_of_false nofun nofun

mutual

theorem skip_iff : ∀ n : Node, n.skip = .ok () ↔ meaning.accepts n.tree = true
  | scalar span value => skip_scalar span value
  | array _ _ items => skipItems_iff items
  | table _ _ entries => skipEntries_iff entries

theorem skipItems_iff : ∀ ns : List Node,
    skipItems ns = .ok () ↔ Tree.allItems (fun _ => true) meaning.isSound (itemTrees ns) = true
  | [] => iff_of_true rfl rfl
  | n :: ns => by
    rw [itemTrees, Tree.allItems, Bool.and_eq_true, ← skipItems_iff ns]
    have hn := skip_iff n
    rw [Meaning.accepts] at hn
    rw [← hn, skipItems]
    cases n.skip <;> simp [bind, Except.bind]

theorem skipEntries_iff : ∀ ns : List (String × Node),
    skipEntries ns = .ok () ↔ Tree.allEntries (fun _ => true) meaning.isSound (entryTrees ns) = true
  | [] => iff_of_true rfl rfl
  | (_, n) :: ns => by
    rw [entryTrees, Tree.allEntries, Bool.and_eq_true, Bool.true_and, ← skipEntries_iff ns]
    have hn := skip_iff n
    rw [Meaning.accepts] at hn
    rw [← hn, skipEntries]
    cases n.skip <;> simp [bind, Except.bind]

end

end Node

theorem dialect_alike : dialect.Alike (.except Error) (fun _ n t => n.tree = t) (fun _ _ => True)
    (fun k k' => k = k') meaning.dialect where
  view {i n t} h := by
    subst h
    cases n with
    | scalar span value =>
      cases value with
      | date => exact .ok ⟨trivial, .map (.cons ⟨rfl, rfl⟩ .nil)⟩
      | text s => exact .ok ⟨trivial, .scalar⟩
      | integer n => exact .ok ⟨trivial, .scalar⟩
      | floating x => exact .ok ⟨trivial, .scalar⟩
      | bool b => exact .ok ⟨trivial, .scalar⟩
    | array span ofTables items =>
      refine .ok ⟨trivial, .list ?_⟩
      rw [Node.itemTrees_eq]
      exact List.forall₂_map_right_iff.2 (List.forall₂_same.2 fun _ _ => rfl)
    | table span origin entries =>
      refine .ok ⟨trivial, .map ?_⟩
      rw [Node.entryTrees_eq]
      exact List.forall₂_map_right_iff.2 (List.forall₂_same.2 fun _ _ => ⟨rfl, rfl⟩)
  text {i n t} p p' h := by
    subst h
    cases n with
    | scalar span value =>
      cases value with
      | text s => exact .ok rfl
      | date => exact .error _
      | integer n => exact .error _
      | floating x => exact .error _
      | bool b => exact .error _
    | array span ofTables items => exact .error _
    | table span origin entries => exact .error _
  flag {i n t} p p' holder holder' h := by
    subst h
    cases n with
    | scalar span value =>
      cases value with
      | bool b => exact .ok rfl
      | date => exact .error _
      | integer n => exact .error _
      | floating x => exact .error _
      | text s => exact .error _
    | array span ofTables items => exact .error _
    | table span origin entries => exact .error _
  key p p' n n' h := by
    subst h
    exact .ok rfl
  mistyped _ _ _ _ _ _ := .error _
  reject _ _ _ place _ _ := by cases place <;> exact .error _
  close _ := .ok rfl
  surplus _ _ := .ok rfl
  skip {i n t} h := by
    subst h
    have haccepts : meaning.dialect.skip n.tree = if meaning.accepts n.tree then some () else none := rfl
    have hskip : dialect.skip n = n.skip := rfl
    rw [hskip, haccepts]
    cases h : n.skip with
    | ok =>
      rw [if_pos ((Node.skip_iff n).1 h)]
      exact .ok rfl
    | error e =>
      rw [if_neg fun hn => by rw [(Node.skip_iff n).2 hn] at h; cases h]
      exact .error e
  note _ := .ok rfl
  positional := rfl

end SiteNav.Toml
