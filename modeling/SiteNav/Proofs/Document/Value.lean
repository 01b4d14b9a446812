import Mathlib.Data.List.Perm.Basic
import SiteNav.Document.Content
import SiteNav.Proofs.Document.Tree

/-!
# Values without a schema

Where nothing in particular is asked for, a document is a value: a tree of lists, maps and data, of
which a content is one. The order of the entries of a map does not count.
-/
namespace SiteNav.Document

/-- What a scalar is where nothing in particular is asked for. -/
inductive Datum where
  | null
  | flag (b : Bool)
  | number
  | text (s : String)
  /-- A date, or what is no value at all. -/
  | other
  deriving DecidableEq

abbrev Value := Tree Datum Datum

namespace Tree
variable {κ κ' σ σ' : Type}

section Relabel
variable (key : κ → κ') (scalar : σ → σ')

mutual

def relabel : Tree κ σ → Tree κ' σ'
  | .scalar v => .scalar (scalar v)
  | .list ts => .list (relabelItems ts)
  | .map es => .map (relabelEntries es)

def relabelItems : List (Tree κ σ) → List (Tree κ' σ')
  | [] => []
  | t :: ts => relabel t :: relabelItems ts

def relabelEntries : List (κ × Tree κ σ) → List (κ' × Tree κ' σ')
  | [] => []
  | (k, t) :: es => (key k, relabel t) :: relabelEntries es

end

theorem relabelItems_eq (ts : List (Tree κ σ)) :
    relabelItems key scalar ts = ts.map (relabel key scalar) := by
  induction ts with
  | nil => rfl
  | cons t ts ih => rw [relabelItems, ih, List.map_cons]

theorem relabelEntries_eq (es : List (κ × Tree κ σ)) :
    relabelEntries key scalar es = es.map fun e => (key e.1, e.2.relabel key scalar) := by
  induction es with
  | nil => rfl
  | cons e es ih => rw [relabelEntries, ih, List.map_cons]

end Relabel

/-- The same tree up to the order of the entries of its maps. -/
inductive Rearranged : Tree κ σ → Tree κ σ → Prop
  | scalar (v : σ) : Rearranged (.scalar v) (.scalar v)
  | list {ts ts' : List (Tree κ σ)} (h : List.Forall₂ Rearranged ts ts') :
      Rearranged (.list ts) (.list ts')
  | map {es es' es'' : List (κ × Tree κ σ)} (hperm : es.Perm es')
      (hkeys : es'.map (·.1) = es''.map (·.1))
      (h : List.Forall₂ Rearranged (es'.map (·.2)) (es''.map (·.2))) :
      Rearranged (.map es) (.map es'')

/-- The same entry up to the order of entries below it. -/
def SameEntry (e e' : κ × Tree κ σ) : Prop :=
  e.1 = e'.1 ∧ e.2.Rearranged e'.2

theorem Rearranged.of_sameEntry {es es' es'' : List (κ × Tree κ σ)} (hperm : es.Perm es')
    (h : List.Forall₂ SameEntry es' es'') : Rearranged (.map es) (.map es'') := by
  refine .map hperm ?_ (List.forall₂_map_left_iff.2 (List.forall₂_map_right_iff.2 (h.imp fun _ _ h => h.2)))
  rw [← List.forall₂_eq_eq_eq]
  exact List.forall₂_map_left_iff.2 (List.forall₂_map_right_iff.2 (h.imp fun _ _ h => h.1))

end Tree

namespace Value

mutual

def ofContent : Content → Value
  | .flag b => .scalar (.flag b)
  | .text s => .scalar (.text s)
  | .list cs => .list (ofItems cs)
  | .map es => .map (ofEntries es)

def ofItems : List Content → List Value
  | [] => []
  | c :: cs => ofContent c :: ofItems cs

def ofEntries : List (String × Content) → List (Datum × Value)
  | [] => []
  | (k, c) :: es => (.text k, ofContent c) :: ofEntries es

end

end Value

/-- All keys of a content, at any depth, have some property. -/
inductive Content.AllKeys (p : String → Prop) : Content → Prop
  | flag (b : Bool) : AllKeys p (.flag b)
  | text (s : String) : AllKeys p (.text s)
  | list {cs : List Content} (h : ∀ c ∈ cs, AllKeys p c) : AllKeys p (.list cs)
  | map {es : List (String × Content)} (hkeys : ∀ e ∈ es, p e.1) (h : ∀ e ∈ es, AllKeys p e.2) :
      AllKeys p (.map es)

end SiteNav.Document
