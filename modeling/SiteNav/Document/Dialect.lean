import SiteNav.Document.Misfit
import SiteNav.Document.Path

/-!
# Document dialects

A dialect says how the nodes of one document format are looked at: which of them are lists and maps,
which scalars serve as texts and flags, and how a misfit at some place is reported. Readers of sites
are written once over any dialect. The monad `m` carries the failures of the format; a dialect that
tracks also records the paths of the entries that nobody asked for.
-/
namespace SiteNav.Document

/-- A node as a reader sees it. An empty plain value is `void`: it serves as a list or a map without
content where one is called for. -/
inductive View (ν κ : Type) where
  | scalar
  | void
  | list (items : List ν)
  | map (entries : List (κ × ν))

/-- The place of a misfit: a value, the end of a structure, or a key in a map. -/
inductive Place (ν κ : Type) where
  | value (n : ν)
  | closing (n : ν)
  | entry (n : ν) (k : κ)
  | document

structure Dialect (m : Type → Type) (ν κ : Type) where
  /-- The node that stands at a place once references are followed, and its view. -/
  view : ν → m (ν × View ν κ)
  text : Path → ν → m String
  /-- A scalar read as an optional flag; it stands in the first of the two nodes. -/
  flag : Path → ν → ν → m (Option Bool)
  key : Path → ν → κ → m Step
  mistyped : {α : Type} → Path → ν → Expected → m α
  reject : {α : Type} → Path → Place ν κ → Misfit → m α
  /-- Nothing more is read from this list or map: it has to be well formed up to its end. -/
  close : ν → m Unit
  /-- All fields of a positional structure are read, and these elements are left. -/
  surplus : ν → List ν → m Unit
  skip : ν → m Unit
  note : Path → m Unit
  /-- A structure may be written as the list of its fields. -/
  positional : Bool

namespace Dialect
variable {m : Type → Type} [Monad m] {ν κ : Type}

/-- The same dialect, keeping the paths of unasked entries in the order they are met. -/
def tracking (d : Dialect m ν κ) : Dialect (StateT (List Path) m) ν κ where
  view n := liftM (d.view n)
  text p n := liftM (d.text p n)
  flag p holder n := liftM (d.flag p holder n)
  key p n k := liftM (d.key p n k)
  mistyped p n e := liftM (m := m) (d.mistyped p n e)
  reject p l e := liftM (m := m) (d.reject p l e)
  close n := liftM (d.close n)
  surplus n xs := liftM (d.surplus n xs)
  skip n := liftM (d.skip n)
  note p := do
    liftM (d.note p)
    modify (· ++ [p])
  positional := d.positional

end Dialect

end SiteNav.Document
