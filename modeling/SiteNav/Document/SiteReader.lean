import SiteNav.Document.Dialect
import SiteNav.Site

/-!
# Reading a site from a document

A structure is a map of its fields in any order, or in some dialects the list of them in declared
order. The first misfit wins: a bad value or a repeated field where it is met, then missing fields in
declared order, and last the place of the sidebar. Other entries of a map are noted and skipped.
-/
namespace SiteNav.Document
variable {m : Type → Type} [Monad m] {ν κ : Type}

structure Field (m : Type → Type) (ν δ : Type) where
  name : String
  aliases : List String := []
  optional : Bool := false
  isSet : δ → Bool
  /-- Reads the value at some path, which stands in the first of the two nodes. -/
  read : Path → ν → ν → δ → m δ

def Field.answersTo {δ : Type} (f : Field m ν δ) (name : String) : Bool :=
  name == f.name || f.aliases.contains name

/-- A structure: its fields in declared order, the empty draft, and the value of a full draft or the
name of the first field it lacks. -/
structure Layout (m : Type → Type) (ν δ α : Type) where
  record : Record
  fields : List (Field m ν δ)
  empty : δ
  finish : δ → Except String α

namespace Layout
variable {δ α : Type} (d : Dialect m ν κ) (lay : Layout m ν δ α)

def readEntries (p : Path) (n : ν) : List (κ × ν) → δ → m δ
  | [], draft => pure draft
  | (k, v) :: rest, draft => do
    let step ← d.key p n k
    match lay.fields.find? (·.answersTo step.plain) with
    | some f =>
      if f.isSet draft then d.reject p (.entry n k) (.repeated f.name)
      else readEntries p n rest (← f.read (step :: p) n v draft)
    | none =>
      d.note (step :: p)
      d.skip v
      readEntries p n rest draft

def readElements (p : Path) (n : ν) : List (Field m ν δ) → Nat → List ν → δ → m δ
  | [], _, rest, draft => do
    d.surplus n rest
    pure draft
  | f :: fs, i, v :: rest, draft => do
    readElements p n fs (i + 1) rest (← f.read (.index i :: p) n v draft)
  | f :: fs, i, [], draft => do
    d.close n
    if f.optional then readElements p n fs (i + 1) [] draft
    else d.reject p (.closing n) (.tooShort i lay.record)

def conclude (p : Path) (n : ν) (draft : δ) : m α :=
  match lay.finish draft with
  | .ok a => pure a
  | .error name => d.reject p (.closing n) (.missing name)

def read (p : Path) (n : ν) : m α := do
  let (n, view) ← d.view n
  match view with
  | .map entries =>
    let draft ← lay.readEntries d p n entries lay.empty
    d.close n
    lay.conclude d p n draft
  | .void => lay.conclude d p n lay.empty
  | .list items =>
    if d.positional then
      lay.conclude d p n (← lay.readElements d p n lay.fields 0 items lay.empty)
    else d.mistyped p n (.record lay.record)
  | .scalar => d.mistyped p n (.record lay.record)

end Layout

section Lists
variable (d : Dialect m ν κ) {α : Type} (readOne : Path → ν → m α)

def readItemsFrom (p : Path) : Nat → List ν → m (List α)
  | _, [] => pure []
  | i, v :: rest => do
    let a ← readOne (.index i :: p) v
    return a :: (← readItemsFrom p (i + 1) rest)

def readList (p : Path) (n : ν) : m (List α) := do
  let (n, view) ← d.view n
  match view with
  | .list items =>
    let values ← readItemsFrom readOne p 0 items
    d.close n
    return values
  | .void => return []
  | _ => d.mistyped p n .list

end Lists

structure ItemDraft where
  text : Option String := none
  link : Option String := none

def ItemDraft.finish : ItemDraft → Except String Item
  | ⟨none, _⟩ => .error "text"
  | ⟨_, none⟩ => .error "link"
  | ⟨some t, some l⟩ => .ok ⟨t, l⟩

structure GroupDraft where
  text : Option String := none
  collapsible : Option (Option Bool) := none
  items : Option (List Item) := none

def GroupDraft.finish : GroupDraft → Except String Group
  | ⟨none, _, _⟩ => .error "text"
  | ⟨_, _, none⟩ => .error "items"
  | ⟨some t, c, some is⟩ => .ok ⟨t, c.join, is⟩

structure ThemeDraft where
  sidebar : Option (List Group) := none

def ThemeDraft.finish : ThemeDraft → Except String (List Group)
  | ⟨none⟩ => .error "sidebar"
  | ⟨some gs⟩ => .ok gs

structure SiteDraft where
  title : Option String := none
  description : Option String := none
  basePath : Option String := none
  sidebar : Option (List Group) := none
  themeSidebar : Option (List Group) := none

/-- A site whose sidebar may stand in either of two places. -/
structure RawSite where
  title : String
  description : String
  basePath : String
  sidebar : Option (List Group)
  themeSidebar : Option (List Group)

def SiteDraft.finish : SiteDraft → Except String RawSite
  | ⟨none, _, _, _, _⟩ => .error "title"
  | ⟨_, none, _, _, _⟩ => .error "description"
  | ⟨_, _, none, _, _⟩ => .error "basePath"
  | ⟨some t, some d, some b, s, ts⟩ => .ok ⟨t, d, b, s, ts⟩

def RawSite.settle (r : RawSite) : Except Misfit Site :=
  match r.sidebar, r.themeSidebar with
  | some gs, none | none, some gs => .ok ⟨r.title, r.description, r.basePath, gs⟩
  | some _, some _ => .error .twoSidebars
  | none, none => .error .noSidebar

namespace Dialect
variable (d : Dialect m ν κ)

def itemLayout : Layout m ν ItemDraft Item where
  record := .item
  fields := [
    { name := "text", isSet := (·.text.isSome)
      read := fun p _ n t => return { t with text := some (← d.text p n) } },
    { name := "link", isSet := (·.link.isSome)
      read := fun p _ n t => return { t with link := some (← d.text p n) } }]
  empty := {}
  finish := ItemDraft.finish

def readItem (p : Path) (n : ν) : m Item :=
  d.itemLayout.read d p n

def groupLayout : Layout m ν GroupDraft Group where
  record := .group
  fields := [
    { name := "text", isSet := (·.text.isSome)
      read := fun p _ n t => return { t with text := some (← d.text p n) } },
    { name := "collapsible", optional := true, isSet := (·.collapsible.isSome)
      read := fun p holder n t => return { t with collapsible := some (← d.flag p holder n) } },
    { name := "items", isSet := (·.items.isSome)
      read := fun p _ n t => return { t with items := some (← readList d d.readItem p n) } }]
  empty := {}
  finish := GroupDraft.finish

def readGroup (p : Path) (n : ν) : m Group :=
  d.groupLayout.read d p n

def readSidebar (p : Path) (n : ν) : m (List Group) :=
  readList d d.readGroup p n

def themeLayout : Layout m ν ThemeDraft (List Group) where
  record := .theme
  fields := [
    { name := "sidebar", isSet := (·.sidebar.isSome)
      read := fun p _ n t => return { t with sidebar := some (← d.readSidebar p n) } }]
  empty := {}
  finish := ThemeDraft.finish

def siteLayout : Layout m ν SiteDraft RawSite where
  record := .site
  fields := [
    { name := "title", isSet := (·.title.isSome)
      read := fun p _ n t => return { t with title := some (← d.text p n) } },
    { name := "description", isSet := (·.description.isSome)
      read := fun p _ n t => return { t with description := some (← d.text p n) } },
    { name := "basePath", aliases := ["base_path", "base"], isSet := (·.basePath.isSome)
      read := fun p _ n t => return { t with basePath := some (← d.text p n) } },
    { name := "sidebar", optional := true, isSet := (·.sidebar.isSome)
      read := fun p _ n t => return { t with sidebar := some (← d.readSidebar p n) } },
    { name := "themeConfig", aliases := ["theme_config"], optional := true
      isSet := (·.themeSidebar.isSome)
      read := fun p _ n t => return { t with themeSidebar := some (← d.themeLayout.read d p n) } }]
  empty := {}
  finish := SiteDraft.finish

def readSite (n : ν) : m Site := do
  let raw ← d.siteLayout.read d [] n
  match raw.settle with
  | .ok s => return s
  | .error e => d.reject [] .document e

/-- A site and the paths of the entries that are no part of it, in the order they were met. -/
def readTracked (n : ν) : m (Site × List Path) :=
  (d.tracking.readSite n).run []

end Dialect

end SiteNav.Document
