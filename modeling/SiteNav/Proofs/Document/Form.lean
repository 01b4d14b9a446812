import Mathlib.Data.List.Basic
import SiteNav.Document.Misfit
import SiteNav.Proofs.Document.Strays

/-!
# Forms of values

A form says in full what is asked of a value: a text or a flag, a list of values of one form, or a
structure with its members in declared order, each under one or more names and some of them required. Its
shape is what is left of it for finding entries that nobody asks for.
-/
namespace SiteNav.Document

structure Member (φ : Type) where
  name : String
  aliases : List String := []
  required : Bool := true
  form : φ

inductive Form where
  | text
  | flag
  | list (element : Form)
  | record (r : Record) (members : List (Member Form))

def Member.answersTo {φ : Type} (s : Member φ) (name : String) : Bool :=
  name == s.name || s.aliases.contains name

namespace Form

def itemMembers : List (Member Form) :=
  [{ name := "text", form := text }, { name := "link", form := text }]

def item : Form :=
  record .item itemMembers

def groupMembers : List (Member Form) :=
  [{ name := "text", form := text }, { name := "collapsible", required := false, form := flag },
    { name := "items", form := list item }]

def group : Form :=
  record .group groupMembers

def themeMembers : List (Member Form) :=
  [{ name := "sidebar", form := list group }]

def theme : Form :=
  record .theme themeMembers

/-- The sidebar is not required in either of its two places. -/
def siteMembers : List (Member Form) :=
  [{ name := "title", form := text }, { name := "description", form := text },
    { name := "basePath", aliases := ["base_path", "base"], form := text },
    { name := "sidebar", required := false, form := list group },
    { name := "themeConfig", aliases := ["theme_config"], required := false, form := theme }]

def site : Form :=
  record .site siteMembers

def expected : Form → Expected
  | text => .text
  | flag => .flag
  | list _ => .list
  | record r _ => .record r

/-- The member that a key stands for, if it spells a name. -/
def member? (members : List (Member Form)) (key : Option String) : Option (Member Form) :=
  key.bind fun name => members.find? (·.answersTo name)

/-- The names of the members that some keys stand for. -/
def filled (members : List (Member Form)) (keys : List (Option String)) : List String :=
  keys.filterMap fun k => (member? members k).map (·.name)

theorem filled_cons (members : List (Member Form)) (k : Option String) (keys : List (Option String)) :
    filled members (k :: keys) = ((member? members k).map (·.name)).toList ++ filled members keys := by
  rw [filled, List.filterMap_cons]
  cases member? members k <;> rfl

/-- The first member in declared order that has to be filled and is not. -/
def lacking? (members : List (Member Form)) (filled : List String) : Option (Member Form) :=
  members.find? fun s => s.required && !filled.contains s.name

theorem lacking?_eq_some_iff {members : List (Member Form)} {filled : List String} {s : Member Form} :
    lacking? members filled = some s ↔ ∃ before after, members = before ++ s :: after ∧
      s.required = true ∧ s.name ∉ filled ∧
      ∀ g ∈ before, g.required = true → g.name ∈ filled := by
  have hfilled : ∀ g : Member Form, (g.required && !decide (g.name ∈ filled)) = false ↔
      (g.required = true → g.name ∈ filled) := by
    intro g
    cases g.required <;> simp
  rw [lacking?, List.find?_eq_some_iff_append]
  simp only [List.contains_eq_mem, Bool.not_eq_true', hfilled, Bool.and_eq_true,
    decide_eq_false_iff_not]
  constructor
  · rintro ⟨⟨hrequired, hname⟩, before, after, hslots, hbefore⟩
    exact ⟨before, after, hslots, hrequired, hname, hbefore⟩
  · rintro ⟨before, after, hslots, hrequired, hname, hbefore⟩
    exact ⟨⟨hrequired, hname⟩, before, after, hslots, hbefore⟩

mutual

def shape : Form → Shape
  | text | flag => .leaf
  | list element => .list element.shape
  | record _ members => .record (shapes members)

def shapes : List (Member Form) → List (List String × Shape)
  | [] => []
  | ⟨name, aliases, _, form⟩ :: members => (name :: aliases, form.shape) :: shapes members

end

theorem shape_site : site.shape = .site := rfl

theorem named?_shapes (members : List (Member Form)) (name : String) :
    Shape.named? (shapes members) name = (members.find? (·.answersTo name)).map (·.form.shape) := by
  induction members with
  | nil => rfl
  | cons s members ih =>
    have hnames : (s.name :: s.aliases).contains name = s.answersTo name := List.contains_cons
    rw [Shape.named?] at ih ⊢
    rw [shapes, List.find?_cons, List.find?_cons, hnames]
    cases s.answersTo name with
    | true => rfl
    | false => exact ih

end Form

end SiteNav.Document
