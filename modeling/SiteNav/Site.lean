/-!
# Sites and their navigation

A site has a name, a tagline, the path it is served under and a sidebar: groups of links in the order
they are shown. The values are plain data, and every list keeps the order it was written in.
-/
namespace SiteNav

/-- A labelled link. Its target is opaque: nothing follows it. -/
structure Item where
  text : String
  link : String
  deriving DecidableEq, Inhabited

/-- A headed list of links. Without a preference on `collapsible` whoever renders the group decides,
which is not the same as `some false`. -/
structure Group where
  text : String
  collapsible : Option Bool := none
  items : List Item := []
  deriving DecidableEq, Inhabited

structure Site where
  title : String
  description : String
  basePath : String
  sidebar : List Group := []
  deriving DecidableEq, Inhabited

namespace Group
variable (g : Group)

def addItem (it : Item) : Group :=
  { g with items := g.items ++ [it] }

def setCollapsible (b : Bool) : Group :=
  { g with collapsible := some b }

def item? (link : String) : Option Item :=
  g.items.find? (·.link == link)

end Group

def dropTrailingSlashes (cs : List Char) : List Char :=
  (cs.reverse.dropWhile (· == '/')).reverse

/-- A link that starts with a slash goes under the base path; any other link stands for itself. -/
def joinLink (base link : List Char) : List Char :=
  match link with
  | '/' :: rest => dropTrailingSlashes base ++ '/' :: rest
  | _ => link

namespace Site
variable (s : Site)

def addGroup (g : Group) : Site :=
  { s with sidebar := s.sidebar ++ [g] }

def group? (text : String) : Option Group :=
  s.sidebar.find? (·.text == text)

def resolveLink (link : String) : String :=
  String.ofList (joinLink s.basePath.toList link.toList)

def withBasePath : Option String → Site
  | some p => { s with basePath := p }
  | none => s

def linkCount : Nat :=
  (s.sidebar.flatMap (·.items)).length

end Site

end SiteNav
