import SiteNav.Text.Quoted

/-!
# Why a document is no site

A document can be well formed and still not describe a site: a value has the wrong type, a field is
missing or repeated, a positional structure is too short, or the sidebar is not given exactly once.
-/
namespace SiteNav.Document

inductive Record where
  | site
  | theme
  | group
  | item
  deriving DecidableEq

namespace Record

def name : Record → String
  | site => "struct RawNavigationConfig"
  | theme => "struct ThemeConfig"
  | group => "struct SidebarGroup"
  | item => "struct SidebarItem"

def fieldCount : Record → Nat
  | site => 5
  | theme => 1
  | group => 3
  | item => 2

def arity (r : Record) : String :=
  r.name ++ " with " ++ toString r.fieldCount ++ (if r.fieldCount = 1 then " element" else " elements")

end Record

inductive Expected where
  | text
  | flag
  | list
  | record (r : Record)
  | name
  deriving DecidableEq

def Expected.describe : Expected → String
  | name => "field identifier"
  | text => "a string"
  | flag => "a boolean"
  | list => "a sequence"
  | record r => r.name

/-- What stands there instead. Numbers are given in the text their format reports them in. -/
inductive Found where
  | nothing (name : String)
  | bool (b : Bool)
  | integer (digits : String)
  /-- An integer beyond 64 bits, with the wider type that holds it. -/
  | wideInteger (digits type : String)
  | floating (digits : String)
  | text (s : String)
  | list
  | map
  deriving DecidableEq

def Found.describe : Found → String
  | nothing name => name
  | bool b => "boolean `" ++ (if b then "true" else "false") ++ "`"
  | integer d => "integer `" ++ d ++ "`"
  | wideInteger d type => "integer `" ++ d ++ "` as " ++ type
  | floating d => "floating point `" ++ d ++ "`"
  | text s => "string " ++ Text.quoted s
  | list => "sequence"
  | map => "map"

inductive Misfit where
  | mistyped (found : Found) (expected : Expected)
  /-- A text that does not spell what it is declared to be. -/
  | misspelled (text : String) (declared : String)
  | missing (field : String)
  | repeated (field : String)
  /-- A positional structure ends before its field number `index`. -/
  | tooShort (index : Nat) (record : Record)
  | twoSidebars
  | noSidebar
  deriving DecidableEq

def Misfit.message : Misfit → String
  | mistyped f e => "invalid type: " ++ f.describe ++ ", expected " ++ e.describe
  | misspelled text declared =>
    "invalid value: string " ++ Text.quoted text ++ ", expected " ++ declared
  | missing field => "missing field `" ++ field ++ "`"
  | repeated field => "duplicate field `" ++ field ++ "`"
  | tooShort i r => "invalid length " ++ toString i ++ ", expected " ++ r.arity
  | twoSidebars => "sidebar is set both at top level and in themeConfig"
  | noSidebar => "missing field `sidebar`"

end SiteNav.Document
