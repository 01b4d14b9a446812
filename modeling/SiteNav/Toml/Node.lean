import SiteNav.Decimal.Shortest

/-!
# TOML documents as trees

A span says what is left of the text at both its ends, counted in characters, so that it can be taken
from the lists a reader works on. Tables remember how they came about, since that decides what may
still be added to them, and keep their entries in the order of their keys.
-/
namespace SiteNav.Toml

/-- The part of a text from where `start` characters are left to where `stop` are. -/
structure Span where
  start : Nat
  stop : Nat
  deriving DecidableEq

def Span.between (before after : List Char) : Span :=
  ⟨before.length, after.length⟩

inductive Scalar where
  | text (s : String)
  | integer (n : Int)
  /-- A floating-point number, or `none` if it is too large for one. -/
  | floating (x : Option Decimal.Binary64)
  | bool (b : Bool)
  | date
  deriving DecidableEq

/-- How a table came about: under its own header, on the way to a longer header, on the way to a
dotted key, or between braces. -/
inductive Origin where
  | header
  | super
  | dotted
  | inline
  deriving DecidableEq

inductive Node where
  | scalar (span : Span) (value : Scalar)
  /-- An array, or the list of tables that `[[...]]` headers make. -/
  | array (span : Span) (ofTables : Bool) (items : List Node)
  | table (span : Span) (origin : Origin) (entries : List (String × Node))

def Node.span : Node → Span
  | scalar s _ | array s _ _ | table s _ _ => s

abbrev Entries := List (String × Node)

namespace Entries

def get? (key : String) : Entries → Option Node
  | [] => none
  | (k, n) :: es => if k = key then some n else get? key es

def set (key : String) (node : Node) : Entries → Entries
  | [] => [(key, node)]
  | (k, n) :: es =>
    if k = key then (key, node) :: es
    else if key < k then (key, node) :: (k, n) :: es
    else (k, n) :: set key node es

end Entries

structure Key where
  name : String
  span : Span

namespace Entries

/-- Changes the table that a path leads to, making the tables it lacks on the way. A header path goes
through the last of a list of tables; a dotted key enters neither that nor a table with a header. -/
def update (dotted : Bool) (change : Entries → Option Entries) : List Key → Entries → Option Entries
  | [], es => change es
  | k :: path, es =>
    match es.get? k.name with
    | none => do
      let inner ← update dotted change path []
      return es.set k.name (.table k.span (if dotted then .dotted else .super) inner)
    | some (.table span origin inner) =>
      if origin = .inline ∨ (dotted ∧ origin = .header) then none
      else do
        let inner ← update dotted change path inner
        return es.set k.name (.table span origin inner)
    | some (.array span true items) =>
      if dotted then none
      else match items.reverse with
        | .table s o inner :: others => do
          let inner ← update dotted change path inner
          return es.set k.name (.array span true (others.reverse ++ [.table s o inner]))
        | _ => none
    | some _ => none

def add (k : Key) (node : Node) (es : Entries) : Option Entries :=
  match es.get? k.name with
  | none => some (es.set k.name node)
  | some _ => none

/-- Adds a value under a dotted key: the keys before the last one and the last one. -/
def assign (path : List Key) (last : Key) (node : Node) (es : Entries) : Option Entries :=
  es.update true (·.add last node) path

def openTable (path : List Key) (last : Key) (span : Span) (es : Entries) : Option Entries :=
  es.update false (fun es =>
    match es.get? last.name with
    | none => some (es.set last.name (.table span .header []))
    | some (.table _ .super inner) => some (es.set last.name (.table span .header inner))
    | some _ => none) path

def openElement (path : List Key) (last : Key) (span : Span) (es : Entries) : Option Entries :=
  es.update false (fun es =>
    match es.get? last.name with
    | none => some (es.set last.name (.array span true [.table span .header []]))
    | some (.array s true items) =>
      some (es.set last.name (.array s true (items ++ [.table span .header []])))
    | some _ => none) path

end Entries

end SiteNav.Toml
