/-!
# Paths into a document

A path leads from the root of a document to one of its nodes, by the keys and positions that were
taken. It is kept innermost step first, so that a step down is a `cons`.
-/
namespace SiteNav.Document

inductive Step where
  | key (name : String)
  | index (i : Nat)
  /-- A key that is a reference to a name written elsewhere. -/
  | reference (name : String)
  deriving DecidableEq

def Step.plain : Step → String
  | .key name | .reference name => name
  | .index i => toString i

def Step.written : Step → String
  | .key name => name
  | .index i => "[" ++ toString i ++ "]"
  | .reference _ => "?"

abbrev Path := List Step

namespace Path

/-- Keys and positions with dots between them, as in `sidebar.0.icon`. -/
def dotted (p : Path) : String :=
  ".".intercalate (p.reverse.map Step.plain)

/-- Keys after dots and positions in brackets, as in `sidebar[0].items[1].link`. -/
def bracketed : Path → String
  | [] => ""
  | [s] => s.written
  | .index i :: p => bracketed p ++ Step.written (.index i)
  | s :: p => bracketed p ++ "." ++ s.written

end Path

end SiteNav.Document
