import SiteNav.Yaml.Mark

/-!
# YAML tokens

A token is a sign, a property or a scalar at some place. Blocks have no signs of their own: tokens for
their beginnings and ends stand where the indentation of the text puts them.
-/
namespace SiteNav.Yaml

inductive Style where
  | plain
  | single
  | double
  | literal
  | folded
  deriving DecidableEq

inductive Lexeme where
  | version (major minor : Nat)
  | tagHandle (handle expansion : String)
  | document (b : Boundary)
  | blockList
  | blockMap
  | blockEnd
  | flowList
  | flowListEnd
  | flowMap
  | flowMapEnd
  /-- The dash before an element of a block list. -/
  | dash
  | comma
  | key
  | value
  | anchor (name : String)
  | reference (name : String)
  | tag (handle suffix : String)
  | scalar (style : Style) (text : String)
  | streamEnd

structure Token where
  mark : Mark
  lexeme : Lexeme

def Token.after (t : Token) : Mark :=
  ⟨t.mark.line, t.mark.column + 1⟩

end SiteNav.Yaml
