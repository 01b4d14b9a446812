import SiteNav.Document.Content

/-!
# Sites as JSON text

One entry or element a line, two spaces deeper at each level, empty lists on one line, and no line
feed at the end. Strings escape quotes, backslashes and the controls below U+0020.
-/
namespace SiteNav.Json
open Document

namespace Literal

def escape (c : Char) : List Char :=
  match c with
  | '"' => ['\\', '"']
  | '\\' => ['\\', '\\']
  | '\x08' => ['\\', 'b']
  | '\x0c' => ['\\', 'f']
  | '\n' => ['\\', 'n']
  | '\r' => ['\\', 'r']
  | '\t' => ['\\', 't']
  | c =>
    if c < ' ' then
      ['\\', 'u', '0', '0', Nat.digitChar (c.toNat / 16), Nat.digitChar (c.toNat % 16)]
    else [c]

def write (s : String) : List Char :=
  '"' :: (s.toList.flatMap escape ++ ['"'])

end Literal

def lineBreak (depth : Nat) : List Char :=
  '\n' :: List.replicate (2 * depth) ' '

namespace Written

mutual

def content (depth : Nat) : Content → List Char
  | .flag b => (if b then "true" else "false").toList
  | .text s => Literal.write s
  | .list [] => ['[', ']']
  | .list (c :: cs) =>
    '[' :: (lineBreak (depth + 1) ++ content (depth + 1) c ++ items (depth + 1) cs ++
      lineBreak depth ++ [']'])
  | .map [] => ['{', '}']
  | .map ((k, c) :: es) =>
    '{' :: (lineBreak (depth + 1) ++ entry (depth + 1) k c ++ entries (depth + 1) es ++
      lineBreak depth ++ ['}'])

def items (depth : Nat) : List Content → List Char
  | [] => []
  | c :: cs => ',' :: (lineBreak depth ++ content depth c ++ items depth cs)

def entry (depth : Nat) (k : String) (c : Content) : List Char :=
  Literal.write k ++ ':' :: ' ' :: content depth c

def entries (depth : Nat) : List (String × Content) → List Char
  | [] => []
  | (k, c) :: es => ',' :: (lineBreak depth ++ entry depth k c ++ entries depth es)

end

end Written

def write (s : Site) : String :=
  String.ofList (Written.content 0 (.ofSite s))

end SiteNav.Json
