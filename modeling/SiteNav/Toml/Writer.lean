import SiteNav.Site

/-!
# Sites as TOML text

The fields of the site come first, then a `[[sidebar]]` header for each group and a `[[sidebar.items]]`
header for each of its items; empty lists are written in place. A text is written in the plainest of
the quotings that can hold it.
-/
namespace SiteNav.Toml

namespace Literal

/-- The longest run of `q` in a text; `run` of them come right before it. -/
def longestRun (q : Char) (run best : Nat) : List Char → Nat
  | [] => best
  | c :: cs =>
    if c = q then longestRun q (run + 1) (max best (run + 1)) cs else longestRun q 0 best cs

def needsEscape (c : Char) : Bool :=
  (c < ' ' && c != '\t' && c != '\n') || c == '\x7f'

inductive Quoting where
  | basic
  | literal
  | multiBasic
  | multiLiteral
  deriving DecidableEq

/-- The first quoting that can hold a text, in order of preference. -/
def Quoting.choose (cs : List Char) : Quoting :=
  let escapes := cs.any needsEscape
  let backslash := cs.contains '\\'
  let doubles := longestRun '"' 0 0 cs
  let singles := longestRun '\'' 0 0 cs
  let lines := cs.contains '\n'
  if !escapes && !backslash && doubles == 0 && !lines then .basic
  else if !escapes && singles == 0 && !lines then .literal
  else if !escapes && !backslash && doubles ≤ 2 then .multiBasic
  else if !escapes && singles ≤ 2 then .multiLiteral
  else if lines then .multiBasic
  else .basic

def upperHex (n : Nat) : Char :=
  (Nat.digitChar n).toUpper

def escape (c : Char) : List Char :=
  match c with
  | '\x08' => ['\\', 'b']
  | '\t' => ['\\', 't']
  | '\n' => ['\\', 'n']
  | '\x0c' => ['\\', 'f']
  | '\r' => ['\\', 'r']
  | '"' => ['\\', '"']
  | '\\' => ['\\', '\\']
  | c =>
    if c < ' ' ∨ c = '\x7f' then
      ['\\', 'u', '0', '0', upperHex (c.toNat / 16), upperHex (c.toNat % 16)]
    else [c]

/-- A text in a multi-line string with escapes: line feeds stay, and so do two quotes in a row. -/
def escapeLines : Nat → List Char → List Char
  | _, [] => []
  | run, c :: cs =>
    if c = '\n' then c :: escapeLines 0 cs
    else if c = '"' then
      if run < 2 then c :: escapeLines (run + 1) cs else '\\' :: c :: escapeLines 0 cs
    else escape c ++ escapeLines 0 cs

def write (s : String) : List Char :=
  let cs := s.toList
  let break? := if cs.contains '\n' then ['\n'] else []
  match Quoting.choose cs with
  | .basic => '"' :: (cs.flatMap escape ++ ['"'])
  | .literal => '\'' :: (cs ++ ['\''])
  | .multiBasic =>
    let q := List.replicate 3 '"'
    q ++ break? ++ escapeLines 0 cs ++ q
  | .multiLiteral =>
    let q := List.replicate 3 '\''
    q ++ break? ++ cs ++ q

end Literal

def assignment (key : String) (value : List Char) : List Char :=
  key.toList ++ " = ".toList ++ value ++ ['\n']

def writeItem (it : Item) : List Char :=
  "\n[[sidebar.items]]\n".toList ++ assignment "text" (Literal.write it.text) ++
    assignment "link" (Literal.write it.link)

def writeGroup (g : Group) : List Char :=
  "\n[[sidebar]]\n".toList ++ assignment "text" (Literal.write g.text) ++
    (match g.collapsible with
      | some b => assignment "collapsible" (if b then "true" else "false").toList
      | none => []) ++
    (if g.items.isEmpty then assignment "items" ['[', ']'] else g.items.flatMap writeItem)

def writeChars (s : Site) : List Char :=
  assignment "title" (Literal.write s.title) ++
    assignment "description" (Literal.write s.description) ++
    assignment "basePath" (Literal.write s.basePath) ++
    (if s.sidebar.isEmpty then assignment "sidebar" ['[', ']'] else s.sidebar.flatMap writeGroup)

def write (s : Site) : String :=
  String.ofList (writeChars s)

end SiteNav.Toml
