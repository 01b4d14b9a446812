import SiteNav.Site
import SiteNav.Yaml.Core

/-!
# Sites as YAML text

One entry a line; lists are not indented under their keys, and empty lists stand in brackets. A text
of several lines is written as a literal block, a text that would read back as something else between
single quotes, and all others plain, each falling back on single and then on double quotes where it
could not be read back.
-/
namespace SiteNav.Yaml

namespace Written

def isPrintable (c : Char) : Bool :=
  let n := c.toNat
  n == 0x0A || (0x20 ≤ n && n ≤ 0x7E) || (0xA0 ≤ n && n ≤ 0xFFFD && n ≠ 0xFEFF) || 0x10000 ≤ n

def isBreak (c : Char) : Bool :=
  c == '\n' || c == '\r' || c == '\x85' || c == '\u2028' || c == '\u2029'

def isGap (c : Char) : Bool :=
  c == ' ' || isBreak c

def adjacent (p q : Char → Bool) : List Char → Bool
  | a :: b :: cs => (p a && q b) || adjacent p q (b :: cs)
  | _ => false

def beforeGap : List Char → Bool
  | [] => true
  | c :: _ => isGap c

/-- A text that begins with these is no plain scalar. -/
def beginsWithSign : List Char → Bool
  | '-' :: '-' :: '-' :: _ | '.' :: '.' :: '.' :: _ => true
  | c :: cs =>
    if c == '?' || c == ':' || c == '-' then beforeGap cs
    else c == '#' || c == ',' || c == '[' || c == ']' || c == '{' || c == '}' || c == '&' ||
      c == '*' || c == '!' || c == '|' || c == '>' || c == '\'' || c == '"' || c == '%' ||
      c == '@' || c == '\x60'
  | [] => false

def holdsSign : List Char → Bool
  | [] => false
  | [c] => c == ':'
  | a :: b :: cs => (a == ':' && isGap b) || (isGap a && b == '#') || holdsSign (b :: cs)

def hasUnprintable (cs : List Char) : Bool :=
  cs.any fun c => !isPrintable c

def spaceBeforeBreak (cs : List Char) : Bool :=
  adjacent (· == ' ') isBreak cs

def spaceAfterBreak (cs : List Char) : Bool :=
  adjacent isBreak (· == ' ') cs

def endsIn (p : Char → Bool) (cs : List Char) : Bool :=
  (cs.getLast?.map p).getD false

def canBePlain (cs : List Char) : Bool :=
  !cs.isEmpty && !beforeGap cs && !endsIn isGap cs && !cs.any isBreak && !hasUnprintable cs &&
    !beginsWithSign cs && !holdsSign cs

def canBeSingle (cs : List Char) : Bool :=
  !hasUnprintable cs && !spaceBeforeBreak cs && !spaceAfterBreak cs

def canBeLiteral (cs : List Char) : Bool :=
  !cs.isEmpty && !hasUnprintable cs && !spaceBeforeBreak cs && !endsIn (· == ' ') cs

inductive Style where
  | plain
  | single
  | double
  | literal
  deriving DecidableEq

/-- A plain scalar with this text would stand for something else or is led by a zero. -/
def looksTyped (s : String) : Bool :=
  Core.resolve s ≠ .text || Core.isZeroLed s.toList

def style (s : String) : Style :=
  let cs := s.toList
  if cs.contains '\n' then if canBeLiteral cs then .literal else .double
  else if !looksTyped s && canBePlain cs then .plain
  else if canBeSingle cs then .single
  else .double

def spaces (n : Nat) : List Char :=
  List.replicate n ' '

/-- Doubles quotes, and indents what follows a break; `broken` tells whether a break is behind. -/
def singleFrom (indent : Nat) (broken : Bool) : List Char → List Char
  | [] => (if broken then spaces indent else []) ++ ['\'']
  | c :: cs =>
    if isBreak c then c :: singleFrom indent true cs
    else
      (if broken then spaces indent else []) ++ (if c = '\'' then ['\'', '\''] else [c]) ++
        singleFrom indent false cs

def hex : Nat → Nat → List Char
  | 0, _ => []
  | n + 1, v => hex n (v / 16) ++ [(Nat.digitChar (v % 16)).toUpper]

def escape (c : Char) : List Char :=
  match c with
  | '\x00' => ['\\', '0']
  | '\x07' => ['\\', 'a']
  | '\x08' => ['\\', 'b']
  | '\t' => ['\\', 't']
  | '\n' => ['\\', 'n']
  | '\x0b' => ['\\', 'v']
  | '\x0c' => ['\\', 'f']
  | '\r' => ['\\', 'r']
  | '\x1b' => ['\\', 'e']
  | '"' => ['\\', '"']
  | '\\' => ['\\', '\\']
  | '\x85' => ['\\', 'N']
  | '\u2028' => ['\\', 'L']
  | '\u2029' => ['\\', 'P']
  | c =>
    if isPrintable c then [c]
    else
      let n := c.toNat
      if n ≤ 0xFF then '\\' :: 'x' :: hex 2 n
      else if n ≤ 0xFFFF then '\\' :: 'u' :: hex 4 n
      else '\\' :: 'U' :: hex 8 n

def literalFrom (indent : Nat) (broken : Bool) : List Char → List Char
  | [] => []
  | c :: cs =>
    if isBreak c then c :: literalFrom indent true cs
    else (if broken then spaces indent else []) ++ c :: literalFrom indent false cs

/-- The header of a literal block: the indentation where the text begins with a gap, and what becomes
of the breaks at its end. -/
def literalHeader (cs : List Char) : List Char :=
  '|' :: ((if beforeGap cs then ['2'] else []) ++
    match cs.reverse with
    | [] => ['-']
    | [c] => if isBreak c then ['+'] else ['-']
    | c :: d :: _ => if !isBreak c then ['-'] else if isBreak d then ['+'] else [])

def scalar (indent : Nat) (s : String) : List Char :=
  let cs := s.toList
  match style s with
  | .plain => cs
  | .single => '\'' :: singleFrom indent false cs
  | .double => '"' :: (cs.flatMap escape ++ ['"'])
  | .literal => literalHeader cs ++ '\n' :: literalFrom indent true cs

/-- A line feed ends a line that no break ends yet. -/
def endLine (cs : List Char) : List Char :=
  if endsIn isBreak cs then cs else cs ++ ['\n']

def entry (lead key : String) (indent : Nat) (s : String) : List Char :=
  endLine (lead.toList ++ key.toList ++ ':' :: ' ' :: scalar indent s)

def listEntry (lead key : String) (items : List (List Char)) : List Char :=
  lead.toList ++ key.toList ++
    (if items.isEmpty then ": []\n".toList else ":\n".toList ++ items.flatten)

def item (it : Item) : List Char :=
  entry "  - " "text" 6 it.text ++ entry "    " "link" 6 it.link

def collapsible (b : Bool) : List Char :=
  ("  collapsible: " ++ (if b then "true" else "false") ++ "\n").toList

def group (g : Group) : List Char :=
  entry "- " "text" 4 g.text ++ (g.collapsible.map collapsible).getD [] ++
    listEntry "  " "items" (g.items.map item)

def site (s : Site) : List Char :=
  entry "" "title" 2 s.title ++ entry "" "description" 2 s.description ++
    entry "" "basePath" 2 s.basePath ++ listEntry "" "sidebar" (s.sidebar.map group)

end Written

def write (s : Site) : String :=
  String.ofList (Written.site s)

end SiteNav.Yaml
