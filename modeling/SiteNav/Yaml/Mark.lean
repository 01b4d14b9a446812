/-!
# Places in YAML texts

A line of a YAML text ends in a line feed, a line separator or a paragraph separator; the other line
breaks count as line feeds and are turned into them before anything is read. Lines and columns are
counted from zero, and columns in characters.
-/
namespace SiteNav.Yaml

structure Mark where
  line : Nat
  column : Nat
  deriving DecidableEq

def isBreak (c : Char) : Bool :=
  c == '\n' || c == '\u2028' || c == '\u2029'

def isBlank (c : Char) : Bool :=
  c == ' ' || c == '\t'

def Mark.start : Mark := ⟨0, 0⟩

def Mark.past (m : Mark) (c : Char) : Mark :=
  if isBreak c then ⟨m.line + 1, 0⟩ else ⟨m.line, m.column + 1⟩

/-- No word goes on here. -/
def atGap : List Char → Bool
  | [] => true
  | c :: _ => isBlank c || isBreak c

/-- Carriage returns, alone or before a line feed, and next-line characters as line feeds. -/
def unifyBreaks : List Char → List Char
  | [] => []
  | '\r' :: '\n' :: cs => '\n' :: unifyBreaks cs
  | c :: cs => (if c = '\r' ∨ c = '\x85' then '\n' else c) :: unifyBreaks cs

def isAllowed (c : Char) : Bool :=
  let n := c.toNat
  n == 0x09 || n == 0x0A || n == 0x0D || (0x20 ≤ n && n ≤ 0x7E) || n == 0x85 ||
    (0xA0 ≤ n && n ≤ 0xFFFD) || 0x10000 ≤ n

structure Tail where
  mark : Mark
  chars : List Char

/-- The characters up to the first that is not of some kind, no line break among them. -/
def Tail.takeWhile (p : Char → Bool) (t : Tail) : List Char × Tail :=
  let word := t.chars.takeWhile fun c => p c && !isBreak c
  (word, ⟨⟨t.mark.line, t.mark.column + word.length⟩, t.chars.drop word.length⟩)

def Tail.dropWhile (p : Char → Bool) (t : Tail) : Tail :=
  (t.takeWhile p).2

def Tail.expect (c : Char) (t : Tail) : Option Tail :=
  match t.chars with
  | [] => none
  | d :: cs => if d = c then some ⟨t.mark.past d, cs⟩ else none

def Tail.atGap (t : Tail) : Bool :=
  Yaml.atGap t.chars

/-- The line at the start of which a document begins or ends. -/
inductive Boundary where
  | start
  | stop

def boundary? (m : Mark) (cs : List Char) : Option Boundary :=
  if m.column ≠ 0 then none
  else match cs with
    | '-' :: '-' :: '-' :: cs => if atGap cs then some .start else none
    | '.' :: '.' :: '.' :: cs => if atGap cs then some .stop else none
    | _ => none

end SiteNav.Yaml
