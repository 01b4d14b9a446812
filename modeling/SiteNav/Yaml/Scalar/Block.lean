import SiteNav.Text.Digit
import SiteNav.Yaml.Mark

/-!
# Block scalars

After a header, a block scalar goes on over all lines of its indentation, which is given in the
header or is that of the first line with text. A literal scalar keeps its line breaks; a folded one
joins lines that do not begin with a blank. The header also says what becomes of the breaks at the
end.
-/
namespace SiteNav.Yaml.Block

inductive Chomping where
  | strip
  | clip
  | keep
  deriving DecidableEq

structure Header where
  chomping : Chomping
  /-- How much deeper than the block around it the text is indented. -/
  indent : Option Nat

def chomping? : Char → Option Chomping
  | '-' => some .strip
  | '+' => some .keep
  | _ => none

def header? : List Char → Option (Header × List Char)
  | [] => some (⟨.clip, none⟩, [])
  | c :: cs =>
    match chomping? c with
    | some k =>
      match cs with
      | d :: rest =>
        if d = '0' then none
        else if Text.isDigit d then some (⟨k, Text.digit? 10 d⟩, rest)
        else some (⟨k, none⟩, cs)
      | [] => some (⟨k, none⟩, [])
    | none =>
      if c = '0' then none
      else if Text.isDigit c then
        match cs with
        | d :: rest =>
          match chomping? d with
          | some k => some (⟨k, Text.digit? 10 c⟩, rest)
          | none => some (⟨.clip, Text.digit? 10 c⟩, cs)
        | [] => some (⟨.clip, Text.digit? 10 c⟩, [])
      else some (⟨.clip, none⟩, c :: cs)

/-- The empty lines before the text, latest break first, and the deepest indentation among them and
the first line with text. -/
def measure (breaks : List Char) (deepest : Nat) :
    Mark → List Char → Option (List Char × Nat × Tail)
  | m, [] => some (breaks, max deepest m.column, ⟨m, []⟩)
  | m, c :: cs =>
    if c = ' ' then measure breaks deepest (m.past c) cs
    else if c = '\t' then none
    else if isBreak c then measure (c :: breaks) (max deepest m.column) (m.past c) cs
    else some (breaks, max deepest m.column, ⟨m, c :: cs⟩)

/-- A block scalar up to some place, latest characters first: the text, the break after its last line
and the breaks of the empty lines after that. -/
structure State where
  text : List Char := []
  first : List Char := []
  more : List Char := []
  /-- The last line begins with a blank. -/
  blank : Bool := false
  inLine : Bool := false

namespace State
variable (st : State)

/-- The text with all breaks after it; `c` begins the next line. -/
def joined (folded : Bool) (c : Char) : List Char :=
  if folded && st.first == ['\n'] && !st.blank && !isBlank c then
    if st.more.isEmpty then ' ' :: st.text else st.more ++ st.text
  else st.more ++ st.first ++ st.text

def beginLine (folded : Bool) (c : Char) : State :=
  ⟨c :: st.joined folded c, [], [], isBlank c, true⟩

def finish : Chomping → List Char
  | .strip => st.text
  | .clip => st.first ++ st.text
  | .keep => st.more ++ st.first ++ st.text

end State

def scanLines (folded : Bool) (indent : Nat) (st : State) :
    Mark → List Char → Option (State × Tail)
  | m, [] => some (st, ⟨m, []⟩)
  | m, c :: cs =>
    if st.inLine then
      if isBreak c then
        scanLines folded indent { st with first := [c], more := [], inLine := false } (m.past c) cs
      else scanLines folded indent { st with text := c :: st.text } (m.past c) cs
    else if c = ' ' ∧ m.column < indent then scanLines folded indent st (m.past c) cs
    else if c = '\t' ∧ m.column < indent then none
    else if isBreak c then
      scanLines folded indent { st with more := c :: st.more } (m.past c) cs
    else if m.column = indent then
      scanLines folded indent (st.beginLine folded c) (m.past c) cs
    else some (st, ⟨m, c :: cs⟩)

def restOfLine (t : Tail) : Option Tail :=
  let t := t.dropWhile isBlank
  let t := if t.chars.head? = some '#' then t.dropWhile fun _ => true else t
  match t.chars with
  | [] => some t
  | c :: cs => if isBreak c then some ⟨t.mark.past c, cs⟩ else none

/-- Reads a block scalar whose first sign is behind; `least` is the least column of the content of the
block around it. -/
def scan (folded : Bool) (least : Nat) (t : Tail) : Option (String × Tail) := do
  let (h, rest) ← header? t.chars
  let t ← restOfLine ⟨⟨t.mark.line, t.mark.column + (t.chars.length - rest.length)⟩, rest⟩
  let (st, t) ← match h.indent with
    | some n => scanLines folded (least - 1 + n) {} t.mark t.chars
    | none => do
      let (breaks, deepest, t) ← measure [] 0 t.mark t.chars
      let indent := max 1 (max deepest least)
      scanLines folded indent { more := breaks } t.mark t.chars
  return (String.ofList (st.finish h.chomping).reverse, t)

end SiteNav.Yaml.Block
