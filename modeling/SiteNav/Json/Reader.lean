import SiteNav.Json.Node
import SiteNav.Json.Literal

/-!
# From JSON text to trees

Every text is read into a tree, up to its first fault. White space is space, tab, line feed and
carriage return.
-/
namespace SiteNav.Json

structure Cursor where
  rest : List Char
  pos : Pos

def isBlank (c : Char) : Bool :=
  c == ' ' || c == '\n' || c == '\t' || c == '\r'

def skipBlank : List Char → Pos → Cursor
  | [], pos => ⟨[], pos⟩
  | c :: cs, pos => if isBlank c then skipBlank cs (pos.next c) else ⟨c :: cs, pos⟩

def scanWord (value : Scalar) : List Char → List Char → Pos → Scan Scalar
  | [], cs, pos => .done (.ok value) cs pos
  | _ :: _, [], pos => .broken ⟨.endInValue, pos⟩ ⟨.endInValue, pos⟩
  | w :: ws, c :: cs, pos =>
    if c = w then scanWord value ws cs (pos.next c)
    else .broken ⟨.expectedWord, pos.nextByte c⟩ ⟨.expectedWord, pos.nextByte c⟩

/-- A node and where the text goes on, unless it broke off inside. -/
abbrev Reading (α : Type) := α × Option Cursor

def ofScan {α : Type} (start : Pos) (f : α → Scalar) : Scan α → Reading Node
  | .done value rest pos => (.scalar start pos (value.map f), some ⟨rest, pos⟩)
  | .broken wanted skipped => (.broken start wanted skipped, none)

def brokenAt (start : Pos) (f : Fault) : Reading Node :=
  (.broken start f f, none)

def faultyEnd {α : Type} (elements fields skipped : Cause) (pos : Pos) : Reading (List α × Ending) :=
  (([], .faulty ⟨elements, pos⟩ ⟨fields, pos⟩ ⟨skipped, pos⟩), none)

def prepend {α : Type} (a : α) (r : Reading (List α × Ending)) : Reading (List α × Ending) :=
  ((a :: r.1.1, r.1.2), r.2)

def cutOff {α : Type} (a : α) : Reading (List α × Ending) :=
  prepend a (faultyEnd .endInValue .endInValue .endInValue .start)

mutual

/-- Reads a value; the white space before it is behind. -/
def readValue : Nat → Cursor → Reading Node
  | 0, c => brokenAt c.pos ⟨.endInValue, c.pos⟩
  | fuel + 1, ⟨cs, pos⟩ =>
    match cs with
    | [] => brokenAt pos ⟨.endInValue, pos⟩
    | 'n' :: r => ofScan pos id (scanWord .null ['u', 'l', 'l'] r (pos.next 'n'))
    | 't' :: r => ofScan pos id (scanWord (.bool true) ['r', 'u', 'e'] r (pos.next 't'))
    | 'f' :: r => ofScan pos id (scanWord (.bool false) ['a', 'l', 's', 'e'] r (pos.next 'f'))
    | '"' :: r => ofScan pos .text (Literal.scan r (pos.next '"'))
    | '[' :: r =>
      let ((items, ending), next) := readItems fuel true (skipBlank r (pos.next '['))
      (.list pos items ending, next)
    | '{' :: r =>
      let ((entries, ending), next) := readEntries fuel true (skipBlank r (pos.next '{'))
      (.map pos entries ending, next)
    | c :: _ =>
      if c = '-' ∨ Text.isDigit c then ofScan pos .number (Number.scan cs pos)
      else brokenAt pos ⟨.expectedValue, pos.nextByte c⟩

def readItems : Nat → Bool → Cursor → Reading (List Node × Ending)
  | 0, _, c => faultyEnd .endInList .endInList .endInList c.pos
  | fuel + 1, first, ⟨cs, pos⟩ =>
    match cs with
    | [] => faultyEnd .endInList .endInList .endInList pos
    | c :: r =>
      if c = ']' then (([], .closed (pos.next c)), some ⟨r, pos.next c⟩)
      else if first then readItem fuel ⟨cs, pos⟩
      else if c = ',' then
        let ⟨cs, pos⟩ := skipBlank r (pos.next c)
        match cs with
        | [] => faultyEnd .endInValue .trailingCharacters .endInValue pos
        | ']' :: _ =>
          faultyEnd .trailingComma .trailingComma .expectedValue (pos.peek cs)
        | _ => readItem fuel ⟨cs, pos⟩
      else faultyEnd .expectedCommaOrBracket .trailingCharacters .expectedCommaOrBracket (pos.peek cs)

def readItem : Nat → Cursor → Reading (List Node × Ending)
  | 0, c => faultyEnd .endInList .endInList .endInList c.pos
  | fuel + 1, c =>
    match readValue fuel c with
    | (node, none) => cutOff node
    | (node, some c) => prepend node (readItems fuel false (skipBlank c.rest c.pos))

def readEntries : Nat → Bool → Cursor → Reading (List (Key × Node) × Ending)
  | 0, _, c => faultyEnd .endInMap .endInMap .endInMap c.pos
  | fuel + 1, first, ⟨cs, pos⟩ =>
    match cs with
    | [] => faultyEnd .endInMap .endInMap .endInMap pos
    | c :: r =>
      if c = '}' then (([], .closed (pos.next c)), some ⟨r, pos.next c⟩)
      else if first then
        if c = '"' then readEntry fuel ⟨r, pos.next c⟩
        else faultyEnd .keyNotText .keyNotText .keyNotText (pos.peek cs)
      else if c = ',' then
        let ⟨cs, pos⟩ := skipBlank r (pos.next c)
        match cs with
        | [] => faultyEnd .endInValue .endInValue .endInMap pos
        | '"' :: r => readEntry fuel ⟨r, pos.next '"'⟩
        | '}' :: _ => faultyEnd .trailingComma .trailingComma .keyNotText (pos.peek cs)
        | _ => faultyEnd .keyNotText .keyNotText .keyNotText (pos.peek cs)
      else
        faultyEnd .expectedCommaOrBrace .expectedCommaOrBrace .expectedCommaOrBrace (pos.peek cs)

def readEntry : Nat → Cursor → Reading (List (Key × Node) × Ending)
  | 0, c => faultyEnd .endInMap .endInMap .endInMap c.pos
  | fuel + 1, c =>
    match Literal.scan c.rest c.pos with
    | .broken wanted skipped => (([], .faulty wanted wanted skipped), none)
    | .done text rest pos =>
      let ⟨cs, pos⟩ := skipBlank rest pos
      match cs with
      | ':' :: r =>
        match readValue fuel (skipBlank r (pos.next ':')) with
        | (node, none) => cutOff (⟨text, pos⟩, node)
        | (node, some c) =>
          prepend (⟨text, pos⟩, node) (readEntries fuel false (skipBlank c.rest c.pos))
      | '}' :: _ =>
        cutOff (⟨text, pos.next '}'⟩, (brokenAt pos ⟨.expectedColon, pos.peek cs⟩).1)
      | [] => cutOff (⟨text, pos⟩, (brokenAt pos ⟨.endInMap, pos⟩).1)
      | _ => cutOff (⟨text, pos⟩, (brokenAt pos ⟨.expectedColon, pos.peek cs⟩).1)

end

/-- A text read as one value, with the place of what follows it if that is not white space. -/
structure Contents where
  root : Node
  trailing : Option Pos

/-- Reads a text. Of three steps in a row one consumes a character, so the steps suffice. -/
def read (cs : List Char) : Contents :=
  match readValue (3 * cs.length + 4) (skipBlank cs .start) with
  | (root, none) => ⟨root, none⟩
  | (root, some c) =>
    let c := skipBlank c.rest c.pos
    ⟨root, if c.rest.isEmpty then none else some (c.pos.peek c.rest)⟩

end SiteNav.Json
