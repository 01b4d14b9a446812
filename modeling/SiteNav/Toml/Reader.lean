import SiteNav.Toml.Bare
import SiteNav.Toml.Literal

/-!
# From TOML text to trees

A document is a sequence of lines, each of them blank, an assignment or a header, possibly with a
comment. The lines are read first and then carried out one after the other on the root table. There
is no tree if the text breaks the grammar, defines something twice, or nests arrays and inline tables
deeper than eighty.
-/
namespace SiteNav.Toml
open Literal (dropBlanks newline?)

structure DottedKey where
  path : List Key
  last : Key

inductive Line where
  | assign (key : DottedKey) (value : Node)
  | table (key : DottedKey) (span : Span)
  | element (key : DottedKey) (span : Span)

def isBareKeyChar (c : Char) : Bool :=
  Text.isDigit c || ('a' ≤ c && c ≤ 'z') || ('A' ≤ c && c ≤ 'Z') || c == '_' || c == '-'

def spanKeyChars : List Char → List Char × List Char
  | [] => ([], [])
  | c :: cs =>
    if isBareKeyChar c then
      let (word, rest) := spanKeyChars cs
      (c :: word, rest)
    else ([], c :: cs)

/-- A bare or quoted key; quoted ones have one line. -/
def scanKey (cs : List Char) : Option (Key × List Char) :=
  match cs with
  | '"' :: r => (Literal.basic (r.length + 1) r).map (named cs)
  | '\'' :: r => (Literal.literal r).map (named cs)
  | _ =>
    match spanKeyChars cs with
    | ([], _) => none
    | r => some (named cs r)
where
  named (cs : List Char) (r : List Char × List Char) : Key × List Char :=
    (⟨String.ofList r.1, .between cs r.2⟩, r.2)

def scanDottedKey : Nat → List Char → Option (DottedKey × List Char)
  | 0, _ => none
  | fuel + 1, cs => do
    let (k, rest) ← scanKey cs
    match dropBlanks rest with
    | '.' :: r =>
      let (more, rest) ← scanDottedKey fuel (dropBlanks r)
      return (⟨k :: more.path, more.last⟩, rest)
    | _ => return (⟨[], k⟩, rest)

/-- What is left after a comment up to its line end; the number sign is behind. -/
def dropComment : List Char → Option (List Char)
  | [] => some []
  | '\n' :: cs => some ('\n' :: cs)
  | '\r' :: '\n' :: cs => some ('\r' :: '\n' :: cs)
  | c :: cs => if isVisible c then dropComment cs else none

def dropGaps : Nat → List Char → Option (List Char)
  | 0, _ => none
  | fuel + 1, cs =>
    match dropBlanks cs with
    | '#' :: r => (dropComment r).bind (dropGaps fuel)
    | '\n' :: r => dropGaps fuel r
    | '\r' :: '\n' :: r => dropGaps fuel r
    | r => some r

def gaps (cs : List Char) : Option (List Char) :=
  dropGaps (cs.length + 1) cs

mutual

/-- Reads a value below `depth` arrays and inline tables. -/
def scanValue : Nat → Nat → List Char → Option (Node × List Char)
  | 0, _, _ => none
  | fuel + 1, depth, cs =>
    match cs with
    | '[' :: r =>
      if depth < 80 then do
        let (items, rest) ← scanItems fuel (depth + 1) (← gaps r)
        return (.array (.between cs rest) false items, rest)
      else none
    | '{' :: r =>
      if depth < 80 then do
        let (entries, rest) ← scanEntries fuel (depth + 1) [] (← gaps r)
        return (.table (.between cs rest) .inline entries, rest)
      else none
    | '"' :: _ | '\'' :: _ => do
      let (text, rest) ← Literal.scan cs
      return (.scalar (.between cs rest) (.text (String.ofList text)), rest)
    | _ => do
      let (s, rest) ← Bare.scan cs
      return (.scalar (.between cs rest) s, rest)

def scanItems : Nat → Nat → List Char → Option (List Node × List Char)
  | 0, _, _ => none
  | fuel + 1, depth, cs =>
    match cs with
    | ']' :: r => some ([], r)
    | _ => do
      let (node, rest) ← scanValue fuel depth cs
      match ← gaps rest with
      | ',' :: r =>
        let (nodes, rest) ← scanItems fuel depth (← gaps r)
        return (node :: nodes, rest)
      | ']' :: r => return ([node], r)
      | _ => none

def scanEntries : Nat → Nat → Entries → List Char → Option (Entries × List Char)
  | 0, _, _, _ => none
  | fuel + 1, depth, es, cs =>
    match cs with
    | '}' :: r => some (es, r)
    | _ => do
      let ((key, node), rest) ← scanAssignment fuel depth cs
      let es ← es.assign key.path key.last node
      match ← gaps rest with
      | ',' :: r => scanEntries fuel depth es (← gaps r)
      | '}' :: r => return (es, r)
      | _ => none

def scanAssignment : Nat → Nat → List Char → Option ((DottedKey × Node) × List Char)
  | 0, _, _ => none
  | fuel + 1, depth, cs => do
    let (key, rest) ← scanDottedKey (cs.length + 1) cs
    match dropBlanks rest with
    | '=' :: r =>
      let (node, rest) ← scanValue fuel depth (dropBlanks r)
      return ((key, node), rest)
    | _ => none

end

def scanHeader (cs : List Char) : Option (Line × List Char) :=
  match cs with
  | '[' :: '[' :: r => do
    let (key, rest) ← scanDottedKey (r.length + 1) (dropBlanks r)
    match dropBlanks rest with
    | ']' :: ']' :: rest => return (.element key (.between cs rest), rest)
    | _ => none
  | '[' :: r => do
    let (key, rest) ← scanDottedKey (r.length + 1) (dropBlanks r)
    match dropBlanks rest with
    | ']' :: rest => return (.table key (.between cs rest), rest)
    | _ => none
  | _ => none

def scanStatement (cs : List Char) : Option (Line × List Char) :=
  match cs with
  | '[' :: _ => scanHeader cs
  | _ => do
    let ((key, node), rest) ← scanAssignment (3 * cs.length + 4) 0 cs
    return (.assign key node, rest)

def endLine (cs : List Char) : Option (List Char) := do
  let rest ← match dropBlanks cs with
    | '#' :: r => dropComment r
    | r => some r
  match rest with
  | [] => return []
  | _ => newline? rest

/-- Every step reads a line. -/
def scanLines : Nat → List Char → Option (List Line)
  | 0, _ => none
  | fuel + 1, cs => do
    match ← gaps cs with
    | [] => return []
    | c :: r =>
      let (line, rest) ← scanStatement (c :: r)
      let lines ← scanLines fuel (← endLine rest)
      return line :: lines

structure Builder where
  root : Entries
  header : List Key

def Builder.apply (b : Builder) : Line → Option Builder
  | .assign key node => do
    return { b with root := ← b.root.update false (·.assign key.path key.last node) b.header }
  | .table key span => do
    return ⟨← b.root.openTable key.path key.last span, key.path ++ [key.last]⟩
  | .element key span => do
    return ⟨← b.root.openElement key.path key.last span, key.path ++ [key.last]⟩

def dropMark : List Char → List Char
  | '\uFEFF' :: cs => cs
  | cs => cs

/-- Reads a text, after a byte order mark if it has one. The root table stands at its very start. -/
def read (cs : List Char) : Option Node := do
  let lines ← scanLines (cs.length + 1) (dropMark cs)
  let built ← lines.foldlM Builder.apply ⟨[], []⟩
  return .table ⟨cs.length, cs.length⟩ .header built.root

end SiteNav.Toml
