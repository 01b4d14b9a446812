import SiteNav.Yaml.Property
import SiteNav.Yaml.Scalar.Block
import SiteNav.Yaml.Scalar.Plain
import SiteNav.Yaml.Scalar.Quoted

/-!
# The outline of a YAML text

An outline holds the tokens read up to some place of a text, with the blocks and brackets that are
open there. A block begins where a line is indented deeper and ends where one is indented less. That
something is a key shows only in the colon after it, on the same line and within 1024 characters; the
tokens for the key and for the block it begins are then put where it started.
-/
namespace SiteNav.Yaml

/-- A place where a key may have started. -/
structure Candidate where
  mark : Mark
  /-- The number of tokens before it. -/
  position : Nat
  /-- At this indentation of a block only a key can start. -/
  required : Bool

/-- A candidate that can still turn out to be a key at `m`. -/
def Candidate.live? (m : Mark) : Option Candidate → Option (Option Candidate)
  | none => some none
  | some c =>
    if c.mark.line < m.line ∨ c.mark.column + 1024 < m.column then
      if c.required then none else some none
    else some (some c)

structure Outline where
  /-- The tokens so far, latest first. -/
  tokens : List Token
  /-- The columns of the open blocks, innermost first. -/
  indents : List Nat
  candidate : Option Candidate
  /-- The candidates around each open bracket, innermost first. -/
  outer : List (Option Candidate)
  /-- A key may start here. -/
  keyAllowed : Bool

namespace Outline

def empty : Outline := ⟨[], [], none, [], true⟩

variable (o : Outline)

def inFlow : Bool :=
  !o.outer.isEmpty

/-- The least column of what belongs to the innermost block. -/
def least : Nat :=
  match o.indents with
  | [] => 0
  | i :: _ => i + 1

def allowKey (b : Bool) : Outline :=
  { o with keyAllowed := b }

def emit (m : Mark) (x : Lexeme) : Outline :=
  { o with tokens := ⟨m, x⟩ :: o.tokens }

def insert (position : Nat) (m : Mark) (x : Lexeme) : Outline :=
  let later := o.tokens.length - position
  { o with tokens := o.tokens.take later ++ ⟨m, x⟩ :: o.tokens.drop later }

def endBlocks (m : Mark) (deeper : Nat → Bool) : Outline :=
  if o.inFlow then o
  else
    let ended := o.indents.takeWhile deeper
    { o with
      tokens := ended.map (fun _ => ⟨m, .blockEnd⟩) ++ o.tokens
      indents := o.indents.drop ended.length }

/-- Begins a block at the column of `m`, unless one is open there, behind the first `position`
tokens. -/
def beginBlock (m : Mark) (position : Nat) (x : Lexeme) : Outline :=
  if o.inFlow || m.column < o.least then o
  else { o.insert position m x with indents := m.column :: o.indents }

/-- Whatever started at the candidate is no key. -/
def dropCandidate : Option Outline :=
  match o.candidate with
  | some c => if c.required then none else some { o with candidate := none }
  | none => some o

def candidateAt (m : Mark) : Candidate :=
  ⟨m, o.tokens.length, !o.inFlow && o.indents.head? == some m.column⟩

def noteCandidate (m : Mark) : Option Outline :=
  if o.keyAllowed then do
    let o' ← o.dropCandidate
    return { o' with candidate := some (o.candidateAt m) }
  else some o

def expire (m : Mark) : Option Outline := do
  let candidate ← Candidate.live? m o.candidate
  let outer ← o.outer.mapM (Candidate.live? m)
  return { o with candidate, outer }

def boundary (m : Mark) (b : Boundary) : Option Outline := do
  let o ← (o.endBlocks m fun _ => true).dropCandidate
  return (o.allowKey false).emit m (.document b)

def directive (m : Mark) (x : Lexeme) : Option Outline := do
  let o ← (o.endBlocks m fun _ => true).dropCandidate
  return (o.allowKey false).emit m x

def openBracket (m : Mark) (x : Lexeme) : Option Outline := do
  let o ← o.noteCandidate m
  return { o with candidate := none, outer := o.candidate :: o.outer, keyAllowed := true }.emit m x

def closeBracket (m : Mark) (x : Lexeme) : Option Outline := do
  let o ← o.dropCandidate
  match o.outer with
  | c :: outer => return { o with candidate := c, outer, keyAllowed := false }.emit m x
  | [] => return (o.allowKey false).emit m x

def comma (m : Mark) : Option Outline := do
  let o ← o.dropCandidate
  return (o.allowKey true).emit m .comma

def dash (m : Mark) : Option Outline :=
  if !o.inFlow && !o.keyAllowed then none
  else do
    let o ← (o.beginBlock m o.tokens.length .blockList).dropCandidate
    return (o.allowKey true).emit m .dash

def key (m : Mark) : Option Outline :=
  if !o.inFlow && !o.keyAllowed then none
  else do
    let o ← (o.beginBlock m o.tokens.length .blockMap).dropCandidate
    return (o.allowKey (!o.inFlow)).emit m .key

def value (m : Mark) : Option Outline :=
  match o.candidate with
  | some c =>
    let o := { o with candidate := none }.insert c.position c.mark .key
    some (((o.beginBlock c.mark c.position .blockMap).allowKey false).emit m .value)
  | none =>
    if !o.inFlow && !o.keyAllowed then none
    else
      let o := o.beginBlock m o.tokens.length .blockMap
      some ((o.allowKey (!o.inFlow)).emit m .value)

/-- A scalar, alias, anchor or tag, which may be or begin a key. -/
def content (m : Mark) (x : Lexeme) : Option Outline := do
  let o ← o.noteCandidate m
  return (o.allowKey false).emit m x

def blockScalar (m : Mark) (x : Lexeme) : Option Outline := do
  let o ← o.dropCandidate
  return (o.allowKey true).emit m x

def next (m : Mark) (c : Char) (cs : List Char) : Option (Outline × Tail) :=
  let here : Tail := ⟨m, c :: cs⟩
  let after : Tail := ⟨m.past c, cs⟩
  let sign (r : Option Outline) : Option (Outline × Tail) := r.map fun o => (o, after)
  if m.column = 0 ∧ c = '%' then do
    let (x, t) ← Directive.read? after
    return (← o.directive m x, ← Block.restOfLine t)
  else match boundary? m (c :: cs) with
  | some b => (o.boundary m b).map fun o => (o, ⟨⟨m.line, m.column + 3⟩, cs.drop 2⟩)
  | none =>
    if c = '[' then sign (o.openBracket m .flowList)
    else if c = '{' then sign (o.openBracket m .flowMap)
    else if c = ']' then sign (o.closeBracket m .flowListEnd)
    else if c = '}' then sign (o.closeBracket m .flowMapEnd)
    else if c = ',' then sign (o.comma m)
    else if c = '-' ∧ atGap cs then sign (o.dash m)
    else if c = '?' ∧ (o.inFlow ∨ atGap cs) then sign (o.key m)
    else if c = ':' ∧ (o.inFlow ∨ atGap cs) then sign (o.value m)
    else if c = '*' then do
      let (name, t) ← anchorName? after
      return (← o.content m (.reference name), t)
    else if c = '&' then do
      let (name, t) ← anchorName? after
      return (← o.content m (.anchor name), t)
    else if c = '!' then do
      let (x, t) ← Tag.read? o.inFlow here
      return (← o.content m x, t)
    else if (c = '|' ∨ c = '>') ∧ !o.inFlow then do
      let (s, t) ← Block.scan (c == '>') o.least after
      return (← o.blockScalar m (.scalar (if c = '>' then .folded else .literal) s), t)
    else if c = '\'' then do
      let (s, t) ← Quoted.single after
      return (← o.content m (.scalar .single s), t)
    else if c = '"' then do
      let (s, t) ← Quoted.double after
      return (← o.content m (.scalar .double s), t)
    else if Plain.begins o.inFlow c cs then do
      let (s, lines, t) ← Plain.scan o.inFlow o.least here
      return ((← o.content m (.scalar .plain s)).allowKey lines, t)
    else none

/-- Skips blanks, comments and line breaks; a tab does not count as a blank where a key may start, and
a byte order mark does at the beginning of a line. After a line break outside brackets a key may
start. -/
def skipGap (flow keyAllowed comment : Bool) : Mark → List Char → Bool × Tail
  | m, [] => (keyAllowed, ⟨m, []⟩)
  | m, c :: cs =>
    if isBreak c then skipGap flow (keyAllowed || !flow) false (m.past c) cs
    else if comment || c == '#' then skipGap flow keyAllowed true (m.past c) cs
    else if c == ' ' || (c == '\t' && (flow || !keyAllowed)) ||
        (c == '\ufeff' && m.column == 0) then
      skipGap flow keyAllowed false (m.past c) cs
    else (keyAllowed, ⟨m, c :: cs⟩)

def finish (m : Mark) : Option (List Token) := do
  let m := if m.column = 0 then m else ⟨m.line + 1, 0⟩
  let o ← (o.endBlocks m fun _ => true).dropCandidate
  return (o.emit m .streamEnd).tokens.reverse

/-- Reads on to the end of the text. Every round but the last takes some characters. -/
def read : Nat → Outline → Tail → Option (List Token)
  | 0, _, _ => none
  | fuel + 1, o, t => do
    let (keyAllowed, t) := skipGap o.inFlow o.keyAllowed false t.mark t.chars
    let o ← (o.allowKey keyAllowed).expire t.mark
    let o := o.endBlocks t.mark fun i => t.mark.column < i
    match t.chars with
    | [] => o.finish t.mark
    | c :: cs =>
      let (o, t) ← o.next t.mark c cs
      read fuel o t

end Outline

def tokens? (cs : List Char) : Option (List Token) :=
  if !cs.all isAllowed then none
  else
    let t : Tail := ⟨.start, unifyBreaks cs⟩
    Outline.empty.read (t.chars.length + 1) t

end SiteNav.Yaml
