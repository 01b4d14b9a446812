/-!
# Faults of JSON texts

A place in a text is its line and the number of bytes before it on that line. A fault is placed after
the byte that cannot stand where it does, or at the end of the text. Some faults read differently to
a reader that wants the value and to one that skips it.
-/
namespace SiteNav.Json

structure Pos where
  line : Nat
  column : Nat
  deriving DecidableEq

namespace Pos

def start : Pos := ⟨1, 0⟩

def next (p : Pos) (c : Char) : Pos :=
  if c = '\n' then ⟨p.line + 1, 0⟩ else ⟨p.line, p.column + c.utf8Size⟩

/-- The place after the first byte of a character. -/
def nextByte (p : Pos) (c : Char) : Pos :=
  if c = '\n' then ⟨p.line + 1, 0⟩ else ⟨p.line, p.column + 1⟩

def nexts (p : Pos) (cs : List Char) : Pos :=
  cs.foldl next p

def peek (p : Pos) : List Char → Pos
  | [] => p
  | c :: _ => p.nextByte c

def nextBytes (p : Pos) : Nat → List Char → Pos
  | _, [] => p
  | n, c :: cs =>
    if n = 0 then p
    else if n < c.utf8Size then ⟨p.line, p.column + n⟩
    else nextBytes (p.next c) (n - c.utf8Size) cs

end Pos

inductive Cause where
  | endInValue
  | endInText
  | endInMap
  | endInList
  | expectedValue
  | expectedWord
  | expectedColon
  | expectedCommaOrBrace
  | expectedCommaOrBracket
  | keyNotText
  | trailingComma
  | trailingCharacters
  | invalidNumber
  | numberOutOfRange
  | invalidEscape
  | controlCharacter
  | loneSurrogate
  | unpairedSurrogate
  deriving DecidableEq

def Cause.message : Cause → String
  | endInValue => "EOF while parsing a value"
  | endInText => "EOF while parsing a string"
  | endInMap => "EOF while parsing an object"
  | endInList => "EOF while parsing a list"
  | expectedValue => "expected value"
  | expectedWord => "expected ident"
  | expectedColon => "expected `:`"
  | expectedCommaOrBrace => "expected `,` or `\x7d`"
  | expectedCommaOrBracket => "expected `,` or `]`"
  | keyNotText => "key must be a string"
  | trailingComma => "trailing comma"
  | trailingCharacters => "trailing characters"
  | invalidNumber => "invalid number"
  | numberOutOfRange => "number out of range"
  | invalidEscape => "invalid escape"
  | controlCharacter => "control character (\\u0000-\\u001F) found while parsing a string"
  | loneSurrogate => "lone leading surrogate in hex escape"
  | unpairedSurrogate => "unexpected end of hex escape"

structure Fault where
  cause : Cause
  pos : Pos
  deriving DecidableEq

/-- A scanned token: its value with the rest of the text, or the fault that ends the text, as seen by a
reader that wants the value and by one that skips it. A token that can be skipped may still have no
value. -/
inductive Scan (α : Type) where
  | done (value : Except Fault α) (rest : List Char) (pos : Pos)
  | broken (wanted skipped : Fault)

end SiteNav.Json
