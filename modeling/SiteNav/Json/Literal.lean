import SiteNav.Json.Fault
import SiteNav.Text.Digit

/-!
# JSON strings

Between its quotes a text is written as it is, but for quotes, backslashes and the controls below
U+0020, which are escaped. A character beyond U+FFFF may be escaped as a pair of surrogates; a
surrogate on its own spells no character, though such a string can still be skipped.
-/
namespace SiteNav.Json

namespace Literal
open Text

def unit? (a b c d : Char) : Option Nat :=
  match digit? 16 a, digit? 16 b, digit? 16 c, digit? 16 d with
  | some a, some b, some c, some d => some (((a * 16 + b) * 16 + c) * 16 + d)
  | _, _, _, _ => none

def simpleEscape? : Char → Option Char
  | '"' => some '"'
  | '\\' => some '\\'
  | '/' => some '/'
  | 'b' => some '\x08'
  | 'f' => some '\x0c'
  | 'n' => some '\n'
  | 'r' => some '\r'
  | 't' => some '\t'
  | _ => none

/-- A string up to some place: its characters in reverse, a leading surrogate that waits for its
partner, and why the string spells no text. -/
structure State where
  chars : List Char := []
  lead : Option Nat := none
  fault : Option Fault := none

namespace State
variable (st : State)

/-- Something other than the partner of the leading surrogate ends at `pos`. -/
def unpaired (pos : Pos) : State :=
  match st.lead, st.fault with
  | some _, none => { st with lead := none, fault := some ⟨.unpairedSurrogate, pos⟩ }
  | _, _ => st

def push (c : Char) : State :=
  { st with chars := c :: st.chars }

def lone (pos : Pos) : State :=
  { st with lead := none, fault := some ⟨.loneSurrogate, pos⟩ }

def pushUnit (n : Nat) (pos : Pos) : State :=
  if st.fault.isSome then st
  else
    let low := 0xDC00 ≤ n && n ≤ 0xDFFF
    match st.lead with
    | some hi =>
      if low then
        { st with lead := none
                  chars := Char.ofNat ((hi - 0xD800) * 0x400 + (n - 0xDC00) + 0x10000) :: st.chars }
      else st.lone pos
    | none =>
      if low then st.lone pos
      else if 0xD800 ≤ n ∧ n ≤ 0xDBFF then { st with lead := some n }
      else st.push (Char.ofNat n)

def value : Except Fault String :=
  match st.fault with
  | some f => .error f
  | none => .ok (String.ofList st.chars.reverse)

def broken (wanted skipped : Fault) : Scan String :=
  .broken (st.fault.getD wanted) skipped

end State

/-- Four bytes that are no hexadecimal digits, or fewer than four up to the end. -/
def badUnit (cs : List Char) (pos : Pos) : Fault :=
  if 4 ≤ byteCount cs then ⟨.invalidEscape, pos.nextBytes 4 cs⟩ else ⟨.endInText, pos.nexts cs⟩

def scanFrom (st : State) : List Char → Pos → Scan String
  | [], pos => st.broken ⟨.endInText, pos⟩ ⟨.endInText, pos⟩
  | '"' :: rest, pos => .done (st.unpaired (pos.next '"')).value rest (pos.next '"')
  | '\\' :: 'u' :: a :: b :: c :: d :: rest, pos =>
    let pos := pos.nexts ['\\', 'u']
    match unit? a b c d with
    | some n =>
      let pos := pos.nexts [a, b, c, d]
      scanFrom (st.pushUnit n pos) rest pos
    | none =>
      let f := badUnit (a :: b :: c :: d :: rest) pos
      st.broken f f
  | '\\' :: 'u' :: rest, pos =>
    let f := badUnit rest (pos.nexts ['\\', 'u'])
    st.broken f f
  | '\\' :: c :: rest, pos =>
    let after := (pos.next '\\').nextByte c
    let st := st.unpaired after
    match simpleEscape? c with
    | some x => scanFrom (st.push x) rest after
    | none => st.broken ⟨.invalidEscape, after⟩ ⟨.invalidEscape, after⟩
  | ['\\'], pos => st.broken ⟨.endInText, pos.next '\\'⟩ ⟨.endInText, pos.next '\\'⟩
  | c :: rest, pos =>
    let st := st.unpaired (pos.nextByte c)
    if c < ' ' then st.broken ⟨.controlCharacter, pos.nextByte c⟩ ⟨.controlCharacter, pos⟩
    else scanFrom (st.push c) rest (pos.next c)

def scan (cs : List Char) (pos : Pos) : Scan String :=
  scanFrom {} cs pos

end Literal

end SiteNav.Json
