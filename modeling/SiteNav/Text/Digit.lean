/-!
# Digits

Numbers spelled by digits of a base up to sixteen, letters in either case, and the characters that
escapes name by such numbers.
-/
namespace SiteNav.Text

def isDigit (c : Char) : Bool :=
  '0' ≤ c && c ≤ '9'

def digit? (base : Nat) (c : Char) : Option Nat :=
  let v :=
    if isDigit c then c.toNat - '0'.toNat
    else if 'a' ≤ c ∧ c ≤ 'f' then c.toNat - 'a'.toNat + 10
    else if 'A' ≤ c ∧ c ≤ 'F' then c.toNat - 'A'.toNat + 10
    else base
  if v < base then some v else none

/-- The number that exactly `n` digits after `v` spell, and what follows them. -/
def digits? (base : Nat) : Nat → Nat → List Char → Option (Nat × List Char)
  | 0, v, cs => some (v, cs)
  | n + 1, v, c :: cs => (digit? base c).bind fun d => digits? base n (v * base + d) cs
  | _ + 1, _, [] => none

def numeral? (base : Nat) (cs : List Char) : Option Nat :=
  if cs.isEmpty then none else (digits? base cs.length 0 cs).map (·.1)

/-- The character with a code point that is no surrogate. -/
def scalar? (n : Nat) : Option Char :=
  if h : n.isValidChar then some (Char.ofNatAux n h) else none

def codePoint? (n : Nat) (cs : List Char) : Option (Char × List Char) := do
  let (v, rest) ← digits? 16 n 0 cs
  return (← scalar? v, rest)

def byteCount (cs : List Char) : Nat :=
  cs.foldl (fun n c => n + c.utf8Size) 0

end SiteNav.Text
