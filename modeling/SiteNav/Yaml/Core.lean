import SiteNav.Decimal.Binary64
import SiteNav.Decimal.Width
import SiteNav.Text.Digit

/-!
# What plain scalars stand for

A plain scalar may spell null, a truth value or a number. Integers are decimal, hexadecimal, octal or
binary; more than one digit of which the first is zero spell no decimal number. Whatever spells
nothing else is a text.
-/
namespace SiteNav.Yaml.Core
open Decimal Text

inductive Value where
  | null
  | bool (b : Bool)
  | integer (n : Int)
  | floating (x : Binary64)
  | text
  deriving DecidableEq

def isNull (s : String) : Bool :=
  s == "null" || s == "Null" || s == "NULL" || s == "~"

def bool? (s : String) : Option Bool :=
  if s == "true" || s == "True" || s == "TRUE" then some true
  else if s == "false" || s == "False" || s == "FALSE" then some false
  else none

def splitSign : List Char → Bool × List Char
  | '-' :: cs => (true, cs)
  | '+' :: cs => (false, cs)
  | cs => (false, cs)

/-- Digits that spell no decimal number for their leading zero. -/
def isZeroLed (cs : List Char) : Bool :=
  match (splitSign cs).2 with
  | '0' :: d :: ds => (d :: ds).all isDigit
  | _ => false

def magnitude? : List Char → Option Nat
  | '0' :: 'x' :: cs => numeral? 16 cs
  | '0' :: 'o' :: cs => numeral? 8 cs
  | '0' :: 'b' :: cs => numeral? 2 cs
  | cs => if isZeroLed cs then none else numeral? 10 cs

/-- An integer of at most 128 bits, signed if it is negative. -/
def integer? (cs : List Char) : Option Int :=
  let (negative, body) := splitSign cs
  match magnitude? body with
  | some n =>
    if negative then if fitsSigned 128 (-n) then some (-n) else none
    else if fitsUnsigned 128 n then some n else none
  | none => none

/-- Digits with at most one point among them: the number without the point, and the places after
it. -/
def fraction? (cs : List Char) : Option (Nat × Nat) :=
  let whole := cs.takeWhile (· ≠ '.')
  let places := (cs.drop whole.length).drop 1
  (numeral? 10 (whole ++ places)).map fun n => (n, places.length)

def exponent? : List Char → Option Int
  | [] => some 0
  | _ :: cs =>
    let (negative, ds) := splitSign cs
    (numeral? 10 ds).map fun n => if negative then -(n : Int) else n

def isFinite : Binary64 → Bool
  | .finite _ _ _ => true
  | _ => false

def decimal? (cs : List Char) : Option Binary64 :=
  let (negative, body) := splitSign cs
  let mantissa := body.takeWhile fun c => c ≠ 'e' ∧ c ≠ 'E'
  match fraction? mantissa, exponent? (body.drop mantissa.length) with
  | some (n, places), some e =>
    let x := Binary64.ofDecimal negative n (e - places)
    if isFinite x then some x else none
  | _, _ => none

def infinity : List String := [".inf", ".Inf", ".INF"]

def floating? (s : String) : Option Binary64 :=
  if infinity.contains s || (infinity.map ("+" ++ ·)).contains s then some (.infinite false)
  else if (infinity.map ("-" ++ ·)).contains s then some (.infinite true)
  else if [".nan", ".NaN", ".NAN"].contains s then some .nan
  else decimal? s.toList

def resolve (s : String) : Value :=
  if s.isEmpty || isNull s then .null
  else match bool? s with
    | some b => .bool b
    | none =>
      match integer? s.toList with
      | some n => .integer n
      | none =>
        if isZeroLed s.toList then .text
        else match floating? s with
          | some x => .floating x
          | none => .text

end SiteNav.Yaml.Core
