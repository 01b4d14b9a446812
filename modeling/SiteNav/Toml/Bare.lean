import SiteNav.Text.Digit
import SiteNav.Toml.Node

/-!
# TOML numbers, flags and dates

These are written as one run of letters, digits and a few signs. Digits may be grouped by single
underscores between them; only hexadecimal, octal and binary integers and exponents may have leading
zeros. Of a date only its being one is kept.
-/
namespace SiteNav.Toml.Bare
open Decimal Text

/-- The value of digits after others, an underscore before any of them allowed. -/
def moreDigits? (base : Nat) : Nat → List Char → Option Nat
  | v, [] => some v
  | v, '_' :: c :: cs => (digit? base c).bind fun d => moreDigits? base (v * base + d) cs
  | v, c :: cs => (digit? base c).bind fun d => moreDigits? base (v * base + d) cs

def digits? (base : Nat) : List Char → Option Nat
  | [] => none
  | c :: cs => (digit? base c).bind fun d => moreDigits? base d cs

/-- Decimal digits without leading zeros. -/
def whole? (cs : List Char) : Option Nat :=
  match cs with
  | '0' :: _ :: _ => none
  | _ => digits? 10 cs

def splitSign : List Char → Bool × List Char
  | '-' :: r => (true, r)
  | '+' :: r => (false, r)
  | cs => (false, cs)

def integer? (cs : List Char) : Option Int :=
  match cs with
  | '0' :: 'x' :: r => (digits? 16 r).map Int.ofNat
  | '0' :: 'o' :: r => (digits? 8 r).map Int.ofNat
  | '0' :: 'b' :: r => (digits? 2 r).map Int.ofNat
  | _ =>
    let (negative, r) := splitSign cs
    (whole? r).map fun n => if negative then -(n : Int) else n

def cutAt (stop : Char → Bool) : List Char → List Char × Option (List Char)
  | [] => ([], none)
  | c :: cs =>
    if stop c then ([], some cs)
    else
      let (before, after) := cutAt stop cs
      (c :: before, after)

def exponent? : Option (List Char) → Option Int
  | none => some 0
  | some cs =>
    let (negative, r) := splitSign cs
    (digits? 10 r).map fun n => if negative then -(n : Int) else n

def digitCount (cs : List Char) : Nat :=
  (cs.filter isDigit).length

def inRange : Binary64 → Option Binary64
  | .infinite _ => none
  | x => some x

def floating? (cs : List Char) : Option (Option Binary64) :=
  let (negative, r) := splitSign cs
  if r == ['i', 'n', 'f'] then some (some (.infinite negative))
  else if r == ['n', 'a', 'n'] then some (some .nan)
  else
    let (mantissa, exp) := cutAt (fun c => c == 'e' || c == 'E') r
    let (int, frac) := cutAt (· == '.') mantissa
    match whole? int, frac, exponent? exp with
    | some n, some fs, some e =>
      (digits? 10 fs).map fun f =>
        let k := digitCount fs
        inRange (Binary64.ofDecimal negative (n * Nat.pow 10 k + f) (e - k))
    | some n, none, some e =>
      if exp.isSome then some (inRange (Binary64.ofDecimal negative n e)) else none
    | _, _, _ => none

def twoDigits? : List Char → Option (Nat × List Char)
  | a :: b :: r =>
    if isDigit a && isDigit b then
      some ((a.toNat - '0'.toNat) * 10 + (b.toNat - '0'.toNat), r)
    else none
  | _ => none

def isLeapYear (y : Nat) : Bool :=
  y % 4 == 0 && (y % 100 != 0 || y % 400 == 0)

def daysIn (year month : Nat) : Nat :=
  if month = 2 then if isLeapYear year then 29 else 28
  else if month = 4 ∨ month = 6 ∨ month = 9 ∨ month = 11 then 30
  else 31

/-- What follows a date of the calendar. -/
def date? (cs : List Char) : Option (List Char) := do
  let (century, r) ← twoDigits? cs
  let (year, r) ← twoDigits? r
  let year := century * 100 + year
  match r with
  | '-' :: r =>
    let (month, r) ← twoDigits? r
    match r with
    | '-' :: r =>
      let (day, r) ← twoDigits? r
      if 1 ≤ month ∧ month ≤ 12 ∧ 1 ≤ day ∧ day ≤ daysIn year month then some r else none
    | _ => none
  | _ => none

def dropDigits : List Char → List Char
  | [] => []
  | c :: cs => if isDigit c then dropDigits cs else c :: cs

/-- What follows the seconds with their fraction, where there are any. -/
def seconds? : List Char → Option (List Char)
  | ':' :: r => do
    let (s, r) ← twoDigits? r
    if 60 < s then none
    else match r with
      | '.' :: d :: r => if isDigit d then some (dropDigits r) else none
      | '.' :: [] => none
      | _ => some r
  | r => some r

def time? (cs : List Char) : Option (List Char) := do
  let (hour, r) ← twoDigits? cs
  match r with
  | ':' :: r =>
    let (minute, r) ← twoDigits? r
    if hour ≤ 23 ∧ minute ≤ 59 then seconds? r else none
  | _ => none

def isOffset : List Char → Bool
  | [] => true
  | ['Z'] | ['z'] => true
  | sign :: r =>
    if sign == '+' || sign == '-' then
      match twoDigits? r with
      | some (hour, ':' :: r) =>
        match twoDigits? r with
        | some (minute, []) => hour ≤ 23 && minute ≤ 59
        | _ => false
      | _ => false
    else false

def isDate (cs : List Char) : Bool :=
  match date? cs with
  | some [] => true
  | some (c :: r) =>
    (c == 'T' || c == 't' || c == ' ') && ((time? r).map isOffset).getD false
  | none => time? cs == some []

def scalar? (cs : List Char) : Option Scalar :=
  if cs == ['t', 'r', 'u', 'e'] then some (.bool true)
  else if cs == ['f', 'a', 'l', 's', 'e'] then some (.bool false)
  else match integer? cs with
    | some n => some (.integer n)
    | none =>
      match floating? cs with
      | some x => some (.floating x)
      | none => if isDate cs then some .date else none

def isBareChar (c : Char) : Bool :=
  isDigit c || ('a' ≤ c && c ≤ 'z') || ('A' ≤ c && c ≤ 'Z') || c == '_' || c == '-' || c == '+' ||
    c == '.' || c == ':'

def spanBare : List Char → List Char × List Char
  | [] => ([], [])
  | c :: cs =>
    if isBareChar c then
      let (run, rest) := spanBare cs
      (c :: run, rest)
    else ([], c :: cs)

/-- A run of characters; after a date it goes on with the time that a single space sets off. -/
def run (cs : List Char) : List Char × List Char :=
  match spanBare cs with
  | (word, ' ' :: d :: rest) =>
    if date? word == some [] && isDigit d then
      let (time, rest) := spanBare (d :: rest)
      (word ++ ' ' :: time, rest)
    else (word, ' ' :: d :: rest)
  | r => r

def scan (cs : List Char) : Option (Scalar × List Char) :=
  let (word, rest) := run cs
  (scalar? word).map fun s => (s, rest)

end SiteNav.Toml.Bare
