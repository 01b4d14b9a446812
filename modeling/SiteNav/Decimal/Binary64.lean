/-!
# Double-precision numbers

A finite number is a whole multiple of a power of two, with a sign that zero has too. Results are
rounded to the nearest number with 53 significant bits, ties to an even multiple; what reaches
`2 ^ 1024` is infinite. All arithmetic is exact before it is rounded.
-/
namespace SiteNav.Decimal

inductive Binary64 where
  | finite (negative : Bool) (multiple : Nat) (exponent : Int)
  | infinite (negative : Bool)
  | nan
  deriving DecidableEq

namespace Binary64

/-- A fraction over a power of a base, as numerator and denominator. -/
def scaled (base num den : Nat) (e : Int) : Nat × Nat :=
  if 0 ≤ e then (num, den * Nat.pow base e.toNat) else (num * Nat.pow base (-e).toNat, den)

def leastFull : Nat := 0x10000000000000

def roundHalfEven (num den : Nat) : Nat :=
  let q := num / den
  let r := num % den
  if den < 2 * r ∨ (2 * r = den ∧ q % 2 = 1) then q + 1 else q

/-- The exponent at which a positive fraction has 53 bits before the point, or the least one. -/
def fitExponent (num den : Nat) : Int :=
  let e : Int := num.log2 - den.log2 - 52
  let (n, d) := scaled 2 num den e
  max (if n < d * leastFull then e - 1 else e) (-1074)

def ofFraction (negative : Bool) (num den : Nat) : Binary64 :=
  if num = 0 then .finite negative 0 (-1074)
  else
    let e := fitExponent num den
    let (n, d) := scaled 2 num den e
    let k := roundHalfEven n d
    let (k, e) := if k = 2 * leastFull then (leastFull, e + 1) else (k, e)
    if 971 < e then .infinite negative else .finite negative k e

def ofNat (negative : Bool) (n : Nat) : Binary64 :=
  ofFraction negative n 1

/-- The number nearest to `digits * 10 ^ exponent`. Exponents out of any reach are cut off. -/
def ofDecimal (negative : Bool) (digits : Nat) (exponent : Int) : Binary64 :=
  if digits = 0 then .finite negative 0 (-1074)
  else
    let magnitude := exponent + (digits.log2 : Int) / 4
    if 400 < magnitude then .infinite negative
    else if exponent + (digits.log2 : Int) < -1200 then .finite negative 0 (-1074)
    else
      let (num, den) := scaled 10 digits 1 (-exponent)
      ofFraction negative num den

def fraction (k : Nat) (e : Int) : Nat × Nat :=
  scaled 2 k 1 (-e)

def isZero : Binary64 → Bool
  | finite _ k _ => k == 0
  | _ => false

def isInfinite : Binary64 → Bool
  | infinite _ => true
  | _ => false

/-- The product with a positive power of ten, `10 ^ n` rounded first. -/
def mulPowTen (x : Binary64) (n : Nat) : Binary64 :=
  match x, ofNat false (Nat.pow 10 n) with
  | .finite s k e, .finite _ k' e' =>
    let (a, b) := fraction k e
    let (c, d) := fraction k' e'
    ofFraction s (a * c) (b * d)
  | x, _ => x

def divPowTen (x : Binary64) (n : Nat) : Binary64 :=
  match x, ofNat false (Nat.pow 10 n) with
  | .finite s k e, .finite _ k' e' =>
    let (a, b) := fraction k e
    let (c, d) := fraction k' e'
    ofFraction s (a * d) (b * c)
  | x, _ => x

def neg : Binary64 → Binary64
  | finite s k e => finite (!s) k e
  | infinite s => infinite (!s)
  | nan => nan

end Binary64

end SiteNav.Decimal
