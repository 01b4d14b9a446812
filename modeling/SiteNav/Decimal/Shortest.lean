import SiteNav.Decimal.Binary64

/-!
# The shortest decimal that reads back

A finite number is written with the fewest significant digits that are read back as the same number,
and among those with the decimal nearest to it. A notation then says where the point goes and when an
exponent is used.
-/
namespace SiteNav.Decimal

structure Expansion where
  digits : Nat
  exponent : Int
  deriving DecidableEq

/-- The largest `k` with `10 ^ k ≤ num / den`, looked for downwards from `k`. -/
def leadingExponent (num den : Nat) : Nat → Int → Int
  | 0, k => k
  | fuel + 1, k =>
    let (n, d) := Binary64.scaled 10 num den k
    if d ≤ n then k else leadingExponent num den fuel (k - 1)

/-- Of the two neighbours of `num / den` on the grid of `10 ^ k` the nearer one that reads back. -/
def onGrid? (x : Binary64) (num den : Nat) (k : Int) : Option Expansion :=
  let (n, d) := Binary64.scaled 10 num den k
  let low := n / d
  let twice := 2 * (n % d)
  let (first, second) :=
    if twice < d ∨ (twice = d ∧ low % 2 = 0) then (low, low + 1) else (low + 1, low)
  if Binary64.ofDecimal false first k = x then some ⟨first, k⟩
  else if Binary64.ofDecimal false second k = x then some ⟨second, k⟩
  else none

def shortestFrom (x : Binary64) (num den : Nat) (lead : Int) : Nat → Nat → Expansion
  | 0, n => ⟨0, lead - n⟩
  | fuel + 1, n =>
    match onGrid? x num den (lead - n) with
    | some d => d
    | none => shortestFrom x num den lead fuel (n + 1)

def dropFinalZeros : Nat → Nat → Int → Expansion
  | 0, n, e => ⟨n, e⟩
  | fuel + 1, n, e => if n ≠ 0 ∧ n % 10 = 0 then dropFinalZeros fuel (n / 10) (e + 1) else ⟨n, e⟩

def shortest (multiple : Nat) (exponent : Int) : Expansion :=
  let (num, den) := Binary64.fraction multiple exponent
  let lead := leadingExponent num den 700 310
  let d := shortestFrom (.finite false multiple exponent) num den lead 20 0
  dropFinalZeros 20 d.digits d.exponent

/-- How decimals are laid out: positional while the exponent of the first digit is at least `low` and
below `high`, and with an exponent mark otherwise. Without bounds all are positional. -/
structure Notation where
  bounds : Option (Int × Int)
  plusSign : Bool

namespace Notation

def digitChars (n : Nat) : List Char :=
  Nat.toDigits 10 n

def positional (ds : List Char) (lead : Int) : List Char :=
  if lead < 0 then '0' :: '.' :: (List.replicate (-lead - 1).toNat '0' ++ ds)
  else
    let whole := lead.toNat + 1
    if ds.length ≤ whole then ds ++ List.replicate (whole - ds.length) '0' ++ ['.', '0']
    else ds.take whole ++ '.' :: ds.drop whole

def scientific (plusSign : Bool) (ds : List Char) (lead : Int) : List Char :=
  let mantissa := match ds with
    | d :: e :: rest => d :: '.' :: e :: rest
    | _ => ds
  let sign := if lead < 0 then ['-'] else if plusSign then ['+'] else []
  mantissa ++ 'e' :: sign ++ digitChars lead.natAbs

def writeFinite (nt : Notation) (multiple : Nat) (exponent : Int) : List Char :=
  if multiple = 0 then ['0', '.', '0']
  else
    let d := shortest multiple exponent
    let ds := digitChars d.digits
    let lead := d.exponent + ds.length - 1
    match nt.bounds with
    | none => positional ds lead
    | some (low, high) =>
      if low ≤ lead ∧ lead < high then positional ds lead else scientific nt.plusSign ds lead

def write (nt : Notation) : Binary64 → String
  | .finite s k e => String.ofList ((if s then ['-'] else []) ++ nt.writeFinite k e)
  | .infinite s => if s then "-inf" else "inf"
  | .nan => "NaN"

def plain : Notation := ⟨none, false⟩

/-- Positional notation from `0.00001` up to `10 ^ 16`, and an exponent with its sign beyond. -/
def signedExponent : Notation := ⟨some (-5, 16), true⟩

end Notation

end SiteNav.Decimal
