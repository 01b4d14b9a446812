import SiteNav.Decimal.Shortest
import SiteNav.Decimal.Width
import SiteNav.Json.Fault
import SiteNav.Text.Digit

/-!
# JSON numbers

An integer stays one while it fits in 64 bits, signed if it is negative; every other number, `-0`
among them, is a double-precision one. Its digits are gathered in an unsigned 64-bit significand, and
those that no longer fit are dropped. The significand is then scaled by a power of ten in one rounded
step, and only exponents beyond 308 take further steps.
-/
namespace SiteNav.Json
open Decimal Text

inductive Number where
  | integer (negative : Bool) (n : Nat)
  | floating (x : Binary64)
  deriving DecidableEq

namespace Number

def digitValue (c : Char) : Nat :=
  c.toNat - '0'.toNat

def spanDigits : List Char → List Char × List Char
  | [] => ([], [])
  | c :: cs =>
    if isDigit c then
      let (ds, rest) := spanDigits cs
      (c :: ds, rest)
    else ([], c :: cs)

/-- What is kept of the digits before the exponent: their value and the power of ten it stands for. -/
structure Significand where
  value : Nat
  exponent : Int
  /-- Some digit did not fit. -/
  cut : Bool

/-- The first digit that does not fit and all digits of the whole part after it only scale. -/
def wholePart (ds : List Char) : Significand :=
  ds.foldl (fun s c =>
    let v := s.value * 10 + digitValue c
    if !s.cut && fitsUnsigned 64 v then { s with value := v }
    else { s with exponent := s.exponent + 1, cut := true }) ⟨0, 0, false⟩

def fraction (s : Significand) : List Char → Significand
  | [] => s
  | c :: cs =>
    let v := s.value * 10 + digitValue c
    if fitsUnsigned 64 v then fraction { s with value := v, exponent := s.exponent - 1 } cs else s

/-- Divides by `10 ^ 308` until the exponent is in reach or nothing is left. -/
def scaleDown : Nat → Binary64 → Int → Binary64
  | 0, x, _ => x
  | fuel + 1, x, e =>
    if -308 ≤ e then x.divPowTen (-e).toNat
    else if x.isZero then x
    else scaleDown fuel (x.divPowTen 308) (e + 308)

def scale (value : Nat) (e : Int) : Option Binary64 :=
  let x := Binary64.ofNat false value
  if e < 0 then some (scaleDown 4 x e)
  else if x.isZero then some x
  else if 308 < e then none
  else
    let y := x.mulPowTen e.toNat
    if y.isInfinite then none else some y

def signed (negative : Bool) (x : Binary64) : Binary64 :=
  if negative then x.neg else x

def ofScaled (negative : Bool) (s : Significand) (e : Int) (pos : Pos) : Except Fault Number :=
  match scale s.value e with
  | some x => .ok (.floating (signed negative x))
  | none => .error ⟨.numberOutOfRange, pos⟩

def ofWhole (negative : Bool) (n : Nat) : Number :=
  if !negative then .integer false n
  else if 0 < n ∧ fitsSigned 64 (-n) then .integer true n
  else .floating (Binary64.ofNat true n)

/-- The exponent that digits spell, or the number of digits at which it leaves 32 bits. -/
def exponentValue : List Char → Nat → Nat → Except Nat Nat
  | [], _, v => .ok v
  | c :: cs, i, v =>
    let v := v * 10 + digitValue c
    if fitsSigned 32 v then exponentValue cs (i + 1) v else .error (i + 1)

def afterDigits (pos : Pos) (n : Nat) : Pos :=
  ⟨pos.line, pos.column + n⟩

def withExponent (negative : Bool) (s : Significand) (minus : Bool) (ds : List Char) (pos : Pos) :
    Except Fault Number :=
  match exponentValue ds 0 0 with
  | .ok e =>
    ofScaled negative s (if minus then s.exponent - e else s.exponent + e)
      (afterDigits pos ds.length)
  | .error i =>
    if s.value ≠ 0 ∧ !minus then .error ⟨.numberOutOfRange, afterDigits pos i⟩
    else .ok (.floating (signed negative (Binary64.ofNat false 0)))

def scanExponent (negative : Bool) (s : Significand) (cs : List Char) (pos : Pos) : Scan Number :=
  let (minus, cs, pos) := match cs with
    | '+' :: r => (false, r, pos.next '+')
    | '-' :: r => (true, r, pos.next '-')
    | _ => (false, cs, pos)
  match cs with
  | [] => .broken ⟨.endInValue, pos⟩ ⟨.invalidNumber, pos⟩
  | c :: _ =>
    match spanDigits cs with
    | ([], _) => .broken ⟨.invalidNumber, pos.nextByte c⟩ ⟨.invalidNumber, pos.nextByte c⟩
    | (ds, rest) =>
      .done (withExponent negative s minus ds pos) rest (afterDigits pos ds.length)

def scanFraction (negative : Bool) (s : Significand) (cs : List Char) (pos : Pos) : Scan Number :=
  match spanDigits cs with
  | ([], rest) =>
    .broken ⟨if rest.isEmpty then .endInValue else .invalidNumber, pos.peek rest⟩
      ⟨.invalidNumber, pos.peek rest⟩
  | (ds, rest) =>
    let s := fraction s ds
    let pos := afterDigits pos ds.length
    match rest with
    | 'e' :: r => scanExponent negative s r (pos.next 'e')
    | 'E' :: r => scanExponent negative s r (pos.next 'E')
    | _ => .done (ofScaled negative s s.exponent pos) rest pos

def scanTail (negative : Bool) (s : Significand) (cs : List Char) (pos : Pos) : Scan Number :=
  match cs with
  | '.' :: r => scanFraction negative s r (pos.next '.')
  | 'e' :: r => scanExponent negative s r (pos.next 'e')
  | 'E' :: r => scanExponent negative s r (pos.next 'E')
  | _ =>
    if s.cut then .done (ofScaled negative s s.exponent pos) cs pos
    else .done (.ok (ofWhole negative s.value)) cs pos

def scanUnsigned (negative : Bool) (cs : List Char) (pos : Pos) : Scan Number :=
  match cs with
  | [] => .broken ⟨.endInValue, pos⟩ ⟨.invalidNumber, pos⟩
  | '0' :: r =>
    let pos := pos.next '0'
    if (r.head?.map isDigit).getD false then
      .broken ⟨.invalidNumber, pos.peek r⟩ ⟨.invalidNumber, pos.peek r⟩
    else scanTail negative ⟨0, 0, false⟩ r pos
  | c :: _ =>
    match spanDigits cs with
    | ([], _) => .broken ⟨.invalidNumber, pos.nextByte c⟩ ⟨.invalidNumber, pos.nextByte c⟩
    | (ds, rest) => scanTail negative (wholePart ds) rest (afterDigits pos ds.length)

def scan (cs : List Char) (pos : Pos) : Scan Number :=
  match cs with
  | '-' :: r => scanUnsigned true r (pos.next '-')
  | _ => scanUnsigned false cs pos

end Number

end SiteNav.Json
