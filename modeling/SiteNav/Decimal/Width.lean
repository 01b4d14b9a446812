/-!
# Integer widths

An integer of so many bits either has no sign or is in two's complement.
-/
namespace SiteNav.Decimal

def fitsUnsigned (bits : Nat) (n : Int) : Bool :=
  0 ≤ n && n < Nat.pow 2 bits

def fitsSigned (bits : Nat) (n : Int) : Bool :=
  -Nat.pow 2 (bits - 1) ≤ n && n < Nat.pow 2 (bits - 1)

end SiteNav.Decimal
