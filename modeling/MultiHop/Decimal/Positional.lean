/-
MultiHop/Decimal/Positional.lean

Decimal numbers written out in full: `digits · 10 ^ scale` without an exponent
mark.  A negative scale is the number of places after the point, and a zero is
put before the point when nothing else stands there.
-/

namespace MultiHop.Decimal

/-- Decimal digits of `n`, the most significant first; zero has the one digit `0`. -/
def digits (n : Nat) : List Char := Nat.toDigits 10 n

/-- Fills `cs` up with zeros on the left until it is `width` characters long. -/
def padZeros (width : Nat) (cs : List Char) : List Char :=
  List.replicate (width - cs.length) '0' ++ cs

/-- Writes `d · 10 ^ scale` out. -/
def positional (d : Nat) : Int → List Char
  | .ofNat zeros => digits d ++ List.replicate zeros '0'
  | .negSucc n =>
    let places := n + 1
    let cs := padZeros (places + 1) (digits d)
    cs.take (cs.length - places) ++ '.' :: cs.drop (cs.length - places)

theorem length_padZeros (width : Nat) (cs : List Char) :
    (padZeros width cs).length = max width cs.length := by
  simp [padZeros]; omega

end MultiHop.Decimal
