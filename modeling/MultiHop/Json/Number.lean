/-
MultiHop/Json/Number.lean

Values of written numbers.  A count is a number without sign, point and exponent
that fits in 64 bits.  Any other number is read in double precision: as many leading
digits as fit in 64 bits make a significand, the digits left out and the exponent
make a power of ten, and the two are multiplied or divided once.  A number beyond the
range of double precision has no value.
-/
import MultiHop.Json.Basic

namespace MultiHop.Json.Number

/-- One more than the largest count. -/
def countBound : Nat := UInt64.size

/-- Takes digits into a significand as long as it stays below `countBound`; gives
the significand and the number of digits left over. -/
def absorb (sofar : Nat) : List Nat → Nat × Nat
  | [] => (sofar, 0)
  | d :: ds =>
    if sofar * 10 + d < countBound then absorb (sofar * 10 + d) ds else (sofar, ds.length + 1)

/-- Whether a number has neither point nor exponent. -/
def isWhole (n : Number) : Bool := n.fraction.isNone && n.exponent.isNone

/-- The count that a number writes. -/
def count? (n : Number) : Option Nat :=
  match absorb 0 n.whole with
  | (value, 0) => if n.negative || !n.isWhole then none else some value
  | _ => none

/-! ### Double precision -/

/-- `10 ^ n` in double precision, for `n` up to 308. -/
def powerOfTen (n : Nat) : Float := Float.ofScientific 1 false n

/-- Divides by a power of ten, by at most `10 ^ 308` at a time; zero stays zero. -/
def divide (f : Float) (places : Nat) : Float :=
  if places ≤ 308 then f / powerOfTen places
  else if f == 0 then f
  else divide (f / powerOfTen 308) (places - 308)
termination_by places

/-- `significand · 10 ^ exponent`, unless it is beyond the range of double precision. -/
def scale? (significand : Nat) : Int → Option Float
  | .ofNat e =>
    if 308 < e then if significand = 0 then some 0 else none
    else
      let f := Float.ofNat significand * powerOfTen e
      if f.isInf then none else some f
  | .negSucc e => some (divide (Float.ofNat significand) (e + 1))

/-- The largest exponent that counts; above it the power of ten is infinite or
zero. -/
def exponentLimit : Nat := 0x7fffffff

/-- Value of the digits of an exponent. -/
def exponentValue (ds : List Nat) : Nat := ds.foldl (fun v d => v * 10 + d) 0

/-- Size of a number in double precision, without its sign. -/
def size? (n : Number) : Option Float :=
  let (whole, skipped) := absorb 0 n.whole
  let fraction := n.fraction.getD []
  let (significand, ignored) := absorb whole fraction
  let exponent : Int := skipped - (fraction.length - ignored : Nat)
  match n.exponent with
  | none => scale? significand exponent
  | some (negative, ds) =>
    let e := exponentValue ds
    if exponentLimit < e then
      if significand = 0 || negative then some 0 else none
    else scale? significand (if negative then exponent - e else exponent + e)

/-! ### Single precision -/

/-- A number in single precision.  Whole numbers of at most 64 bits with their sign
are rounded once, all others first to double precision. -/
def single? (n : Number) : Option Float32 :=
  let direct : Option Nat :=
    match absorb 0 n.whole with
    | (value, 0) =>
      if n.isWhole && (!n.negative || decide (value ≤ countBound / 2)) then some value else none
    | _ => none
  match direct with
  | some value =>
    let f := (UInt64.ofNat value).toFloat32
    some (if n.negative then -f else f)
  | none => (size? n).map fun f => (if n.negative then -f else f).toFloat32

end MultiHop.Json.Number
