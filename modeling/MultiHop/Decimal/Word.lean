/-
MultiHop/Decimal/Word.lean

Binary floating-point words taken apart.  A word holds a sign bit, an exponent
field and a fraction field; a finite word denotes `± mantissa · 2 ^ exponent`
with a whole mantissa.  Both widths in use here, 32 and 64 bits, are values of
`Format`, so that each rule of decimal text is written once.
-/

namespace MultiHop.Decimal

/-- Widths of the two fields below the sign bit. -/
structure Format where
  fractionBits : Nat
  exponentBits : Nat
deriving DecidableEq, Repr

/-- Single precision: 23 fraction bits and 8 exponent bits. -/
def Format.single : Format := ⟨23, 8⟩

/-- Double precision: 52 fraction bits and 11 exponent bits. -/
def Format.double : Format := ⟨52, 11⟩

/-- A finite magnitude `mantissa · 2 ^ exponent`.  `tight` tells that the next
smaller magnitude is only half as far away as the next larger one: the mantissa
is a power of two and the exponent is not the least. -/
structure Magnitude where
  mantissa : Nat
  exponent : Int
  tight : Bool
deriving DecidableEq, Repr

/-- What a word denotes. -/
inductive Reading where
  | nan
  | infinite (negative : Bool)
  | finite (negative : Bool) (size : Magnitude)
deriving DecidableEq, Repr

/-- Takes the word `bits` of format `f` apart.  The exponent field is biased so
that half of its range lies on either side of one; a field of all ones marks
infinity and NaN, a field of zero the numbers below the normal range. -/
def Format.read (f : Format) (bits : Nat) : Reading :=
  let fraction := bits % Nat.pow 2 f.fractionBits
  let field := bits / Nat.pow 2 f.fractionBits % Nat.pow 2 f.exponentBits
  let negative := bits / Nat.pow 2 (f.fractionBits + f.exponentBits) % 2 == 1
  let bias : Int := Nat.pow 2 (f.exponentBits - 1) - 1 + f.fractionBits
  if field = Nat.pow 2 f.exponentBits - 1 then
    if fraction = 0 then .infinite negative else .nan
  else if field = 0 then
    .finite negative ⟨fraction, 1 - bias, false⟩
  else
    .finite negative
      ⟨Nat.pow 2 f.fractionBits + fraction, field - bias, fraction == 0 && decide (1 < field)⟩

end MultiHop.Decimal
