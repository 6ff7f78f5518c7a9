/-
MultiHop/Decimal/Fixed.lean

Double-precision numbers with a fixed number of decimal places.  The exact binary
value is rounded to the nearest decimal of that many places, an exact half to the
even neighbour; the sign is that of the number, also when zero is left.
-/
import MultiHop.Decimal.Positional
import MultiHop.Decimal.Word

namespace MultiHop.Decimal

/-- The whole number nearest to `num / den`, an exact half to the even one. -/
def roundHalfEven (num den : Nat) : Nat :=
  let q := num / den
  let r := num % den
  if 2 * r < den then q
  else if den < 2 * r then q + 1
  else q + q % 2

/-- Half a unit is the most that rounding moves a quotient. -/
theorem roundHalfEven_near (num den : Nat) (h : 0 < den) :
    2 * (roundHalfEven num den * den) ≤ 2 * num + den ∧
      2 * num ≤ 2 * (roundHalfEven num den * den) + den := by
  have hd := Nat.div_add_mod num den
  have hr := Nat.mod_lt num h
  have hq : num / den * den = den * (num / den) := Nat.mul_comm _ _
  have hs : (num / den + 1) * den = den * (num / den) + den := by
    rw [Nat.add_mul, hq, Nat.one_mul]
  have hz : (num / den + 0) * den = den * (num / den) := hq
  simp only [roundHalfEven]
  split
  · omega
  · split
    · omega
    · rcases Nat.mod_two_eq_zero_or_one (num / den) with h2 | h2 <;> rw [h2] <;> omega

/-- Text of `x` with `places` digits after the point. -/
def fixed (places : Nat) (x : Float) : String :=
  match Format.double.read x.toBits.toNat with
  | .nan => "NaN"
  | .infinite negative => if negative then "-inf" else "inf"
  | .finite negative m =>
    let d := roundHalfEven (m.mantissa * Nat.pow 2 m.exponent.toNat * Nat.pow 10 places)
      (Nat.pow 2 (-m.exponent).toNat)
    let body := positional d (-places)
    String.ofList (if negative then '-' :: body else body)

end MultiHop.Decimal
