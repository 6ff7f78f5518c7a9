/-
MultiHop/Score/Probability.lean

Logits and probabilities.  A model scores with logits, which range over the whole
line; connectives need probabilities, which lie in the unit interval.  The
logistic sigmoid leads from the first to the second, and `admit?` is the gate
through which every vector of probabilities passes.

All arithmetic is single precision.
-/
import MultiHop.GraphError
import MultiHop.Score.Elementary

namespace MultiHop

/-- Whether `p` lies in the unit interval; NaN does not. -/
def IsProbability (p : Float32) : Prop := 0 ≤ p ∧ p ≤ 1

instance (p : Float32) : Decidable (IsProbability p) := by
  unfold IsProbability; exact inferInstance

/-- The larger of two numbers; a NaN gives way to the other one, and of equal
numbers, such as the two zeros, the second is taken. -/
def larger (x y : Float32) : Float32 :=
  if x.isNaN then y else if x ≤ y then y else x

/-- The smaller of two numbers; a NaN gives way to the other one, and of equal
numbers, such as the two zeros, the second is taken. -/
def smaller (x y : Float32) : Float32 :=
  if x.isNaN then y else if y ≤ x then y else x

/-- Logistic sigmoid, `1 / (1 + e ^ -x)`. -/
def sigmoid [Elementary] (x : Float32) : Float32 := 1 / (1 + Elementary.exp (-x))

/-- Log-odds of `p`, `ln (p / (1 - p))`: the inverse of the sigmoid, with the two
infinities at 0 and 1. -/
def logit [Elementary] (p : Float32) : Float32 := Elementary.log (p / (1 - p))

/-! ### Admission -/

/-- What rounding may add beyond either end of the unit interval. -/
def slack : Float32 := 1e-5

/-- A number within the unit interval is admitted as it is, one within `slack` of
it as the nearer end, and all others, NaN among them, are refused. -/
def admit? (x : Float32) : Option Float32 :=
  if 0 ≤ x ∧ x ≤ 1 then some x
  else if -slack ≤ x ∧ x < 0 then some 0
  else if 1 < x ∧ x ≤ 1 + slack then some 1
  else none

theorem isProbability_zero : IsProbability 0 := by decide +kernel

theorem isProbability_one : IsProbability 1 := by decide +kernel

theorem isProbability_of_admit? {x p : Float32} (h : admit? x = some p) : IsProbability p := by
  unfold admit? at h
  split at h
  · next hx => exact Option.some.inj h ▸ hx
  · split at h
    · exact Option.some.inj h ▸ isProbability_zero
    · split at h
      · exact Option.some.inj h ▸ isProbability_one
      · cases h

/-- Admits every number of a list; the first that is refused is the error. -/
def admitAll : List Float32 → Except GraphError (List Float32)
  | [] => .ok []
  | x :: xs =>
    match admit? x with
    | none => .error (.notProbability x)
    | some p =>
      match admitAll xs with
      | .ok ps => .ok (p :: ps)
      | .error e => .error e

theorem isProbability_of_admitAll {xs ps : List Float32} (h : admitAll xs = .ok ps) :
    ∀ p ∈ ps, IsProbability p := by
  induction xs generalizing ps with
  | nil => cases h; simp
  | cons x xs ih =>
    unfold admitAll at h
    split at h
    · cases h
    · next p hp =>
      split at h
      · next qs hqs =>
        cases h
        intro q hq
        rcases List.mem_cons.1 hq with rfl | hq
        · exact isProbability_of_admit? hp
        · exact ih hqs q hq
      · cases h

theorem length_of_admitAll {xs ps : List Float32} (h : admitAll xs = .ok ps) :
    ps.length = xs.length := by
  induction xs generalizing ps with
  | nil => cases h; rfl
  | cons x xs ih =>
    unfold admitAll at h
    split at h
    · cases h
    · split at h
      · next qs hqs => cases h; simp [ih hqs]
      · cases h

end MultiHop
