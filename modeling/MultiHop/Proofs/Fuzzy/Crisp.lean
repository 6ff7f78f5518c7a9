/-
MultiHop/Proofs/Fuzzy/Crisp.lean

Two-valued logic inside the fuzzy one.  On the degrees 0 and 1 the connectives are
those of classical logic, for both t-norms and all negations (`TNorm.isTruth_meet`,
`TNorm.isTruth_join`, `Negation.isTruth_complement`), and the sigmoid makes these degrees
of the two infinities.  The results are exact, down to the sign of zero.
-/
import MultiHop.Proofs.Fuzzy.Calibration

namespace MultiHop

open Single

/-- The degree `p` is the truth value of `P`. -/
def IsTruth (p : Float32) (P : Prop) : Prop := P ∧ p = 1 ∨ ¬ P ∧ p = 0

variable {a b lambda : Float32} {P Q : Prop}

theorem IsTruth.congr (h : IsTruth a P) (hPQ : P ↔ Q) : IsTruth a Q := by
  unfold IsTruth; rwa [← hPQ]

theorem isTruth_zero : IsTruth 0 False := .inr ⟨id, rfl⟩

theorem IsTruth.isProbability (h : IsTruth a P) : IsProbability a := by
  rcases h with ⟨-, rfl⟩ | ⟨-, rfl⟩
  · exact isProbability_one
  · exact isProbability_zero

/-- In the order of the beam, only truth is as good as truth. -/
theorem IsTruth.of_rankOf_le (ha : IsTruth a P) (h : rankOf 1 ≤ rankOf a) : P := by
  rcases ha with ⟨hP, -⟩ | ⟨-, rfl⟩
  · exact hP
  · exact absurd h (by decide +kernel)

/-! ### Conjunction and disjunction -/

theorem isTruth_larger (ha : IsTruth a P) (hb : IsTruth b Q) :
    IsTruth (larger a b) (P ∨ Q) := by
  rcases ha with ⟨hP, rfl⟩ | ⟨hP, rfl⟩ <;> rcases hb with ⟨hQ, rfl⟩ | ⟨hQ, rfl⟩
  · exact .inl ⟨.inl hP, by decide +kernel⟩
  · exact .inl ⟨.inl hP, by decide +kernel⟩
  · exact .inl ⟨.inr hQ, by decide +kernel⟩
  · exact .inr ⟨not_or.2 ⟨hP, hQ⟩, by decide +kernel⟩

theorem TNorm.isTruth_meet (t : TNorm) (ha : IsTruth a P) (hb : IsTruth b Q) :
    IsTruth (t.meet a b) (P ∧ Q) := by
  rcases ha with ⟨hP, rfl⟩ | ⟨hP, rfl⟩ <;> rcases hb with ⟨hQ, rfl⟩ | ⟨hQ, rfl⟩
  · exact .inl ⟨⟨hP, hQ⟩, by cases t <;> decide +kernel⟩
  · exact .inr ⟨fun h => hQ h.2, by cases t <;> decide +kernel⟩
  · exact .inr ⟨fun h => hP h.1, by cases t <;> decide +kernel⟩
  · exact .inr ⟨fun h => hP h.1, by cases t <;> decide +kernel⟩

theorem TNorm.isTruth_join (t : TNorm) (ha : IsTruth a P) (hb : IsTruth b Q) :
    IsTruth (t.join a b) (P ∨ Q) := by
  rcases ha with ⟨hP, rfl⟩ | ⟨hP, rfl⟩ <;> rcases hb with ⟨hQ, rfl⟩ | ⟨hQ, rfl⟩
  · exact .inl ⟨.inl hP, by cases t <;> decide +kernel⟩
  · exact .inl ⟨.inl hP, by cases t <;> decide +kernel⟩
  · exact .inl ⟨.inr hQ, by cases t <;> decide +kernel⟩
  · exact .inr ⟨not_or.2 ⟨hP, hQ⟩, by cases t <;> decide +kernel⟩

/-! ### Negation -/

/-- What the platform promises at the ends: exponentials of the two infinities, and powers
of zero and one with a positive exponent, which may be infinite. -/
structure Elementary.Crisp [Elementary] : Prop where
  exp_neg_infinity : Elementary.exp (-infinity) = 0
  exp_infinity : Elementary.exp infinity = infinity
  pow_zero (y : Float32) : 0 < y → Elementary.pow 0 y = 0
  pow_one (y : Float32) : 0 < y → Elementary.pow 1 y = 1

theorem Elementary.crisp_steep : @Elementary.Crisp Elementary.steep := by
  refine @Elementary.Crisp.mk Elementary.steep ?_ ?_ (fun _ _ => ?_) fun _ _ => ?_
  · decide +kernel
  · decide +kernel
  · exact if_pos (by decide +kernel)
  · exact if_neg (by decide +kernel)

section Laws

variable [Elementary] (laws : Elementary.Crisp)

include laws

/-- **Every admitted negation is the classical one** on truth values. -/
theorem Negation.isTruth_complement {n : Negation} (hl : n.Admits lambda) (ha : IsTruth a P) :
    IsTruth (n.complement lambda a) (¬ P) := by
  obtain ⟨hfin, hsugeno, hyager⟩ := hl
  rcases ha with ⟨hP, rfl⟩ | ⟨hP, rfl⟩
  · refine .inr ⟨not_not.2 hP, ?_⟩
    cases n with
    | standard =>
      show (1 : Float32) - 1 = 0
      decide +kernel
    | sugeno =>
      show (1 - 1) / (1 + lambda * 1) = 0
      rw [show (1 : Float32) - 1 = 0 by decide +kernel]
      -- zero over a positive denominator is positive zero
      exact zero_div_eq (sugeno_denominator_pos hfin (hsugeno rfl) isProbability_one)
    | yager =>
      show Elementary.pow (1 - Elementary.pow 1 lambda) (1 / lambda) = 0
      rw [laws.pow_one lambda (hyager rfl), show (1 : Float32) - 1 = 0 by decide +kernel]
      exact laws.pow_zero _ (zero_lt_one_div hfin (hyager rfl))
  · refine .inl ⟨hP, ?_⟩
    cases n with
    | standard =>
      show (1 : Float32) - 0 = 1
      decide +kernel
    | sugeno =>
      -- the product may be negative zero, which adds to one all the same
      show (1 - 0) / (1 + lambda * 0) = 1
      rcases mul_zero_eq hfin with h | h <;> rw [h] <;> decide +kernel
    | yager =>
      show Elementary.pow (1 - Elementary.pow 0 lambda) (1 / lambda) = 1
      rw [laws.pow_zero lambda (hyager rfl), show (1 : Float32) - 0 = 1 by decide +kernel]
      exact laws.pow_one _ (zero_lt_one_div hfin (hyager rfl))

/-- The sigmoid makes truth values of the infinities. -/
theorem isTruth_sigmoid {x : Float32} (hx : x = infinity ∨ x = -infinity) :
    IsTruth (sigmoid x) (x = infinity) := by
  rcases hx with rfl | rfl
  · exact .inl ⟨rfl, sigmoid_infinity laws.exp_neg_infinity⟩
  · exact .inr ⟨by decide +kernel, sigmoid_neg_infinity laws.exp_infinity⟩

/-- Infinite logits are all made into degrees. -/
theorem FuzzySet.ofLogits_crisp {logits : List Float32}
    (h : ∀ x ∈ logits, x = infinity ∨ x = -infinity) :
    ∃ v : FuzzySet, ofLogits logits = .ok v ∧ v.degrees = logits.map sigmoid :=
  ofLogits_of_sigmoid fun x hx => (isTruth_sigmoid laws (h x hx)).isProbability

end Laws

end MultiHop
