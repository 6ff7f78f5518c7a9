/-
MultiHop/Proofs/Fuzzy/StrongNegation.lean

Sugeno's negation in exact arithmetic,

    N a = (1 - a) / (1 + l * a)

A strong negation falls strictly from one to zero on the unit interval and is its own inverse
(`IsStrong`).  Whether N is one is in a single identity: two values of N differ by

    N a - N b = (1 + l) * (b - a) / ((1 + l * a) * (1 + l * b))

as long as neither denominator vanishes (`sugenoOf_sub_sugenoOf`).  So where the denominators
are positive, the sign of `1 + l` alone decides whether N falls or grows.

* Above -1 the denominator is positive on the whole unit interval, N falls, and the ends bound
  what is between them (`isStrong_sugenoOf`).
* At -1 and below, the denominator vanishes at `-1 / l`, which is in the unit interval, and is
  negative from there on.  Up to there N does not fall, so it is no strong negation whatever
  one takes a quotient by zero to be (`not_isStrong_sugenoOf`).

Settings hold the parameter in single precision.  It is read as the fraction that it is, so the
bound that validation puts on the parameter is the bound on `l`.

Main result: `Negation.sugeno_strong_where_admitted`.
-/
import MultiHop.Proofs.Fuzzy.Calibration

namespace MultiHop.Negation

open Single (toRat lt_iff_toRat toRat_neg_one isFinite_neg_one)

/-- A strong negation of the unit interval: it falls strictly from one to zero, and negating
twice changes nothing. -/
structure IsStrong (n : ℚ → ℚ) : Prop where
  mapsTo : Set.MapsTo n (Set.Icc 0 1) (Set.Icc 0 1)
  map_zero : n 0 = 1
  map_one : n 1 = 0
  strictAntiOn : StrictAntiOn n (Set.Icc 0 1)
  involution : Set.LeftInvOn n n (Set.Icc 0 1)

section

variable {l a b : ℚ}

/-! ### Values and their differences -/

theorem sugenoOf_eq (l a : ℚ) : sugenoOf l a = (1 - a) / (1 + l * a) := rfl

theorem sugenoOf_zero (l : ℚ) : sugenoOf l 0 = 1 := by simp [sugenoOf_eq]

theorem sugenoOf_one (l : ℚ) : sugenoOf l 1 = 0 := by simp [sugenoOf_eq]

theorem sugenoOf_sub_sugenoOf (ha : 1 + l * a ≠ 0) (hb : 1 + l * b ≠ 0) :
    sugenoOf l a - sugenoOf l b = (1 + l) * (b - a) / ((1 + l * a) * (1 + l * b)) := by
  rw [sugenoOf_eq, sugenoOf_eq, div_sub_div _ _ ha hb]
  congr 1
  ring

/-- Negating twice changes nothing: numerator and denominator of the second negation share the
denominator of the first, and the factor `1 + l`. -/
theorem sugenoOf_sugenoOf (hl : 1 + l ≠ 0) (ha : 1 + l * a ≠ 0) :
    sugenoOf l (sugenoOf l a) = a := by
  have hnum : 1 - sugenoOf l a = (1 + l) * a / (1 + l * a) := by
    rw [sugenoOf_eq, one_sub_div ha]
    congr 1
    ring
  have hden : 1 + l * sugenoOf l a = (1 + l) / (1 + l * a) := by
    rw [sugenoOf_eq, mul_div_assoc', one_add_div ha]
    congr 1
    ring
  calc sugenoOf l (sugenoOf l a)
      = (1 - sugenoOf l a) / (1 + l * sugenoOf l a) := sugenoOf_eq l _
    _ = ((1 + l) * a / (1 + l * a)) / ((1 + l) / (1 + l * a)) := by rw [hnum, hden]
    _ = (1 + l) * a / (1 + l) := div_div_div_cancel_right₀ ha _ _
    _ = a := mul_div_cancel_left₀ a hl

/-! ### Above -1 -/

theorem denominator_pos (hl : -1 < l) (ha : a ∈ Set.Icc 0 1) : 0 < 1 + l * a := by
  obtain ⟨h0, h1⟩ := ha
  -- the denominator is `(1 - a) + (1 + l) * a`, of which one part is positive
  rcases h1.lt_or_eq with h1 | rfl
  · have hpart : 0 ≤ (1 + l) * a := mul_nonneg (by linarith) h0
    linarith
  · linarith

theorem strictAntiOn_sugenoOf (hl : -1 < l) : StrictAntiOn (sugenoOf l) (Set.Icc 0 1) := by
  intro a ha b hb hab
  have hda := denominator_pos hl ha
  have hdb := denominator_pos hl hb
  rw [← sub_pos, sugenoOf_sub_sugenoOf hda.ne' hdb.ne']
  exact div_pos (mul_pos (by linarith) (sub_pos.2 hab)) (mul_pos hda hdb)

theorem isStrong_sugenoOf (hl : -1 < l) : IsStrong (sugenoOf l) where
  mapsTo := by
    intro a ha
    have hanti := (strictAntiOn_sugenoOf hl).antitoneOn
    have h0 := hanti (Set.left_mem_Icc.2 zero_le_one) ha ha.1
    have h1 := hanti ha (Set.right_mem_Icc.2 zero_le_one) ha.2
    rw [sugenoOf_zero] at h0
    rw [sugenoOf_one] at h1
    exact ⟨h1, h0⟩
  map_zero := sugenoOf_zero l
  map_one := sugenoOf_one l
  strictAntiOn := strictAntiOn_sugenoOf hl
  involution := by
    intro a ha
    exact sugenoOf_sugenoOf (by linarith) (denominator_pos hl ha).ne'

/-! ### At -1 and below -/

/-- Where the denominator vanishes. -/
def pole (l : ℚ) : ℚ := -1 / l

theorem pole_mem (hl : l ≤ -1) : pole l ∈ Set.Ioc 0 1 := by
  have hneg : l < 0 := by linarith
  exact ⟨div_pos_of_neg_of_neg (by norm_num) hneg, (div_le_one_of_neg hneg).2 hl⟩

/-- The denominator has the sign of the distance to the pole. -/
theorem denominator_eq (hl : l ≤ -1) (a : ℚ) : 1 + l * a = -l * (pole l - a) := by
  have hne : l ≠ 0 := by linarith
  unfold pole
  field_simp
  ring

/-- Up to the pole the negation does not fall. -/
theorem monotoneOn_sugenoOf (hl : l ≤ -1) : MonotoneOn (sugenoOf l) (Set.Iio (pole l)) := by
  have hden : ∀ a < pole l, 0 < 1 + l * a := by
    intro a ha
    rw [denominator_eq hl]
    exact mul_pos (by linarith) (sub_pos.2 ha)
  intro a ha b hb hab
  have hda := hden a ha
  have hdb := hden b hb
  rw [← sub_nonpos, sugenoOf_sub_sugenoOf hda.ne' hdb.ne']
  refine div_nonpos_of_nonpos_of_nonneg ?_ (mul_pos hda hdb).le
  exact mul_nonpos_of_nonpos_of_nonneg (by linarith) (sub_nonneg.2 hab)

theorem not_isStrong_sugenoOf (hl : l ≤ -1) : ¬ IsStrong (sugenoOf l) := by
  intro h
  obtain ⟨hpos, hone⟩ := pole_mem hl
  -- half way to the pole the negation has neither fallen nor met the pole
  have hhalf : 0 < pole l / 2 := half_pos hpos
  have hbelow : pole l / 2 < pole l := half_lt_self hpos
  have hfalls : sugenoOf l (pole l / 2) < sugenoOf l 0 :=
    h.strictAntiOn (Set.left_mem_Icc.2 zero_le_one) ⟨hhalf.le, hbelow.le.trans hone⟩ hhalf
  exact hfalls.not_ge (monotoneOn_sugenoOf hl hpos hbelow hhalf.le)

end

/-! ### Parameters in settings -/

theorem validate_sugeno_eq_ok_iff {lambda : Float32} :
    sugeno.validate lambda = .ok () ↔ lambda.isFinite ∧ -1 < toRat lambda := by
  rw [validate_eq_ok_iff]
  unfold Admits
  refine and_congr_right fun hfin => ?_
  rw [← toRat_neg_one, ← lt_iff_toRat isFinite_neg_one hfin]
  simp

/-- **Sugeno's negation is strong exactly for the parameters that are admitted.**  The complement
of a degree is one formula, computed in single precision and read here in fractions.  An admitted
parameter is finite, the denominator is positive on the whole unit interval, and the exact
negation is a strong one.  For a finite parameter that is refused the denominator vanishes at
some point of the interval and is negative beyond it; up to that point the negation does not
fall, and it is not strong. -/
theorem sugeno_strong_where_admitted (lambda : Float32) :
    (∀ [Elementary] (a : Float32), sugeno.complement lambda a = sugenoOf lambda a) ∧
    (sugeno.validate lambda = .ok () →
      lambda.isFinite ∧ (∀ a ∈ Set.Icc (0 : ℚ) 1, 0 < 1 + toRat lambda * a) ∧
        IsStrong (sugenoOf (toRat lambda))) ∧
    (lambda.isFinite → sugeno.validate lambda ≠ .ok () →
      ¬ IsStrong (sugenoOf (toRat lambda)) ∧
        ∃ p ∈ Set.Ioc (0 : ℚ) 1, 1 + toRat lambda * p = 0 ∧
          (∀ a, p < a → 1 + toRat lambda * a < 0) ∧
          MonotoneOn (sugenoOf (toRat lambda)) (Set.Iio p)) := by
  refine ⟨?_, ?_, ?_⟩
  · intro _ a
    rfl
  · intro h
    obtain ⟨hfin, hl⟩ := validate_sugeno_eq_ok_iff.1 h
    exact ⟨hfin, fun a ha => denominator_pos hl ha, isStrong_sugenoOf hl⟩
  · intro hfin h
    have hl : toRat lambda ≤ -1 :=
      not_lt.1 fun hl => h (validate_sugeno_eq_ok_iff.2 ⟨hfin, hl⟩)
    refine ⟨not_isStrong_sugenoOf hl, pole (toRat lambda), pole_mem hl, ?_, ?_,
      monotoneOn_sugenoOf hl⟩
    · rw [denominator_eq hl, sub_self, mul_zero]
    · intro a ha
      rw [denominator_eq hl]
      exact mul_neg_of_pos_of_neg (by linarith) (sub_neg.2 ha)

/-- The number next above -1 is admitted and -1 is not. -/
theorem sugeno_strong_where_admitted_nextAbove :
    (sugeno.validate (.ofBits 0xBF7FFFFF) = .ok () ∧
      toRat (.ofBits 0xBF7FFFFF) = -(1 - 1 / 2 ^ 24) ∧
      IsStrong (sugenoOf (-(1 - 1 / 2 ^ 24)))) ∧
    Float32.isFinite (-1) ∧ sugeno.validate (-1) ≠ .ok () ∧ ¬ IsStrong (sugenoOf (-1)) ∧
      ∃ p ∈ Set.Ioc (0 : ℚ) 1, 1 + -1 * p = 0 := by
  have hadmitted : sugeno.validate (.ofBits 0xBF7FFFFF) = .ok () := by decide +kernel
  have hrefused : sugeno.validate (-1) ≠ .ok () := by decide +kernel
  have hvalue : toRat (.ofBits 0xBF7FFFFF) = -(1 - 1 / 2 ^ 24) := by decide +kernel
  obtain ⟨-, -, hstrong⟩ := (sugeno_strong_where_admitted _).2.1 hadmitted
  obtain ⟨hnot, p, hp, hpole, -⟩ :=
    (sugeno_strong_where_admitted _).2.2 isFinite_neg_one hrefused
  rw [hvalue] at hstrong
  rw [toRat_neg_one] at hnot hpole
  exact ⟨⟨hadmitted, hvalue, hstrong⟩, isFinite_neg_one, hrefused, hnot, p, hp, hpole⟩

end MultiHop.Negation
