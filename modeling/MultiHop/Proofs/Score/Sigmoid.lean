/-
MultiHop/Proofs/Score/Sigmoid.lean

The sigmoid keeps the order of logits, as far as single precision can.  It is made of a negation,
the exponential, a sum and a quotient, and turns the order round twice: a larger logit has a
smaller negative, hence a smaller denominator, hence a larger quotient.  The last two steps are
rounded, and so weak; beyond the range of the exponential the denominator is infinite and the
quotient zero (`sigmoid_le_sigmoid`).
-/
import MultiHop.Proofs.Fuzzy.Calibration

namespace MultiHop

open Single

variable {x y : Float32}

/-- What is asked of the exponential: it is never negative, and it grows weakly.  An exponential
that takes negative values could make the denominator of the sigmoid zero.  That a number has an
exponential that is a number need not be asked for, since only numbers compare. -/
structure Elementary.ExpGrows [Elementary] : Prop where
  exp_nonneg (x : Float32) : x.isNaN = false → 0 ≤ Elementary.exp x
  exp_le_exp (x y : Float32) : x ≤ y → Elementary.exp x ≤ Elementary.exp y

theorem Elementary.expGrows_steep : @ExpGrows steep := by
  have hnonneg := @Bounded.exp_nonneg steep bounded_steep
  refine @ExpGrows.mk steep hnonneg fun x y h => ?_
  show (if x < 0 then 0 else if 0 < x then infinity else 1) ≤ @exp steep y
  by_cases hx : x < 0
  · rw [if_pos hx]
    exact hnonneg y (le_iff.1 h).2.1
  · -- below zero `y` would take `x` with it, and above zero `x` takes `y` with it
    have hy : ¬ y < 0 := fun hy => hx (le_lt_chain h hy)
    show _ ≤ if y < 0 then 0 else if 0 < y then infinity else (1 : Float32)
    rw [if_neg hx, if_neg hy]
    by_cases hpos : 0 < x
    · rw [if_pos hpos, if_pos (lt_le_chain hpos h)]
      decide +kernel
    · rw [if_neg hpos]
      split <;> decide +kernel

/-! ### Rounded steps -/

theorem one_add_le_one_add (hx : 0 ≤ x) (h : x ≤ y) : 1 + x ≤ 1 + y := by
  obtain ⟨-, hxn, hx0⟩ := le_iff.1 hx
  obtain ⟨-, hyn, hv⟩ := le_iff.1 h
  rw [value_eq isFinite_zero, toReal_zero] at hx0
  by_cases hy : y.isFinite
  · rw [value_eq hy] at hv
    have hxf : x.isFinite := isFinite_of_value hxn hx0 hv
    have hreal : toReal 1 + toReal x ≤ toReal 1 + toReal y :=
      add_le_add_right ((le_iff_toReal hxf hy).1 h) _
    exact (rounds_add isFinite_one hxf).le (rounds_add isFinite_one hy) hreal
  · have hy : y.isFinite = false := eq_false_of_ne_true hy
    obtain ⟨hn, hinf⟩ := value_add_infinite isFinite_one hyn hy
    refine le_iff.2 ⟨(le_iff.1 (one_le_one_add hx)).2.1, hn, ?_⟩
    rw [hinf, value_of_not_finite hy (le_chain hx h)]
    exact le_top

theorem one_div_le_one_div_of_one_le (hx : 1 ≤ x) (h : x ≤ y) : 1 / y ≤ 1 / x := by
  have hpos := zero_lt_of_one_le hx
  obtain ⟨-, hxn, hx1⟩ := le_iff.1 hx
  obtain ⟨-, -, hv⟩ := le_iff.1 h
  rw [value_eq isFinite_one, toReal_one] at hx1
  by_cases hy : y.isFinite
  · rw [value_eq hy] at hv
    have hxf : x.isFinite := isFinite_of_value hxn hx1 hv
    have hxr : 0 < toReal x := by
      rw [← toReal_zero]
      exact (lt_iff_toReal isFinite_zero hxf).1 hpos
    have hle := (le_iff_toReal hxf hy).1 h
    have hyr := hxr.trans_le hle
    refine (rounds_div isFinite_one hy hyr.ne').le (rounds_div isFinite_one hxf hxr.ne') ?_
    rw [toReal_one]
    exact one_div_le_one_div_of_le hxr hle
  · have h0 : (0 : Float32) ≤ 1 := isProbability_one.1
    rw [one_div_eq_zero (eq_false_of_ne_true hy) (le_chain h0 (le_chain hx h))]
    exact (isProbability_div isProbability_one hx hpos).1

/-! ### The sigmoid -/

theorem Elementary.ExpGrows.isProbability_sigmoid [Elementary] (laws : ExpGrows)
    (hx : x.isNaN = false) : IsProbability (sigmoid x) :=
  isProbability_sigmoid_of_exp (laws.exp_nonneg (-x) (isNaN_neg hx))

/-- **The sigmoid of a larger logit is no smaller.** -/
theorem sigmoid_le_sigmoid [Elementary] (laws : Elementary.ExpGrows) (h : x ≤ y) :
    sigmoid x ≤ sigmoid y := by
  have hneg := neg_le_neg_of_le h
  have hexp := laws.exp_nonneg (-y) (le_iff.1 hneg).1
  have hden := one_add_le_one_add hexp (laws.exp_le_exp (-y) (-x) hneg)
  exact one_div_le_one_div_of_one_le (one_le_one_add hexp) hden

end MultiHop
