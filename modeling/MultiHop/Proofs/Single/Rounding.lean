/-
MultiHop/Proofs/Single/Rounding.lean

Rounding to single precision, as a function on the real line.  A real number is
measured in units of its own grid, whose step is `2 ^ gridExponent x`, and goes to the
nearest multiple of the step, the even one of two.  The grid is that of 24-bit numbers
and ends at `2 ^ -149`; numbers that reach `2 ^ 128` are infinite.

Main results: rounding is monotone (`single_mono`) and leaves the numbers of the grid
where they are (`rounded_of_grid`).  Every bound on a computed number rests on these
two: a bound that is itself on the grid survives the rounding.
-/
import Mathlib

namespace MultiHop.Single

/-! ### Nearest integers -/

/-- `n` is the integer nearest to `t`; of two, the even one. -/
def IsNearest (t : ℝ) (n : ℤ) : Prop := |t - n| ≤ 1 / 2 ∧ (|t - n| = 1 / 2 → Even n)

theorem IsNearest.le_of_le {t u : ℝ} {n k : ℤ} (hn : IsNearest t n) (hk : IsNearest u k)
    (h : t ≤ u) : n ≤ k := by
  by_contra hlt
  have hkn : (k : ℝ) + 1 ≤ n := by exact_mod_cast (by omega : k + 1 ≤ n)
  obtain ⟨hn1, hn2⟩ := abs_le.1 hn.1
  obtain ⟨hk1, hk2⟩ := abs_le.1 hk.1
  -- both distances are one half, so two neighbours would both be even
  have htn : |t - n| = 1 / 2 := by
    rw [show t - n = -(1 / 2) by linarith, abs_neg, abs_of_pos (by norm_num)]
  have huk : |u - k| = 1 / 2 := by
    rw [show u - k = 1 / 2 by linarith, abs_of_pos (by norm_num)]
  have hnk : n = k + 1 := by
    have : (n : ℝ) = k + 1 := by linarith
    exact_mod_cast this
  have he : Even (k + 1) := hnk ▸ hn.2 htn
  exact absurd (hk.2 huk) (Int.even_add_one.1 he)

theorem IsNearest.unique {t : ℝ} {n k : ℤ} (hn : IsNearest t n) (hk : IsNearest t k) : n = k :=
  le_antisymm (hn.le_of_le hk le_rfl) (hk.le_of_le hn le_rfl)

theorem IsNearest.neg {t : ℝ} {n : ℤ} (h : IsNearest t n) : IsNearest (-t) (-n) := by
  have hd : |-t - ((-n : ℤ) : ℝ)| = |t - n| := by
    rw [← abs_neg]; congr 1; push_cast; ring
  exact ⟨hd ▸ h.1, fun h2 => (h.2 (hd ▸ h2)).neg⟩

theorem isNearest_intCast (n : ℤ) : IsNearest n n := by
  refine ⟨by simp, fun h => ?_⟩
  rw [sub_self, abs_zero] at h
  norm_num at h

/-- The integer nearest to `t`; of two, the even one. -/
noncomputable def nearestEven (t : ℝ) : ℤ :=
  if |t - round t| = 1 / 2 ∧ ¬ Even (round t) then round t - 1 else round t

theorem isNearest_nearestEven (t : ℝ) : IsNearest t (nearestEven t) := by
  unfold nearestEven
  split
  · next h =>
    -- half way, and `round` has gone up to an odd number
    obtain ⟨hd, hodd⟩ := h
    have hlt : t < round t + 1 / 2 := by
      have := Int.lt_floor_add_one (t + 1 / 2)
      rw [round_eq]; linarith
    have hneg : t - round t = -(1 / 2) := by
      rcases (abs_eq (by norm_num)).1 hd with h | h
      · linarith
      · exact h
    have hdist : t - ((round t - 1 : ℤ) : ℝ) = 1 / 2 := by push_cast; linarith
    refine ⟨by rw [hdist, abs_of_pos (by norm_num)], fun _ => ?_⟩
    exact (Int.not_even_iff_odd.1 hodd).sub_odd odd_one
  · next h =>
    refine ⟨abs_sub_round t, fun hd => ?_⟩
    by_contra hodd
    exact h ⟨hd, hodd⟩

theorem IsNearest.nearestEven_eq {t : ℝ} {n : ℤ} (h : IsNearest t n) : nearestEven t = n :=
  (isNearest_nearestEven t).unique h

theorem nearestEven_mono {t u : ℝ} (h : t ≤ u) : nearestEven t ≤ nearestEven u :=
  (isNearest_nearestEven t).le_of_le (isNearest_nearestEven u) h

theorem nearestEven_neg (t : ℝ) : nearestEven (-t) = -nearestEven t :=
  (isNearest_nearestEven t).neg.nearestEven_eq

theorem nearestEven_intCast (n : ℤ) : nearestEven n = n := (isNearest_intCast n).nearestEven_eq

/-! ### The grid of a number -/

/-- The number with mantissa `m` and exponent `e`. -/
noncomputable abbrev scaled (m : ℝ) (e : ℤ) : ℝ := m * 2 ^ e

/-- Binary logarithm of the grid step around `x`. -/
noncomputable def gridExponent (x : ℝ) : ℤ := max (Int.log 2 |x| - 23) (-149)

theorem gridExponent_ge (x : ℝ) : -149 ≤ gridExponent x := le_max_right _ _

/-- The number of the grid nearest to `x`, without a bound on its size. -/
noncomputable def rounded (x : ℝ) : ℝ :=
  nearestEven (x / 2 ^ gridExponent x) * 2 ^ gridExponent x

theorem gridExponent_neg (x : ℝ) : gridExponent (-x) = gridExponent x := by
  unfold gridExponent; rw [abs_neg]

theorem rounded_neg (x : ℝ) : rounded (-x) = -rounded x := by
  unfold rounded
  rw [gridExponent_neg, neg_div, nearestEven_neg]
  push_cast; ring

/-- A multiple of its own grid step is not moved. -/
theorem rounded_of_mul {x : ℝ} {k : ℤ} (h : x = k * 2 ^ gridExponent x) : rounded x = x := by
  have hdiv : x / 2 ^ gridExponent x = k := by
    rw [div_eq_iff (by positivity), ← h]
  unfold rounded
  rw [hdiv, nearestEven_intCast, ← h]

@[simp] theorem rounded_zero : rounded 0 = 0 := rounded_of_mul (k := 0) (by simp)

/-- The grid of a number below `2 ^ (e + 24)` is at least as fine as `2 ^ e`. -/
theorem gridExponent_le {x : ℝ} {e : ℤ} (he : -149 ≤ e) (hx : x ≠ 0)
    (h : |x| < 2 ^ (e + 24)) : gridExponent x ≤ e := by
  have hlog : Int.log 2 |x| < e + 24 := by
    have hle : (2 : ℝ) ^ Int.log 2 |x| ≤ |x| := by
      exact_mod_cast Int.zpow_log_le_self (b := 2) (by norm_num) (abs_pos.2 hx)
    exact (zpow_lt_zpow_iff_right₀ (by norm_num : (1 : ℝ) < 2)).1 (hle.trans_lt h)
  unfold gridExponent
  exact max_le (by omega) he

/-- **Numbers of the grid are not moved**: an integer of at most 24 bits times a power
of two above the smallest step. -/
theorem rounded_of_grid {m : ℤ} {e : ℤ} (hm : |m| < 2 ^ 24) (he : -149 ≤ e) :
    rounded (m * 2 ^ e) = m * 2 ^ e := by
  by_cases hx : (m : ℝ) * 2 ^ e = 0
  · rw [hx, rounded_zero]
  have hlt : |(m : ℝ) * 2 ^ e| < 2 ^ (e + 24) := by
    rw [abs_mul, abs_of_pos (by positivity : (0 : ℝ) < 2 ^ e), zpow_add₀ (by norm_num), mul_comm]
    have : |(m : ℝ)| < 2 ^ (24 : ℤ) := by exact_mod_cast hm
    exact mul_lt_mul_of_pos_left this (by positivity)
  -- its own step is no larger than `2 ^ e`, so it is a multiple of that step as well
  have hg := gridExponent_le he hx hlt
  set g := gridExponent ((m : ℝ) * 2 ^ e) with hgdef
  refine rounded_of_mul (k := m * 2 ^ (e - g).toNat) ?_
  rw [← hgdef]
  push_cast
  rw [mul_assoc, ← zpow_natCast, Int.toNat_of_nonneg (by omega), ← zpow_add₀ (by norm_num)]
  congr 2
  omega

/-! ### Monotonicity -/

theorem gridExponent_mono {x y : ℝ} (hx : 0 < x) (h : x ≤ y) :
    gridExponent x ≤ gridExponent y := by
  unfold gridExponent
  have := Int.log_mono_right (b := 2) (abs_pos.2 hx.ne') (abs_le_abs_of_nonneg hx.le h)
  omega

/-- A number of a coarser grid has at least 23 bits in it. -/
theorem le_div_step {x : ℝ} (hx : 0 < x) (h : -149 < gridExponent x) :
    (2 : ℝ) ^ (23 : ℤ) ≤ x / 2 ^ gridExponent x := by
  have hlog : Int.log 2 |x| = gridExponent x + 23 := by
    unfold gridExponent at h ⊢; omega
  rw [le_div_iff₀ (by positivity), ← zpow_add₀ (by norm_num), add_comm, ← hlog, abs_of_pos hx]
  exact_mod_cast Int.zpow_log_le_self (b := 2) (by norm_num) hx

/-- A number has at most 24 bits in its grid. -/
theorem div_step_lt (x : ℝ) : |x| / 2 ^ gridExponent x < (2 : ℝ) ^ (24 : ℤ) := by
  rw [div_lt_iff₀ (by positivity), ← zpow_add₀ (by norm_num)]
  have hlt : |x| < (2 : ℝ) ^ (Int.log 2 |x| + 1) := by
    exact_mod_cast Int.lt_zpow_succ_log_self (b := 2) (by norm_num) |x|
  refine hlt.trans_le (zpow_le_zpow_right₀ (by norm_num) ?_)
  unfold gridExponent; omega

theorem nearestEven_ge {t : ℝ} {n : ℤ} (h : (n : ℝ) ≤ t) : n ≤ nearestEven t :=
  (nearestEven_intCast n) ▸ nearestEven_mono h

theorem nearestEven_le {t : ℝ} {n : ℤ} (h : t ≤ n) : nearestEven t ≤ n :=
  (nearestEven_intCast n) ▸ nearestEven_mono h

theorem rounded_nonneg {x : ℝ} (hx : 0 ≤ x) : 0 ≤ rounded x := by
  have h : (0 : ℤ) ≤ nearestEven (x / 2 ^ gridExponent x) :=
    nearestEven_ge (by push_cast; positivity)
  unfold rounded
  have : (0 : ℝ) ≤ nearestEven (x / 2 ^ gridExponent x) := by exact_mod_cast h
  positivity

theorem rounded_mono_of_pos {x y : ℝ} (hx : 0 < x) (h : x ≤ y) : rounded x ≤ rounded y := by
  have hy := hx.trans_le h
  rcases (gridExponent_mono hx h).eq_or_lt with hg | hg
  · -- one grid for both
    unfold rounded
    rw [hg]
    have hn : nearestEven (x / 2 ^ gridExponent y) ≤ nearestEven (y / 2 ^ gridExponent y) :=
      nearestEven_mono (div_le_div_of_nonneg_right h (by positivity))
    exact mul_le_mul_of_nonneg_right (by exact_mod_cast hn) (by positivity)
  · -- `x` stays below the first number of the grid of `y`, and `y` above it
    have hmin := gridExponent_ge x
    have hxn : nearestEven (x / 2 ^ gridExponent x) ≤ 2 ^ 24 := by
      refine nearestEven_le ?_
      have := (div_step_lt x).le
      rw [abs_of_pos hx] at this
      exact_mod_cast this
    have hyn : (2 : ℤ) ^ 23 ≤ nearestEven (y / 2 ^ gridExponent y) := by
      refine nearestEven_ge ?_
      exact_mod_cast le_div_step hy (by omega)
    calc rounded x ≤ (2 : ℝ) ^ (24 : ℤ) * 2 ^ gridExponent x := by
          refine mul_le_mul_of_nonneg_right ?_ (by positivity)
          exact_mod_cast hxn
      _ = 2 ^ (gridExponent x + 24) := by rw [← zpow_add₀ (by norm_num), add_comm]
      _ ≤ 2 ^ (gridExponent y + 23) := zpow_le_zpow_right₀ (by norm_num) (by omega)
      _ = (2 : ℝ) ^ (23 : ℤ) * 2 ^ gridExponent y := by
          rw [← zpow_add₀ (by norm_num), add_comm]
      _ ≤ rounded y := by
          refine mul_le_mul_of_nonneg_right ?_ (by positivity)
          exact_mod_cast hyn

/-- Rounding keeps the order of numbers. -/
theorem rounded_mono {x y : ℝ} (h : x ≤ y) : rounded x ≤ rounded y := by
  rcases lt_or_ge 0 x with hx | hx
  · exact rounded_mono_of_pos hx h
  · -- zero lies between the two, or both are negative
    have hneg : rounded x ≤ 0 := by
      have := rounded_nonneg (neg_nonneg.2 hx)
      rw [rounded_neg] at this
      linarith
    rcases lt_or_ge y 0 with hy | hy
    · have := rounded_mono_of_pos (neg_pos.2 hy) (neg_le_neg h)
      rw [rounded_neg, rounded_neg] at this
      linarith
    · exact hneg.trans (rounded_nonneg hy)

/-! ### Infinities -/

/-- A number of the grid as single precision holds it: infinite from `2 ^ 128` on. -/
noncomputable def clip (y : ℝ) : EReal :=
  if 2 ^ 128 ≤ y then ⊤ else if y ≤ -2 ^ 128 then ⊥ else y

theorem clip_of_le {y : ℝ} (h : 2 ^ 128 ≤ y) : clip y = ⊤ := if_pos h

theorem clip_of_le_neg {y : ℝ} (h : y ≤ -2 ^ 128) : clip y = ⊥ := by
  unfold clip; rw [if_neg (by linarith), if_pos h]

theorem clip_of_abs_lt {y : ℝ} (h : |y| < 2 ^ 128) : clip y = y := by
  obtain ⟨h1, h2⟩ := abs_lt.1 h
  unfold clip
  rw [if_neg (by linarith), if_neg (by linarith)]

theorem clip_mono {y z : ℝ} (h : y ≤ z) : clip y ≤ clip z := by
  rcases le_or_gt (2 ^ 128) z with hz | hz
  · rw [clip_of_le hz]; exact le_top
  rcases le_or_gt y (-2 ^ 128) with hy | hy
  · rw [clip_of_le_neg hy]; exact bot_le
  · rw [clip_of_abs_lt (abs_lt.2 ⟨hy, by linarith⟩), clip_of_abs_lt (abs_lt.2 ⟨by linarith, hz⟩)]
    exact EReal.coe_le_coe_iff.2 h

/-- What single precision makes of a real number. -/
noncomputable def single (x : ℝ) : EReal := clip (rounded x)

/-- **Rounding to single precision is monotone.** -/
theorem single_mono {x y : ℝ} (h : x ≤ y) : single x ≤ single y := clip_mono (rounded_mono h)

/-- Finite numbers of the grid are not moved. -/
theorem single_of_rounded {x : ℝ} (h : rounded x = x) (hx : |x| < 2 ^ 128) : single x = x := by
  unfold single; rw [h, clip_of_abs_lt hx]

end MultiHop.Single
