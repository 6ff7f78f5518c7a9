/-
MultiHop/Proofs/Single/Shifting.lean

Rounding by shifting.  A result is first held exactly, as a mantissa with what is left
below it, and is then shifted to the right until 24 bits remain.  Of the bits that fall
out only two are kept: the last one and whether any before it was set.  They suffice
to find the nearest mantissa, so shifting is `rounded` on the real line
(`roundWithAccuracy_spec`, `normalize_spec`).
-/
import MultiHop.Proofs.Single.Unpacked

namespace MultiHop.Single

open Float.Model (Format UnpackedFloat totalExponent)
open Float.Model.UnpackedFloat

/-! ### Two residual bits -/

/-- `em` is what shifting has left of `t`: its integer part, whether the rest reaches
one half, and whether it goes beyond. -/
inductive Holds (em : ExtendedMantissa) (t : ℝ) : Prop
  | intro (rest : ℝ) : t = em.mantissa + (if em.roundBit then 1 / 2 else 0) + rest →
    0 ≤ rest → rest < 1 / 2 → (em.stickyBit = false ↔ rest = 0) → Holds em t

/-- `acc` is how far a number is above its mantissa, in units of the last place. -/
inductive Accounts : Accuracy → ℝ → Prop
  | exact : Accounts .exact 0
  | below (rest : ℝ) : 0 < rest → rest < 1 / 2 → Accounts (.inexact .lt) rest
  | half : Accounts (.inexact .eq) (1 / 2)
  | above (rest : ℝ) : 1 / 2 < rest → rest < 1 → Accounts (.inexact .gt) rest

theorem Accounts.bounds {acc : Accuracy} {rest : ℝ} (h : Accounts acc rest) :
    0 ≤ rest ∧ rest < 1 := by
  cases h with
  | exact => norm_num
  | below rest h1 h2 => constructor <;> linarith
  | half => norm_num
  | above rest h1 h2 => constructor <;> linarith

theorem holds_ofMantissaAndAccuracy {m : ℕ} {acc : Accuracy} {rest : ℝ}
    (h : Accounts acc rest) :
    Holds (ExtendedMantissa.ofMantissaAndAccuracy m acc) (m + rest) := by
  cases h with
  | exact =>
    exact ⟨0, by simp [ExtendedMantissa.ofMantissaAndAccuracy], le_rfl, by norm_num, by
      simp [ExtendedMantissa.ofMantissaAndAccuracy]⟩
  | below rest h1 h2 =>
    exact ⟨rest, by simp [ExtendedMantissa.ofMantissaAndAccuracy], h1.le, h2, by
      simp [ExtendedMantissa.ofMantissaAndAccuracy, h1.ne']⟩
  | half =>
    exact ⟨0, by simp [ExtendedMantissa.ofMantissaAndAccuracy], le_rfl, by norm_num, by
      simp [ExtendedMantissa.ofMantissaAndAccuracy]⟩
  | above rest h1 h2 =>
    refine ⟨rest - 1 / 2, ?_, by linarith, by linarith, ?_⟩
    · simp only [ExtendedMantissa.ofMantissaAndAccuracy, if_true]; ring
    · have : rest - 1 / 2 ≠ 0 := by linarith
      simp only [ExtendedMantissa.ofMantissaAndAccuracy, this, iff_false]
      decide

theorem Holds.shiftRightOne {em : ExtendedMantissa} {t : ℝ} (h : Holds em t) :
    Holds em.shiftRightOne (t / 2) := by
  obtain ⟨m, r, s⟩ := em
  obtain ⟨rest, rfl, h0, h1, hs⟩ := h
  have hm : (m : ℝ) = 2 * (m / 2 : ℕ) + (m % 2 : ℕ) := by exact_mod_cast (Nat.div_add_mod m 2).symm
  have hbit : ((m % 2 : ℕ) : ℝ) / 2 = if (m % 2 != 0) = true then 1 / 2 else 0 := by
    rcases Nat.mod_two_eq_zero_or_one m with h | h <;> simp [h]
  -- the old round bit moves below the new one
  refine ⟨(if r then 1 / 4 else 0) + rest / 2, ?_, ?_, ?_, ?_⟩
  · show ((m : ℝ) + (if r then 1 / 2 else 0) + rest) / 2 =
      (m / 2 : ℕ) + (if (m % 2 != 0) = true then 1 / 2 else 0) + ((if r then 1 / 4 else 0) + rest / 2)
    rw [← hbit, hm]
    cases r <;> simp <;> ring
  · cases r <;> simp <;> linarith
  · cases r <;> simp <;> linarith
  · show (r || s) = false ↔ _
    cases r with
    | false =>
      rw [Bool.false_or, hs]
      simp
    | true =>
      have : (1 : ℝ) / 4 + rest / 2 ≠ 0 := by linarith
      simp only [Bool.true_or, if_true, this, iff_false]
      decide

theorem Holds.shiftRight {em : ExtendedMantissa} {t : ℝ} (h : Holds em t) (k : ℕ) :
    Holds (em >>> k) (t / 2 ^ k) := by
  induction k with
  | zero => rw [pow_zero, div_one]; exact h
  | succ k ih =>
    rw [pow_succ, ← div_div]
    exact ih.shiftRightOne

theorem Holds.isNearest {em : ExtendedMantissa} {t : ℝ} (h : Holds em t) :
    IsNearest t em.roundedMantissa := by
  obtain ⟨m, r, s⟩ := em
  obtain ⟨rest, rfl, h0, h1, hs⟩ := h
  cases r <;> cases s
  · -- nothing is left
    obtain rfl : rest = 0 := hs.1 rfl
    have := isNearest_intCast (m : ℤ)
    simpa [ExtendedMantissa.roundedMantissa, ExtendedMantissa.accuracy,
      Accuracy.roundToNearestEven] using this
  · show IsNearest ((m : ℝ) + 0 + rest) ((m : ℕ) : ℤ)
    have hd : |(m : ℝ) + 0 + rest - ((m : ℕ) : ℤ)| = rest := by
      push_cast; rw [show (m : ℝ) + 0 + rest - m = rest by ring, abs_of_nonneg h0]
    exact ⟨hd.trans_le h1.le, fun h => absurd (hd.symm.trans h) h1.ne⟩
  · -- exactly half way: the even neighbour
    obtain rfl : rest = 0 := hs.1 rfl
    show IsNearest ((m : ℝ) + 1 / 2 + 0) ((m + m % 2 : ℕ) : ℤ)
    have heven : Even ((m + m % 2 : ℕ) : ℤ) := by
      rw [Int.even_iff]; omega
    refine ⟨?_, fun _ => heven⟩
    rcases Nat.mod_two_eq_zero_or_one m with h | h <;> rw [h, abs_le] <;> push_cast <;>
      constructor <;> linarith
  · have hpos : 0 < rest := lt_of_le_of_ne h0 fun h => by simpa using hs.2 h.symm
    show IsNearest ((m : ℝ) + 1 / 2 + rest) ((m + 1 : ℕ) : ℤ)
    have hd : |(m : ℝ) + 1 / 2 + rest - ((m + 1 : ℕ) : ℤ)| = 1 / 2 - rest := by
      push_cast
      rw [show (m : ℝ) + 1 / 2 + rest - (m + 1) = -(1 / 2 - rest) by ring, abs_neg,
        abs_of_nonneg (by linarith)]
    refine ⟨by rw [hd]; linarith, fun h => ?_⟩
    rw [hd] at h
    linarith

/-! ### Shifting to the grid -/

/-- The exponent at which shifting stops is that of the grid. -/
theorem gridExponent_eq {m : ℕ} {e : ℤ} {rest : ℝ} (h0 : 0 ≤ rest) (h1 : rest < 1)
    (hpos : 0 < (m : ℝ) + rest)
    (he : e ≤ Format.binary32.targetExponent (totalExponent m e)) :
    gridExponent (((m : ℝ) + rest) * 2 ^ e)
      = Format.binary32.targetExponent (totalExponent m e) := by
  have hx : 0 < ((m : ℝ) + rest) * 2 ^ e := by positivity
  rw [targetExponent_binary32] at he ⊢
  unfold totalExponent at he ⊢
  unfold gridExponent
  rw [abs_of_pos hx]
  rcases Nat.eq_zero_or_pos m with rfl | hm
  · -- without a mantissa the number is below the smallest step
    have hlt : ((0 : ℕ) + rest) * 2 ^ e < (2 : ℝ) ^ e := by
      have : (0 : ℝ) < 2 ^ e := by positivity
      push_cast
      nlinarith
    have hlog : Int.log 2 (((0 : ℕ) + rest) * (2 : ℝ) ^ e) < e :=
      (Int.lt_zpow_iff_log_lt (b := 2) (by norm_num) hx).1 (by exact_mod_cast hlt)
    simp only [Nat.log2_zero] at he ⊢
    omega
  · -- the rest does not take it to the next power of two
    have hlo : (2 : ℝ) ^ ((m.log2 : ℤ) + e) ≤ ((m : ℝ) + rest) * 2 ^ e := by
      rw [zpow_add₀ (by norm_num), zpow_natCast]
      have : (2 : ℝ) ^ m.log2 ≤ m := by exact_mod_cast Nat.log2_self_le hm.ne'
      exact mul_le_mul_of_nonneg_right (by linarith) (by positivity)
    have hhi : ((m : ℝ) + rest) * 2 ^ e < (2 : ℝ) ^ ((m.log2 : ℤ) + e + 1) := by
      rw [show (m.log2 : ℤ) + e + 1 = ((m.log2 + 1 : ℕ) : ℤ) + e by push_cast; ring,
        zpow_add₀ (by norm_num), zpow_natCast]
      have : (m : ℝ) + 1 ≤ 2 ^ (m.log2 + 1) := by exact_mod_cast Nat.lt_log2_self
      exact mul_lt_mul_of_pos_right (by linarith) (by positivity)
    have hlog : Int.log 2 (((m : ℝ) + rest) * 2 ^ e) = m.log2 + e := by
      apply le_antisymm
      · have := (Int.lt_zpow_iff_log_lt (b := 2) (by norm_num) hx).1 (by exact_mod_cast hhi)
        omega
      · exact (Int.zpow_le_iff_le_log (b := 2) (by norm_num) hx).1 (by exact_mod_cast hlo)
    rw [hlog]
    congr 1
    omega

/-- A mantissa of at most 24 bits stays as it is; one that rounding has carried to
`2 ^ 24` is halved. -/
theorem shiftToTargetExponent_carry {m : ℕ} {e : ℤ} (hm : m ≤ 2 ^ 24) (he : -149 ≤ e)
    (hnorm : 2 ^ 23 ≤ m ∨ e = -149) :
    let shifted := shiftToTargetExponent Format.binary32 m e .exact
    (shifted.1.mantissa : ℝ) * 2 ^ shifted.2 = m * 2 ^ e ∧
      shifted.1.mantissa < 2 ^ 24 ∧ -149 ≤ shifted.2 ∧
      (2 ^ 23 ≤ shifted.1.mantissa ∨ shifted.2 = -149) := by
  rcases hm.lt_or_eq with hlt | rfl
  · -- nothing is shifted out
    have hlog : m.log2 ≤ 23 := by
      rcases Nat.eq_zero_or_pos m with rfl | hpos
      · simp
      · have := (Nat.log2_lt hpos.ne').2 hlt
        omega
    have hshift : (Format.binary32.targetExponent (totalExponent m e) - e).toNat = 0 := by
      rw [targetExponent_binary32]
      unfold totalExponent
      omega
    have hshifted : shiftToTargetExponent Format.binary32 m e .exact = (⟨m, false, false⟩, e) := by
      unfold shiftToTargetExponent shiftToExponent
      simp only [hshift]
      exact Prod.ext rfl (by simp)
    rw [hshifted]
    exact ⟨rfl, hlt, he, hnorm⟩
  · -- the carry has made one bit too many
    have hshift : (Format.binary32.targetExponent (totalExponent (2 ^ 24) e) - e).toNat = 1 := by
      rw [targetExponent_binary32]
      unfold totalExponent
      rw [Nat.log2_two_pow]
      omega
    have hshifted : shiftToTargetExponent Format.binary32 (2 ^ 24) e .exact
        = (⟨2 ^ 23, false, false⟩, e + 1) := by
      unfold shiftToTargetExponent shiftToExponent
      simp only [hshift]
      rfl
    rw [hshifted]
    refine ⟨?_, by norm_num, by show -149 ≤ e + 1; omega, Or.inl le_rfl⟩
    rw [zpow_add₀ (by norm_num)]
    push_cast
    ring

/-! ### Rounding -/

/-- The first shift: what is left, rounded to a mantissa, is the number on its grid. -/
theorem shiftToTargetExponent_spec {m : ℕ} {e : ℤ} {acc : Accuracy} {rest : ℝ}
    (hacc : Accounts acc rest) (hpos : 0 < (m : ℝ) + rest)
    (he : e ≤ Format.binary32.targetExponent (totalExponent m e)) :
    let shifted := shiftToTargetExponent Format.binary32 m e acc
    (shifted.1.roundedMantissa : ℝ) * 2 ^ shifted.2 = rounded (((m : ℝ) + rest) * 2 ^ e) ∧
      shifted.1.roundedMantissa ≤ 2 ^ 24 ∧ -149 ≤ shifted.2 ∧
      (2 ^ 23 ≤ shifted.1.roundedMantissa ∨ shifted.2 = -149) := by
  obtain ⟨h0, h1⟩ := hacc.bounds
  have hx : 0 < ((m : ℝ) + rest) * 2 ^ e := by positivity
  have hgrid := gridExponent_eq h0 h1 hpos he
  set x := ((m : ℝ) + rest) * 2 ^ e with hxdef
  set k := (Format.binary32.targetExponent (totalExponent m e) - e).toNat with hk
  have hge : gridExponent x = e + k := by omega
  have hshift : shiftToTargetExponent Format.binary32 m e acc
      = (ExtendedMantissa.ofMantissaAndAccuracy m acc >>> k, gridExponent x) :=
    Prod.ext rfl hge.symm
  have hdiv : ((m : ℝ) + rest) / 2 ^ k = x / 2 ^ gridExponent x := by
    rw [hxdef, hge, zpow_add₀ (by norm_num), zpow_natCast]
    field_simp
  rw [hshift]
  have hmant := ((holds_ofMantissaAndAccuracy (m := m) hacc).shiftRight k).isNearest
  rw [hdiv] at hmant
  replace hmant := hmant.nearestEven_eq
  refine ⟨?_, ?_, gridExponent_ge x, ?_⟩
  · unfold rounded
    rw [hmant]
    norm_cast
  · have hlt := (div_step_lt x).le
    rw [abs_of_pos hx] at hlt
    have := nearestEven_le (n := 2 ^ 24) (by exact_mod_cast hlt)
    rw [hmant] at this
    exact_mod_cast this
  · rcases (gridExponent_ge x).eq_or_lt with hg | hg
    · exact Or.inr hg.symm
    · have := nearestEven_ge (n := 2 ^ 23) (by exact_mod_cast le_div_step hx hg)
      rw [hmant] at this
      exact Or.inl (by exact_mod_cast this)

/-- **Rounding by shifting is rounding to the grid.**  The number is `m` with a rest
below the last place, times `2 ^ e`, and `e` is not above the exponent at which
shifting stops. -/
theorem roundWithAccuracy_spec {s : Sign} {m : ℕ} {e : ℤ} {acc : Accuracy} {rest : ℝ}
    (hacc : Accounts acc rest) (hpos : 0 < (m : ℝ) + rest)
    (he : e ≤ Format.binary32.targetExponent (totalExponent m e)) :
    Canonical (roundWithAccuracy Format.binary32 s m e acc) ∧
      (roundWithAccuracy Format.binary32 s m e acc).isFinite ∧
      realOf (roundWithAccuracy Format.binary32 s m e acc)
        = signed s (rounded (((m : ℝ) + rest) * 2 ^ e)) := by
  -- the first shift rounds, the second one undoes a carry
  obtain ⟨hround, hle, hmin, hnorm⟩ := shiftToTargetExponent_spec hacc hpos he
  obtain ⟨hval, hlt, hmin', hcan⟩ := shiftToTargetExponent_carry hle hmin hnorm
  rw [← hround, ← hval]
  unfold roundWithAccuracy
  dsimp only
  split
  · next hz =>
    refine ⟨trivial, rfl, ?_⟩
    rw [hz, Nat.cast_zero, zero_mul]
    cases s <;> simp [realOf, signed]
  · exact ⟨⟨hlt, hmin', hcan⟩, rfl, rfl⟩

theorem log2_shiftLeft {m : ℕ} (hm : m ≠ 0) (k : ℕ) : (m <<< k).log2 = m.log2 + k := by
  induction k with
  | zero => rfl
  | succ k ih =>
    have hne : m <<< k ≠ 0 := by rw [Nat.shiftLeft_eq]; positivity
    rw [Nat.shiftLeft_succ, Nat.log2_two_mul hne, ih]
    rfl

/-- Rounding a whole mantissa, at any exponent. -/
theorem round_spec {s : Sign} {m : ℕ} {e : ℤ} (hm : 0 < m) :
    Canonical (UnpackedFloat.round Format.binary32 s m e) ∧
      (UnpackedFloat.round Format.binary32 s m e).isFinite ∧
      realOf (UnpackedFloat.round Format.binary32 s m e) = signed s (rounded (m * 2 ^ e)) := by
  set k := (e - Format.binary32.targetExponent (totalExponent m e)).toNat with hk
  have hround : UnpackedFloat.round Format.binary32 s m e
      = roundWithAccuracy Format.binary32 s (m <<< k) (e - k) .exact := rfl
  have hshift : (m <<< k : ℕ) = m * 2 ^ k := Nat.shiftLeft_eq m k
  have hval : (((m <<< k : ℕ) : ℝ) + 0) * 2 ^ (e - k) = m * 2 ^ e := by
    rw [hshift, zpow_sub₀ (by norm_num), zpow_natCast, add_zero]
    push_cast
    field_simp
  have hpos : 0 < ((m <<< k : ℕ) : ℝ) + 0 := by
    rw [hshift, add_zero]; positivity
  have he : e - k ≤ Format.binary32.targetExponent (totalExponent (m <<< k) (e - k)) := by
    rw [targetExponent_binary32] at hk ⊢
    unfold totalExponent at hk ⊢
    rw [log2_shiftLeft hm.ne']
    omega
  rw [hround, ← hval]
  exact roundWithAccuracy_spec .exact hpos he

/-- Rounding a signed mantissa, at any exponent. -/
theorem normalize_spec (m : ℤ) (e : ℤ) (s : Sign) :
    Canonical (UnpackedFloat.normalize Format.binary32 m e s) ∧
      (UnpackedFloat.normalize Format.binary32 m e s).isFinite ∧
      realOf (UnpackedFloat.normalize Format.binary32 m e s) = rounded (m * 2 ^ e) := by
  unfold UnpackedFloat.normalize
  rcases lt_trichotomy m 0 with hm | rfl | hm
  · rw [compare_lt_iff_lt.2 hm]
    obtain ⟨hc, hf, hv⟩ := round_spec (s := .negative) (e := e) (m := (-m).toNat) (by omega)
    refine ⟨hc, hf, hv.trans ?_⟩
    have hcast : (((-m).toNat : ℕ) : ℝ) = -(m : ℝ) := by
      have : (((-m).toNat : ℕ) : ℤ) = -m := Int.toNat_of_nonneg (by omega)
      exact_mod_cast congrArg (Int.cast : ℤ → ℝ) this
    rw [hcast, neg_mul, rounded_neg]
    exact neg_neg _
  · refine ⟨trivial, rfl, ?_⟩
    rw [Int.cast_zero, zero_mul, rounded_zero]
    rfl
  · rw [compare_gt_iff_gt.2 hm]
    obtain ⟨hc, hf, hv⟩ := round_spec (s := .positive) (e := e) (m := m.toNat) (by omega)
    refine ⟨hc, hf, hv.trans ?_⟩
    have hcast : ((m.toNat : ℕ) : ℝ) = m := by
      have : ((m.toNat : ℕ) : ℤ) = m := Int.toNat_of_nonneg (by omega)
      exact_mod_cast congrArg (Int.cast : ℤ → ℝ) this
    rw [hcast]
    rfl

end MultiHop.Single
