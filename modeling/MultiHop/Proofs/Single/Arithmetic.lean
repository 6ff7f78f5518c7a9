/-
MultiHop/Proofs/Single/Arithmetic.lean

The four operations on unpacked numbers.  Each computes its result exactly, as a
mantissa with a rest, and rounds once, so on finite numbers it is the operation of the
real line followed by `rounded`.
-/
import MultiHop.Proofs.Single.Shifting

namespace MultiHop.Single

open Float.Model (Format UnpackedFloat totalExponent)
open Float.Model.UnpackedFloat

/-! ### Signs -/

theorem rounded_signed (s : Sign) (x : ℝ) : rounded (signed s x) = signed s (rounded x) := by
  cases s
  · exact rounded_neg x
  · rfl

theorem signed_mul (s t : Sign) (x y : ℝ) : signed s x * signed t y = signed (s * t) (x * y) := by
  cases s <;> cases t
  · exact neg_mul_neg x y
  · exact neg_mul x y
  · exact mul_neg x y
  · rfl

theorem signed_div (s t : Sign) (x y : ℝ) : signed s x / signed t y = signed (s / t) (x / y) := by
  cases s <;> cases t
  · exact neg_div_neg_eq x y
  · exact neg_div y x
  · exact div_neg x
  · rfl

theorem apply_cast (s : Sign) (m : ℕ) : ((s.apply m : ℤ) : ℝ) = signed s m := by
  cases s <;> simp [Sign.apply, signed]

theorem signed_mul_right (s : Sign) (x y : ℝ) : signed s x * y = signed s (x * y) := by
  cases s
  · exact neg_mul x y
  · rfl

/-! ### Sums and differences -/

variable {u v : UnpackedFloat}

/-- A finite canonical number is its own rounding. -/
theorem kept (hu : Canonical u) (fu : u.isFinite) {x : ℝ} (hx : realOf u = x) :
    Canonical u ∧ u.isFinite ∧ realOf u = rounded x :=
  ⟨hu, fu, by rw [← hx, hu.rounded_realOf]⟩

theorem zero_spec (s : Sign) {x : ℝ} (hx : x = 0) :
    Canonical (.zero s) ∧ (zero s).isFinite ∧ realOf (.zero s) = rounded x :=
  kept (u := .zero s) trivial rfl hx.symm

/-- Mantissas brought to a common exponent keep their values. -/
theorem decreaseExponent_value (s : Sign) {m : ℕ} {e t : ℤ} (h : t ≤ e) :
    ((s.apply (decreaseExponent m e t).1 : ℤ) : ℝ) * 2 ^ t = signed s (m * 2 ^ e) := by
  obtain ⟨k, rfl⟩ : ∃ k : ℕ, e = t + k := ⟨(e - t).toNat, by omega⟩
  have hk : (decreaseExponent m (t + k) t).1 = m * 2 ^ k := by
    show m <<< (t + (k : ℤ) - t).toNat = m * 2 ^ k
    rw [show (t + (k : ℤ) - t).toNat = k by omega, Nat.shiftLeft_eq]
  rw [hk, apply_cast, signed_mul_right, zpow_add₀ (by norm_num), zpow_natCast]
  congr 1
  push_cast
  ring

theorem add_spec (hu : Canonical u) (hv : Canonical v) (fu : u.isFinite) (fv : v.isFinite) :
    Canonical (add Format.binary32 u v) ∧ (add Format.binary32 u v).isFinite ∧
      realOf (add Format.binary32 u v) = rounded (realOf u + realOf v) := by
  cases u with
  | notANumber => cases fu
  | infinity s => cases fu
  | zero s =>
    cases v with
    | notANumber => cases fv
    | infinity t => cases fv
    | zero t =>
      have hx : realOf (.zero s) + realOf (.zero t) = 0 := add_zero 0
      cases s <;> cases t <;> exact zero_spec _ hx
    | finite t m e hm => exact kept hv fv (zero_add _).symm
  | finite s m e hm =>
    cases v with
    | notANumber => cases fv
    | infinity t => cases fv
    | zero t => exact kept hu fu (add_zero _).symm
    | finite t n d hn =>
      -- at the smaller exponent the mantissas are added exactly
      have h := normalize_spec (s.apply (decreaseExponent m e (min e d)).1
        + t.apply (decreaseExponent n d (min e d)).1) (min e d) .positive
      push_cast at h
      rw [add_mul, decreaseExponent_value s (min_le_left e d),
        decreaseExponent_value t (min_le_right e d)] at h
      exact h

theorem sub_spec (hu : Canonical u) (hv : Canonical v) (fu : u.isFinite) (fv : v.isFinite) :
    Canonical (sub Format.binary32 u v) ∧ (sub Format.binary32 u v).isFinite ∧
      realOf (sub Format.binary32 u v) = rounded (realOf u - realOf v) := by
  cases u with
  | notANumber => cases fu
  | infinity s => cases fu
  | zero s =>
    cases v with
    | notANumber => cases fv
    | infinity t => cases fv
    | zero t =>
      have hx : realOf (.zero s) - realOf (.zero t) = 0 := sub_zero 0
      cases s <;> cases t <;> exact zero_spec _ hx
    | finite t m e hm =>
      -- zero minus a number is its negative
      refine kept (u := .finite (-t) m e hm) hv rfl ?_
      have : signed (-t) ((m : ℝ) * 2 ^ e) = -signed t (m * 2 ^ e) := by
        cases t
        · exact (neg_neg _).symm
        · rfl
      exact this.trans (zero_sub _).symm
  | finite s m e hm =>
    cases v with
    | notANumber => cases fv
    | infinity t => cases fv
    | zero t => exact kept hu fu (sub_zero _).symm
    | finite t n d hn =>
      have h := normalize_spec (s.apply (decreaseExponent m e (min e d)).1
        - t.apply (decreaseExponent n d (min e d)).1) (min e d) .positive
      push_cast at h
      rw [sub_mul, decreaseExponent_value s (min_le_left e d),
        decreaseExponent_value t (min_le_right e d)] at h
      exact h

/-! ### Products -/

/-- A product of two canonical mantissas has at least the bits that rounding keeps. -/
theorem mul_exponent_le {m n : ℕ} {e d : ℤ} (hm : 0 < m) (hn : 0 < n)
    (h : 2 ^ 23 ≤ m ∨ e = -149) (h' : 2 ^ 23 ≤ n ∨ d = -149) :
    e + d ≤ Format.binary32.targetExponent (totalExponent (m * n) (e + d)) := by
  rw [targetExponent_binary32]
  unfold totalExponent
  by_cases hbig : 2 ^ 23 ≤ m * n
  · have := (Nat.le_log2 (Nat.mul_pos hm hn).ne').2 hbig
    omega
  · -- with fewer bits, both factors are at the smallest exponent
    have he : e = -149 := h.resolve_left fun h => hbig (h.trans (Nat.le_mul_of_pos_right m hn))
    have hd : d = -149 := h'.resolve_left fun h => hbig (h.trans (Nat.le_mul_of_pos_left n hm))
    omega

theorem mul_spec (hu : Canonical u) (hv : Canonical v) (fu : u.isFinite) (fv : v.isFinite) :
    Canonical (mul Format.binary32 u v) ∧ (mul Format.binary32 u v).isFinite ∧
      realOf (mul Format.binary32 u v) = rounded (realOf u * realOf v) := by
  cases u with
  | notANumber => cases fu
  | infinity s => cases fu
  | zero s =>
    have hz : realOf (.zero s) * realOf v = 0 := zero_mul _
    cases v with
    | notANumber => cases fv
    | infinity t => cases fv
    | zero t => exact zero_spec (s * t) hz
    | finite t m e hm => exact zero_spec (s * t) hz
  | finite s m e hm =>
    cases v with
    | notANumber => cases fv
    | infinity t => cases fv
    | zero t => exact zero_spec (s * t) (mul_zero _)
    | finite t n d hn =>
      have hpos : (0 : ℝ) < (m * n : ℕ) + 0 := by
        have := Nat.mul_pos hm hn
        rw [add_zero]; exact_mod_cast this
      obtain ⟨hc, hf, hr⟩ := roundWithAccuracy_spec (s := s * t) .exact hpos
        (mul_exponent_le hm hn hu.2.2 hv.2.2)
      refine ⟨hc, hf, hr.trans ?_⟩
      rw [← rounded_signed]
      refine congrArg rounded ?_
      show _ = signed s (m * 2 ^ e) * signed t (n * 2 ^ d)
      rw [signed_mul, zpow_add₀ (by norm_num)]
      congr 1
      push_cast
      ring

/-! ### Quotients -/

theorem accounts_accuracyOfFraction {a b : ℕ} (h : a < b) :
    Accounts (accuracyOfFraction a b) ((a : ℝ) / b) := by
  have hb : (0 : ℝ) < b := by exact_mod_cast (Nat.zero_le a).trans_lt h
  unfold accuracyOfFraction
  split
  · next h0 =>
    rw [h0, Nat.cast_zero, zero_div]
    exact .exact
  · next h0 =>
    have ha : (0 : ℝ) < a := by exact_mod_cast Nat.pos_of_ne_zero h0
    rcases lt_trichotomy (2 * a) b with hlt | heq | hgt
    · rw [compare_lt_iff_lt.2 hlt]
      have : (2 : ℝ) * a < b := by exact_mod_cast hlt
      refine .below _ (by positivity) ?_
      rw [div_lt_iff₀ hb]
      linarith
    · rw [compare_eq_iff_eq.2 heq]
      have : (2 : ℝ) * a = b := by exact_mod_cast heq
      have hhalf : (a : ℝ) / b = 1 / 2 := by
        rw [div_eq_iff hb.ne']
        linarith
      rw [hhalf]
      exact .half
    · rw [compare_gt_iff_gt.2 hgt]
      have h1 : (b : ℝ) < 2 * a := by exact_mod_cast hgt
      have h2 : (a : ℝ) < b := by exact_mod_cast h
      refine .above _ ?_ ?_
      · rw [lt_div_iff₀ hb]
        linarith
      · rw [div_lt_iff₀ hb]
        linarith

/-- A quotient is computed with at least the bits that rounding keeps. -/
theorem div_exponent_le {m n k : ℕ} {e d t : ℤ} (hm : 0 < m) (hn : 0 < n)
    (ht : t ≤ Format.binary32.targetExponent (totalExponent m e - totalExponent n d))
    (hk : e - d - t = k) :
    t ≤ Format.binary32.targetExponent (totalExponent ((m <<< k) / n) t) := by
  rw [targetExponent_binary32] at ht ⊢
  unfold totalExponent at ht ⊢
  by_cases hmin : t ≤ -149
  · omega
  · have hlog : n.log2 + 24 ≤ m.log2 + k := by omega
    have hq : 2 ^ 23 ≤ (m <<< k) / n := by
      rw [Nat.le_div_iff_mul_le hn, Nat.shiftLeft_eq]
      calc 2 ^ 23 * n ≤ 2 ^ 23 * 2 ^ (n.log2 + 1) := Nat.mul_le_mul_left _ Nat.lt_log2_self.le
        _ = 2 ^ (n.log2 + 24) := by rw [← Nat.pow_add]; congr 1; omega
        _ ≤ 2 ^ (m.log2 + k) := Nat.pow_le_pow_right (by decide) hlog
        _ = 2 ^ m.log2 * 2 ^ k := Nat.pow_add ..
        _ ≤ m * 2 ^ k := Nat.mul_le_mul_right _ (Nat.log2_self_le hm.ne')
    have := (Nat.le_log2 (by omega)).2 hq
    omega

theorem div_spec (hu : Canonical u) (fu : u.isFinite) (fv : v.isFinite) (hne : realOf v ≠ 0) :
    Canonical (div Format.binary32 u v) ∧ (div Format.binary32 u v).isFinite ∧
      realOf (div Format.binary32 u v) = rounded (realOf u / realOf v) := by
  cases v with
  | notANumber => cases fv
  | infinity t => cases fv
  | zero t => exact absurd rfl hne
  | finite t n d hn =>
    cases u with
    | notANumber => cases fu
    | infinity s => cases fu
    | zero s => exact zero_spec (s / t) (zero_div _)
    | finite s m e hm =>
      set r := min (e - d) (Format.binary32.targetExponent (totalExponent m e - totalExponent n d))
        with hr
      set k := (e - d - r).toNat with hk
      have hkr : e - d - r = k := by omega
      have hrt : r ≤ Format.binary32.targetExponent (totalExponent m e - totalExponent n d) :=
        min_le_right _ _
      have hdiv : div Format.binary32 (.finite s m e hm) (.finite t n d hn)
          = roundWithAccuracy Format.binary32 (s / t) ((m <<< k) / n) r
            (accuracyOfFraction ((m <<< k) % n) n) := rfl
      -- quotient and remainder together are the exact quotient
      have hn0 : (0 : ℝ) < n := by exact_mod_cast hn
      have hm0 : (0 : ℝ) < m := by exact_mod_cast hm
      have hsum : (((m <<< k) / n : ℕ) : ℝ) + ((m <<< k) % n : ℕ) / n = m * 2 ^ k / n := by
        rw [eq_div_iff hn0.ne', add_mul, div_mul_cancel₀ _ hn0.ne']
        have := Nat.div_add_mod (m <<< k) n
        rw [Nat.shiftLeft_eq] at this ⊢
        rw [mul_comm]
        exact_mod_cast this
      have hpos : 0 < (((m <<< k) / n : ℕ) : ℝ) + ((m <<< k) % n : ℕ) / n := by
        rw [hsum]; positivity
      obtain ⟨hc, hf, hval⟩ := roundWithAccuracy_spec (s := s / t)
        (accounts_accuracyOfFraction (Nat.mod_lt (m <<< k) hn)) hpos
        (div_exponent_le hm hn hrt hkr)
      rw [hdiv]
      refine ⟨hc, hf, hval.trans ?_⟩
      rw [← rounded_signed]
      refine congrArg rounded ?_
      show _ = signed s (m * 2 ^ e) / signed t (n * 2 ^ d)
      have he : (2 : ℝ) ^ e = 2 ^ r * 2 ^ k * 2 ^ d := by
        rw [← zpow_natCast, ← zpow_add₀ (by norm_num), ← zpow_add₀ (by norm_num)]
        congr 1
        omega
      rw [signed_div, hsum, he]
      congr 1
      field_simp

end MultiHop.Single
