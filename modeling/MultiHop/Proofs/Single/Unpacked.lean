/-
MultiHop/Proofs/Single/Unpacked.lean

Unpacked single-precision numbers.  A number is worked on as a sign, a mantissa and an
exponent, and then packed into a word again.  Here the two are related to the real
line: `realOf` is the number that an unpacked one stands for, and `Canonical` singles
out those that a word holds in one way only.

Main results: a word holds a canonical number (`canonical_unpack`), packing loses
nothing but the size (`valueOf_unpack_pack`), and comparison is that of the values
(`compare_spec`).
-/
import MultiHop.Proofs.Single.Rounding

namespace MultiHop.Single

open Float.Model (Format UnpackedFloat)
open Float.Model.UnpackedFloat

/-! ### Real values -/

/-- A magnitude with a sign. -/
def signed : Sign → ℝ → ℝ
  | .positive, x => x
  | .negative, x => -x

/-- The real number that a finite unpacked number stands for. -/
noncomputable def realOf : UnpackedFloat → ℝ
  | .finite s m e _ => signed s (scaled m e)
  | _ => 0

/-- The place of an unpacked number on the extended line; NaN has none. -/
noncomputable def valueOf : UnpackedFloat → EReal
  | .infinity .positive => ⊤
  | .infinity .negative => ⊥
  | u => realOf u

theorem valueOf_eq_realOf {u : UnpackedFloat} (h : u.isFinite) : valueOf u = realOf u := by
  cases u <;> first | rfl | cases h

/-- Mantissa and exponent are those of a word: 24 bits, or the smallest exponent. -/
def Canonical : UnpackedFloat → Prop
  | .finite _ m e _ => m < 2 ^ 24 ∧ -149 ≤ e ∧ (2 ^ 23 ≤ m ∨ e = -149)
  | _ => True

theorem targetExponent_binary32 (n : ℤ) :
    Format.binary32.targetExponent n = max (n - 24) (-149) := rfl

/-- A canonical number is not moved by rounding. -/
theorem Canonical.rounded_realOf {u : UnpackedFloat} (h : Canonical u) :
    rounded (realOf u) = realOf u := by
  cases u with
  | finite s m e hm =>
    obtain ⟨hlt, he, -⟩ := h
    have hgrid : rounded ((m : ℤ) * 2 ^ e) = (m : ℤ) * 2 ^ e :=
      rounded_of_grid (by rw [Nat.abs_cast]; exact_mod_cast hlt) he
    cases s with
    | positive => exact hgrid
    | negative => exact (rounded_neg _).trans (congrArg Neg.neg hgrid)
  | _ => exact rounded_zero

/-! ### Words -/

theorem bias_binary32 : (Format.binary32.exponentBias : ℤ) = 127 := rfl

theorem toNat_leadingBit (m : BitVec 23) : (1#1 ++ m).toNat = 2 ^ 23 + m.toNat := by
  rw [BitVec.toNat_append, ← Nat.shiftLeft_add_eq_or_of_lt m.isLt]
  rfl

/-- What a word holds is canonical and below `2 ^ 128`. -/
theorem canonical_unpack (w : BitVec 32) :
    Canonical (unpack Format.binary32 w) ∧
      ∀ s m e hm, unpack Format.binary32 w = .finite s m e hm → e ≤ 104 := by
  have hmant : (@unpackMantissa Format.binary32 w).toNat < 2 ^ 23 :=
    (@unpackMantissa Format.binary32 w).isLt
  have hexp : (@unpackExponent Format.binary32 w).toNat < 256 :=
    (@unpackExponent Format.binary32 w).isLt
  unfold unpack
  simp only [bias_binary32]
  split
  · -- the largest exponent is that of the infinities and NaN
    split <;> exact ⟨trivial, by intro _ _ _ _ h; cases h⟩
  · next hne =>
    have hne : (@unpackExponent Format.binary32 w).toNat ≠ 255 := fun h =>
      hne (BitVec.eq_of_toNat_eq h)
    split
    · split
      · exact ⟨trivial, by intro _ _ _ _ h; cases h⟩
      · -- a subnormal number has the smallest exponent
        next h0 _ =>
        have h0 : (@unpackExponent Format.binary32 w).toNat = 0 := by rw [h0]; rfl
        refine ⟨⟨by omega, ?_, Or.inr ?_⟩, ?_⟩
        · rw [h0]; norm_num
        · rw [h0]; norm_num
        · intro _ _ _ _ h
          cases h
          rw [h0]; norm_num
    · next h0 =>
      have h0 : (@unpackExponent Format.binary32 w).toNat ≠ 0 := fun h =>
        h0 (BitVec.eq_of_toNat_eq h)
      -- the leading bit of a normal number is not in the word
      have happ := toNat_leadingBit (@unpackMantissa Format.binary32 w)
      refine ⟨⟨?_, ?_, Or.inl ?_⟩, ?_⟩
      · rw [happ]; omega
      · push_cast; omega
      · rw [happ]; omega
      · intro _ _ _ _ h
        cases h
        push_cast
        omega

theorem unpackSign_packComponents (s : Sign) (e : BitVec 8) (m : BitVec 23) :
    Sign.ofBitVec (unpackSign (packComponents Format.binary32 s e m)) = s := by
  have : unpackSign (packComponents Format.binary32 s e m) = s.toBitVec := by
    ext i hi
    obtain rfl : i = 0 := by omega
    simp [unpackSign, packComponents]
    rw [BitVec.getLsbD_append, BitVec.getLsbD_append]
    simp
  rw [this]
  cases s <;> rfl

theorem unpack_pack_infinity (s : Sign) :
    unpack Format.binary32 (packedInfinity Format.binary32 s) = .infinity s := by
  cases s <;> rfl

theorem unpack_pack_zero (s : Sign) :
    unpack Format.binary32 (packedZero Format.binary32 s) = .zero s := by
  cases s <;> rfl

/-- Packing loses nothing of a canonical number that is not too large. -/
theorem unpack_pack_finite {s : Sign} {m : ℕ} {e : ℤ} {hm : 0 < m}
    (h : Canonical (.finite s m e hm)) (he : e ≤ 104) :
    unpack Format.binary32 (pack Format.binary32 (.finite s m e hm)) = .finite s m e hm := by
  obtain ⟨hlt, hmin, hnorm⟩ := h
  have hbits : ¬ 2 ^ 8 ≤ (e + (127 : ℕ) + (23 : ℕ)).toNat + 1 := by omega
  unfold pack
  simp only [show Format.binary32.exponentBias = 127 from rfl,
    show Format.binary32.mantissaBits = 24 from rfl, hbits, if_false]
  by_cases hlog : m.log2 + 1 = 24
  · -- a normal number: the leading bit of the mantissa is dropped and put back
    have hm23 : 2 ^ 23 ≤ m := by
      have := Nat.log2_self_le hm.ne'
      rwa [show m.log2 = 23 by omega] at this
    have hb : (BitVec.ofNat 8 (e + (127 : ℕ) + (23 : ℕ)).toNat).toNat
        = (e + (127 : ℕ) + (23 : ℕ)).toNat := by
      rw [BitVec.toNat_ofNat, Nat.mod_eq_of_lt (by omega)]
    have hb0 : BitVec.ofNat 8 (e + (127 : ℕ) + (23 : ℕ)).toNat ≠ 0#8 := by
      intro hz
      have := congrArg BitVec.toNat hz
      rw [hb, BitVec.toNat_zero] at this
      omega
    have hb1 : BitVec.ofNat 8 (e + (127 : ℕ) + (23 : ℕ)).toNat ≠ -1#8 := by
      intro hz
      have := congrArg BitVec.toNat hz
      rw [hb, show (-1#8).toNat = 255 from rfl] at this
      omega
    have happ : (1#1 ++ BitVec.ofNat 23 m).toNat = m := by
      rw [BitVec.toNat_append, ← Nat.shiftLeft_add_eq_or_of_lt (BitVec.isLt _),
        BitVec.toNat_ofNat]
      show 2 ^ 23 + m % 2 ^ 23 = m
      omega
    simp only [hlog, if_true, unpack, unpackMantissa_packComponents,
      unpackExponent_packComponents, unpackSign_packComponents, hb0, hb1, if_false, hb, happ,
      bias_binary32]
    congr 1
    push_cast
    omega
  · -- a subnormal number: it has no leading bit, and the smallest exponent
    have hm23 : m < 2 ^ 23 := by
      by_contra hge
      have h1 := (Nat.le_log2 hm.ne').2 (not_lt.1 hge)
      have h2 := (Nat.log2_lt hm.ne').2 hlt
      omega
    have hval : (BitVec.ofNat 23 m).toNat = m := by
      rw [BitVec.toNat_ofNat, Nat.mod_eq_of_lt hm23]
    have hne : BitVec.ofNat 23 m ≠ 0#23 := by
      intro hz
      have := congrArg BitVec.toNat hz
      rw [hval, BitVec.toNat_zero] at this
      omega
    have h01 : (0#8 : BitVec 8) ≠ -1#8 := by decide
    simp only [hlog, if_false, unpack, unpackMantissa_packComponents,
      unpackExponent_packComponents, unpackSign_packComponents, h01, if_true, hne,
      dite_false, hval, bias_binary32, BitVec.toNat_zero]
    congr 1
    push_cast
    omega

/-- A canonical number with the exponent of a word is below `2 ^ 128`. -/
theorem abs_realOf_lt {s : Sign} {m : ℕ} {e : ℤ} {hm : 0 < m}
    (h : Canonical (.finite s m e hm)) (he : e ≤ 104) :
    |realOf (.finite s m e hm)| < 2 ^ 128 := by
  have hpos : (0 : ℝ) < 2 ^ e := by positivity
  have hm24 : (m : ℝ) < 2 ^ (24 : ℤ) := by exact_mod_cast h.1
  have h2e : (2 : ℝ) ^ e ≤ 2 ^ (104 : ℤ) := zpow_le_zpow_right₀ (by norm_num) he
  calc |realOf (.finite s m e hm)| = m * 2 ^ e := by
        cases s <;> simp [realOf, signed, abs_mul, abs_of_pos hpos]
    _ < 2 ^ (24 : ℤ) * 2 ^ e := mul_lt_mul_of_pos_right hm24 hpos
    _ ≤ 2 ^ (24 : ℤ) * 2 ^ (104 : ℤ) := mul_le_mul_of_nonneg_left h2e (by positivity)
    _ = 2 ^ 128 := by norm_num

/-- **Packing loses nothing but the size**: a finite canonical number keeps its place,
unless it is too large and becomes infinite. -/
theorem valueOf_unpack_pack {u : UnpackedFloat} (h : Canonical u) (hu : u.isFinite) :
    (unpack Format.binary32 (pack Format.binary32 u)).isNaN = false ∧
      valueOf (unpack Format.binary32 (pack Format.binary32 u)) = clip (realOf u) := by
  cases u with
  | infinity s => cases hu
  | notANumber => cases hu
  | zero s =>
    rw [show pack Format.binary32 (.zero s) = packedZero Format.binary32 s from rfl,
      unpack_pack_zero]
    refine ⟨rfl, ?_⟩
    show ((0 : ℝ) : EReal) = clip 0
    rw [clip_of_abs_lt (by norm_num)]
  | finite s m e hm =>
    by_cases he : e ≤ 104
    · rw [unpack_pack_finite h he]
      refine ⟨rfl, ?_⟩
      rw [clip_of_abs_lt (abs_realOf_lt h he), valueOf_eq_realOf rfl]
    · -- too large for a word, so it is packed as infinite
      have hbits : 2 ^ 8 ≤ (e + (127 : ℕ) + (23 : ℕ)).toNat + 1 := by omega
      have hpack : pack Format.binary32 (.finite s m e hm) = packedInfinity Format.binary32 s := by
        unfold pack
        simp only [show Format.binary32.exponentBias = 127 from rfl, hbits, if_true]
      rw [hpack, unpack_pack_infinity]
      have hm23 : (2 : ℝ) ^ (23 : ℤ) ≤ m := by
        rcases h.2.2 with h | h
        · exact_mod_cast h
        · omega
      have hbig : (2 : ℝ) ^ 128 ≤ m * 2 ^ e := by
        have h2e : (2 : ℝ) ^ (105 : ℤ) ≤ 2 ^ e := zpow_le_zpow_right₀ (by norm_num) (by omega)
        calc (2 : ℝ) ^ 128 = 2 ^ (23 : ℤ) * 2 ^ (105 : ℤ) := by norm_num
          _ ≤ m * 2 ^ e := mul_le_mul hm23 h2e (by positivity) (by positivity)
      refine ⟨rfl, ?_⟩
      cases s with
      | positive => exact (clip_of_le hbig).symm
      | negative => exact (clip_of_le_neg (neg_le_neg hbig)).symm

/-! ### Comparison -/

/-- `o` is how `x` compares with `y`. -/
def Compares (o : Option Ordering) (x y : EReal) : Prop :=
  match o with
  | some .lt => x < y
  | some .eq => x = y
  | some .gt => y < x
  | none => False

theorem Compares.swap {o : Ordering} {x y : EReal} (h : Compares (some o) x y) :
    Compares (some o.swap) (-x) (-y) := by
  cases o with
  | lt => exact EReal.neg_lt_neg_iff.2 h
  | eq => exact congrArg Neg.neg h
  | gt => exact EReal.neg_lt_neg_iff.2 h

/-- Of two canonical numbers with the same sign, exponents decide before mantissas. -/
theorem mul_zpow_lt {m₁ m₂ : ℕ} {e₁ e₂ : ℤ} (h₁ : m₁ < 2 ^ 24 ∧ -149 ≤ e₁)
    (h₂ : 2 ^ 23 ≤ m₂ ∨ e₂ = -149) (h : e₁ < e₂) : (m₁ : ℝ) * 2 ^ e₁ < m₂ * 2 ^ e₂ := by
  have hm₁ : (m₁ : ℝ) < 2 ^ (24 : ℤ) := by exact_mod_cast h₁.1
  have hm₂ : (2 : ℝ) ^ (23 : ℤ) ≤ m₂ := by
    rcases h₂ with h₂ | h₂
    · exact_mod_cast h₂
    · omega
  calc (m₁ : ℝ) * 2 ^ e₁ < 2 ^ (24 : ℤ) * 2 ^ e₁ := mul_lt_mul_of_pos_right hm₁ (by positivity)
    _ = 2 ^ (e₁ + 24) := by rw [← zpow_add₀ (by norm_num), add_comm]
    _ ≤ 2 ^ (e₂ + 23) := zpow_le_zpow_right₀ (by norm_num) (by omega)
    _ = (2 : ℝ) ^ (23 : ℤ) * 2 ^ e₂ := by rw [← zpow_add₀ (by norm_num), add_comm]
    _ ≤ m₂ * 2 ^ e₂ := mul_le_mul_of_nonneg_right hm₂ (by positivity)

theorem compares_magnitude {s₁ s₂ : Sign} {m₁ m₂ : ℕ} {e₁ e₂ : ℤ} {hm₁ : 0 < m₁} {hm₂ : 0 < m₂}
    (h₁ : Canonical (.finite s₁ m₁ e₁ hm₁)) (h₂ : Canonical (.finite s₂ m₂ e₂ hm₂)) :
    Compares (some ((compare e₁ e₂).then (compare m₁ m₂)))
      (((m₁ : ℝ) * 2 ^ e₁ : ℝ) : EReal) (((m₂ : ℝ) * 2 ^ e₂ : ℝ) : EReal) := by
  rcases lt_trichotomy e₁ e₂ with he | rfl | he
  · rw [compare_lt_iff_lt.2 he]
    exact EReal.coe_lt_coe_iff.2 (mul_zpow_lt ⟨h₁.1, h₁.2.1⟩ h₂.2.2 he)
  · have hpos : (0 : ℝ) < 2 ^ e₁ := by positivity
    rw [compare_eq_iff_eq.2 rfl]
    rcases lt_trichotomy m₁ m₂ with hm | rfl | hm
    · rw [compare_lt_iff_lt.2 hm]
      exact EReal.coe_lt_coe_iff.2 (mul_lt_mul_of_pos_right (by exact_mod_cast hm) hpos)
    · rw [compare_eq_iff_eq.2 rfl]
      exact rfl
    · rw [compare_gt_iff_gt.2 hm]
      exact EReal.coe_lt_coe_iff.2 (mul_lt_mul_of_pos_right (by exact_mod_cast hm) hpos)
  · rw [compare_gt_iff_gt.2 he]
    exact EReal.coe_lt_coe_iff.2 (mul_zpow_lt ⟨h₂.1, h₂.2.1⟩ h₁.2.2 he)

theorem isNaN_of_compare {u v : UnpackedFloat} {o : Ordering} (h : u.compare v = some o) :
    u.isNaN = false ∧ v.isNaN = false := by
  cases u <;> cases v <;> first | exact ⟨rfl, rfl⟩ | cases h

/-- **Comparison is that of the values.** -/
theorem compare_spec {u v : UnpackedFloat} (hu : Canonical u) (hv : Canonical v)
    (nu : u.isNaN = false) (nv : v.isNaN = false) :
    Compares (u.compare v) (valueOf u) (valueOf v) := by
  have hpos : ∀ {m : ℕ} {e : ℤ}, 0 < m → (0 : ℝ) < m * 2 ^ e := fun hm => by positivity
  cases u with
  | notANumber => cases nu
  | infinity s =>
    cases v with
    | notANumber => cases nv
    | infinity s' =>
      cases s <;> cases s'
      · exact rfl
      · exact bot_lt_top
      · exact bot_lt_top
      · exact rfl
    | zero s' => cases s <;> first | exact EReal.bot_lt_coe 0 | exact EReal.coe_lt_top 0
    | finite s' m e hm => cases s <;> first | exact EReal.bot_lt_coe _ | exact EReal.coe_lt_top _
  | zero s =>
    cases v with
    | notANumber => cases nv
    | infinity s' => cases s' <;> first | exact EReal.bot_lt_coe 0 | exact EReal.coe_lt_top 0
    | zero s' => exact rfl
    | finite s' m e hm =>
      have := hpos (e := e) hm
      rw [valueOf_eq_realOf (u := .finite s' m e hm) rfl]
      cases s'
      · exact EReal.coe_lt_coe_iff.2 (neg_lt_zero.2 this)
      · exact EReal.coe_lt_coe_iff.2 this
  | finite s m e hm =>
    rw [valueOf_eq_realOf (u := .finite s m e hm) rfl]
    cases v with
    | notANumber => cases nv
    | infinity s' =>
      cases s <;> cases s' <;> first | exact EReal.bot_lt_coe _ | exact EReal.coe_lt_top _
    | zero s' =>
      have := hpos (e := e) hm
      cases s
      · exact EReal.coe_lt_coe_iff.2 (neg_lt_zero.2 this)
      · exact EReal.coe_lt_coe_iff.2 this
    | finite s' m' e' hm' =>
      have h := hpos (e := e) hm
      have h' := hpos (e := e') hm'
      rw [valueOf_eq_realOf (u := .finite s' m' e' hm') rfl]
      -- below zero the order of magnitudes is reversed
      cases s <;> cases s'
      · exact (compares_magnitude hu hv).swap
      · exact EReal.coe_lt_coe_iff.2 ((neg_lt_zero.2 h).trans h')
      · exact EReal.coe_lt_coe_iff.2 ((neg_lt_zero.2 h').trans h)
      · exact compares_magnitude hu hv

end MultiHop.Single
