/-
MultiHop/Proofs/Single/Order.lean

The order of words.  Entries are sorted by the rank of the word that holds a number, not by
comparing numbers.  Apart from its sign, a word counts magnitudes: the exponent stands
above the mantissa, and the infinite magnitude comes after the last finite one.  So a
smaller number is held by a word of lower rank (`rankOf_lt_of_lt`), and sorting by rank is
sorting by size.  Only the two zeros are of one size and of two ranks.
-/
import MultiHop.Proofs.Single.Value
import MultiHop.Score.TopK

namespace MultiHop.Single

open Float.Model (Format UnpackedFloat)
open Float.Model.UnpackedFloat

/-! ### Ranks of unpacked numbers -/

/-- The rank of a word with the given sign whose other bits make the number `n`. -/
def rankWith : Sign → ℤ → ℤ
  | .positive, n => n
  | .negative, n => -1 - n

/-- The rank of the word that holds a number; of a NaN it says nothing. -/
def rankOfUnpacked : UnpackedFloat → ℤ
  | .zero s => rankWith s 0
  | .finite s m e _ => rankWith s ((e + 149) * 2 ^ 23 + m)
  | .infinity s => rankWith s (255 * 2 ^ 23)
  | .notANumber => 0

/-- The number is one that a word holds. -/
def IsHeld (u : UnpackedFloat) : Prop :=
  Canonical u ∧ ∀ s m e hm, u = .finite s m e hm → e ≤ 104

/-- A finite magnitude is counted between zero and the infinite one. -/
theorem counter_bounds {s : Sign} {m : ℕ} {e : ℤ} {hm : 0 < m} (h : IsHeld (.finite s m e hm)) :
    0 < (e + 149) * 2 ^ 23 + (m : ℤ) ∧ (e + 149) * 2 ^ 23 + (m : ℤ) < 255 * 2 ^ 23 := by
  obtain ⟨⟨hlt, he, -⟩, hmax⟩ := h
  have hmax : e ≤ 104 := hmax s m e hm rfl
  omega

/-- Of two finite magnitudes the smaller one is counted first. -/
theorem counter_lt {s₁ s₂ : Sign} {m₁ m₂ : ℕ} {e₁ e₂ : ℤ} {hm₁ : 0 < m₁} {hm₂ : 0 < m₂}
    (h₁ : Canonical (.finite s₁ m₁ e₁ hm₁)) (h₂ : Canonical (.finite s₂ m₂ e₂ hm₂))
    (h : (compare e₁ e₂).then (compare m₁ m₂) = .lt) :
    (e₁ + 149) * 2 ^ 23 + m₁ < (e₂ + 149) * 2 ^ 23 + (m₂ : ℤ) := by
  obtain ⟨hlt₁, he₁, -⟩ := h₁
  obtain ⟨-, he₂, hnorm₂⟩ := h₂
  rcases Ordering.then_eq_lt.1 h with he | ⟨he, hm⟩
  · have he := compare_lt_iff_lt.1 he
    omega
  · have he := compare_eq_iff_eq.1 he
    have hm := compare_lt_iff_lt.1 hm
    omega

/-- **A smaller number has a lower rank.** -/
theorem rankOfUnpacked_lt {u v : UnpackedFloat} (hu : IsHeld u) (hv : IsHeld v)
    (h : u.compare v = some .lt) : rankOfUnpacked u < rankOfUnpacked v := by
  obtain ⟨nu, nv⟩ := isNaN_of_compare h
  -- the bounds tell any two numbers apart that are not both finite
  cases u with
  | notANumber => cases nu
  | zero s =>
    cases v with
    | notANumber => cases nv
    | zero s' => cases h
    | infinity s' =>
      cases s' <;> cases s <;> first | (simp only [rankOfUnpacked, rankWith]; omega) | cases h
    | finite s' m e hm =>
      have hbounds := counter_bounds hv
      cases s' <;> cases s <;> first | (simp only [rankOfUnpacked, rankWith]; omega) | cases h
  | infinity s =>
    cases v with
    | notANumber => cases nv
    | zero s' =>
      cases s' <;> cases s <;> first | (simp only [rankOfUnpacked, rankWith]; omega) | cases h
    | infinity s' =>
      cases s' <;> cases s <;> first | (simp only [rankOfUnpacked, rankWith]; omega) | cases h
    | finite s' m e hm =>
      have hbounds := counter_bounds hv
      cases s' <;> cases s <;> first | (simp only [rankOfUnpacked, rankWith]; omega) | cases h
  | finite s m e hm =>
    have hbounds := counter_bounds hu
    cases v with
    | notANumber => cases nv
    | zero s' =>
      cases s' <;> cases s <;> first | (simp only [rankOfUnpacked, rankWith]; omega) | cases h
    | infinity s' =>
      cases s' <;> cases s <;> first | (simp only [rankOfUnpacked, rankWith]; omega) | cases h
    | finite s' m' e' hm' =>
      have hbounds' := counter_bounds hv
      cases s <;> cases s'
      · -- below zero the order of magnitudes is reversed
        have hswap := Option.some.inj h
        rw [Ordering.swap_then, ← Std.OrientedCmp.eq_swap, ← Std.OrientedCmp.eq_swap] at hswap
        have hlt := counter_lt hv.1 hu.1 hswap
        simp only [rankOfUnpacked, rankWith]
        omega
      · simp only [rankOfUnpacked, rankWith]; omega
      · cases h
      · have hlt := counter_lt hu.1 hv.1 (Option.some.inj h)
        simpa only [rankOfUnpacked, rankWith] using hlt

/-! ### Ranks of words -/

variable {a b : Float32}

theorem toNat_unpackMantissa (w : BitVec 32) :
    (@unpackMantissa Format.binary32 w).toNat = w.toNat % 2 ^ 23 := by
  rw [unpackMantissa, BitVec.toNat_cast, BitVec.extractLsb_toNat]
  rfl

theorem toNat_unpackExponent (w : BitVec 32) :
    (@unpackExponent Format.binary32 w).toNat = w.toNat / 2 ^ 23 % 2 ^ 8 := by
  rw [unpackExponent, BitVec.toNat_cast, BitVec.extractLsb_toNat, Nat.shiftRight_eq_div_pow]
  rfl

theorem toNat_unpackSign (w : BitVec 32) :
    (@unpackSign Format.binary32 w).toNat = w.toNat / 2 ^ 31 % 2 := by
  rw [unpackSign, BitVec.toNat_cast, BitVec.extractLsb_toNat, Nat.shiftRight_eq_div_pow]
  rfl

/-- The bits of a word below the sign are the magnitude that it counts. -/
theorem rankOfUnpacked_unpack {w : BitVec 32} (hw : (unpack Format.binary32 w).isNaN = false) :
    rankOfUnpacked (unpack Format.binary32 w) =
      rankWith (Sign.ofBitVec (@unpackSign Format.binary32 w)) (w.toNat % 2 ^ 31 : ℕ) := by
  have hsplit : w.toNat % 2 ^ 31 =
      (@unpackExponent Format.binary32 w).toNat * 2 ^ 23 +
        (@unpackMantissa Format.binary32 w).toNat := by
    rw [toNat_unpackExponent, toNat_unpackMantissa]
    omega
  rw [hsplit]
  unfold unpack at hw ⊢
  simp only [bias_binary32] at hw ⊢
  split
  · next hexp =>
    rw [if_pos hexp] at hw
    split
    · next hmant =>
      rw [hexp, hmant]
      rfl
    · next hmant =>
      rw [if_neg hmant] at hw
      cases hw
  · split
    · next hexp =>
      split
      · next hmant =>
        rw [hexp, hmant]
        rfl
      · simp only [rankOfUnpacked]
        congr 1
        have hzero : (@unpackExponent Format.binary32 w).toNat = 0 := by rw [hexp]; rfl
        rw [hzero]
        norm_num
    · simp only [rankOfUnpacked]
      congr 1
      -- the leading bit of a normal number counts as one more in the exponent
      rw [toNat_leadingBit]
      push_cast
      omega

/-- The rank of a word, by its sign and its other bits. -/
theorem totalRank_eq (word : UInt32) :
    totalRank word = rankWith (Sign.ofBitVec (@unpackSign Format.binary32 word.toBitVec))
      (word.toNat % 2 ^ 31 : ℕ) := by
  have hlt : word.toNat < 2 ^ 32 := word.toBitVec.isLt
  have hsign : (@unpackSign Format.binary32 word.toBitVec).toNat = word.toNat / 2 ^ 31 % 2 :=
    toNat_unpackSign word.toBitVec
  unfold totalRank Sign.ofBitVec
  by_cases hpos : word.toNat < 0x80000000
  · have hzero : @unpackSign Format.binary32 word.toBitVec = 0#1 := by
      apply BitVec.eq_of_toNat_eq
      rw [hsign, BitVec.toNat_zero]
      omega
    rw [if_pos hpos, if_pos hzero, rankWith]
    omega
  · have hone : @unpackSign Format.binary32 word.toBitVec ≠ 0#1 := by
      intro hzero
      rw [hzero, BitVec.toNat_zero] at hsign
      omega
    rw [if_neg hpos, if_neg hone, rankWith]
    omega

theorem rankOf_eq (ha : a.isNaN = false) : rankOf a = rankOfUnpacked (unpacked a) := by
  have hunpack := rankOfUnpacked_unpack (w := a.toModel.toBits.toBitVec) ha
  exact (totalRank_eq a.toModel.toBits).trans hunpack.symm

theorem isHeld_unpacked (a : Float32) : IsHeld (unpacked a) :=
  canonical_unpack a.toModel.toBits.toBitVec

/-- **Sorting by rank is sorting by size**: a smaller number has a lower rank. -/
theorem rankOf_lt_of_lt (h : a < b) : rankOf a < rankOf b := by
  obtain ⟨ha, hb, -⟩ := lt_iff.1 h
  have hcompare : (unpacked a).compare (unpacked b) = some .lt :=
    eq_of_beq (of_decide_eq_true h)
  rw [rankOf_eq ha, rankOf_eq hb]
  exact rankOfUnpacked_lt (isHeld_unpacked a) (isHeld_unpacked b) hcompare

end MultiHop.Single
