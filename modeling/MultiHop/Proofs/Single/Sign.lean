/-
MultiHop/Proofs/Single/Sign.lean

Numbers without a sign: the positive ones and positive zero.  The two zeros are of one size,
so in general two numbers of one size may still be different words; among unsigned numbers
they are not (`IsUnsigned.eq_of_le_of_le`).  Products and quotients of unsigned numbers are
unsigned, also those that underflow, because the sign of a result is made of the signs of the
operands before anything is rounded (`IsUnsigned.mul`, `IsUnsigned.div`).
-/
import MultiHop.Proofs.Single.Order

namespace MultiHop.Single

open Float.Model (Format UnpackedFloat)
open Float.Model.UnpackedFloat

variable {a b : Float32} {u v : UnpackedFloat}

/-! ### Words and what they hold -/

theorem eq_of_rankOf_eq (h : rankOf a = rankOf b) : a = b :=
  Float32.toBits_inj.1 (eq_of_totalRank_eq h)

/-- A word is determined by the number that it holds. -/
theorem eq_of_unpacked_eq (ha : a.isNaN = false) (h : unpacked a = unpacked b) : a = b := by
  have hb : b.isNaN = false := by
    have ha : (unpacked a).isNaN = false := ha
    rw [h] at ha
    exact ha
  apply eq_of_rankOf_eq
  rw [rankOf_eq ha, rankOf_eq hb, h]

/-! ### Unsigned numbers -/

/-- The number is positive, or it is positive zero. -/
def IsUnsigned (a : Float32) : Prop := 0 < a ∨ a = 0

/-- The sign of the number is positive. -/
def Plus : UnpackedFloat → Prop
  | .zero s => s = .positive
  | .finite s _ _ _ => s = .positive
  | .infinity s => s = .positive
  | .notANumber => False

theorem isUnsigned_zero : IsUnsigned 0 := .inr rfl

theorem isUnsigned_one : IsUnsigned 1 := .inl (by decide +kernel)

theorem IsUnsigned.isNaN (h : IsUnsigned a) : a.isNaN = false := by
  rcases h with h | rfl
  · exact (lt_iff.1 h).2.1
  · exact isNaN_of_isFinite isFinite_zero

/-- A positive value is that of a number with a positive sign. -/
theorem plus_of_valueOf_pos (hu : u.isNaN = false) (h : 0 < valueOf u) : Plus u := by
  cases u with
  | notANumber => cases hu
  | zero s => exact absurd h (lt_irrefl _)
  | infinity s =>
    cases s with
    | positive => rfl
    | negative => exact absurd h not_lt_bot
  | finite s m e hm =>
    cases s with
    | positive => rfl
    | negative =>
      have hlt : (0 : ℝ) < -(m * 2 ^ e) := EReal.coe_lt_coe_iff.1 h
      have hpos : (0 : ℝ) < m * 2 ^ e := by positivity
      linarith

/-- Unless it is zero, a number with a positive sign has a positive value. -/
theorem valueOf_pos_of_plus (h : Plus u) : u = .zero .positive ∨ 0 < valueOf u := by
  cases u with
  | notANumber => cases h
  | zero s =>
    cases h
    exact .inl rfl
  | infinity s =>
    cases h
    exact .inr (EReal.coe_lt_top 0)
  | finite s m e hm =>
    cases h
    have hpos : (0 : ℝ) < m * 2 ^ e := by positivity
    exact .inr (EReal.coe_lt_coe_iff.2 hpos)

/-- **Unsigned numbers are those with a positive sign.** -/
theorem isUnsigned_iff : IsUnsigned a ↔ Plus (unpacked a) := by
  have hzero : value 0 = 0 := by
    rw [value_eq isFinite_zero, toReal_zero]
    rfl
  constructor
  · rintro (h | rfl)
    · obtain ⟨-, hn, hv⟩ := lt_iff.1 h
      rw [hzero] at hv
      exact plus_of_valueOf_pos hn hv
    · rw [unpacked_zero]
      rfl
  · intro h
    have hn : a.isNaN = false := by
      show (unpacked a).isNaN = false
      cases hu : unpacked a <;> first | rfl | (rw [hu] at h; cases h)
    rcases valueOf_pos_of_plus h with hz | hpos
    · exact .inr (eq_of_unpacked_eq hn (hz.trans unpacked_zero.symm))
    · refine .inl (lt_iff.2 ⟨isNaN_of_isFinite isFinite_zero, hn, ?_⟩)
      rw [hzero]
      exact hpos

theorem eq_of_compare (hu : Plus u) (hv : Plus v) (h : u.compare v = some .eq) : u = v := by
  cases u with
  | notANumber => cases hu
  | zero s =>
    cases hu
    cases v with
    | zero s' => cases hv; rfl
    | _ => cases hv <;> cases h
  | infinity s =>
    cases hu
    cases v with
    | infinity s' => cases hv; rfl
    | _ => cases hv <;> cases h
  | finite s m e hm =>
    cases hu
    cases v with
    | finite s' m' e' hm' =>
      cases hv
      obtain ⟨he, hmant⟩ := Ordering.then_eq_eq.1 (Option.some.inj h)
      obtain rfl := compare_eq_iff_eq.1 he
      obtain rfl := compare_eq_iff_eq.1 hmant
      rfl
    | _ => cases hv <;> cases h

/-- **Unsigned numbers of one size are one number.** -/
theorem IsUnsigned.eq_of_le_of_le (ha : IsUnsigned a) (hb : IsUnsigned b) (hab : a ≤ b)
    (hba : b ≤ a) : a = b := by
  have hvalue : value a = value b := le_antisymm (le_iff.1 hab).2.2 (le_iff.1 hba).2.2
  have hplaces := compare_places ha.isNaN hb.isNaN
  refine eq_of_unpacked_eq ha.isNaN (eq_of_compare (isUnsigned_iff.1 ha) (isUnsigned_iff.1 hb) ?_)
  rcases ho : (unpacked a).compare (unpacked b) with - | (_ | _ | _) <;> rw [ho] at hplaces
  · exact hplaces.elim
  · exact absurd hvalue hplaces.ne
  · exact absurd hvalue hplaces.ne'

/-- Unsigned numbers that single precision makes of one real number are one number. -/
theorem IsUnsigned.eq_of_rounds {x : ℝ} (ha : IsUnsigned a) (hb : IsUnsigned b)
    (hax : Rounds a x) (hbx : Rounds b x) : a = b :=
  ha.eq_of_le_of_le hb (hax.le hbx le_rfl) (hbx.le hax le_rfl)

/-! ### Two zeros -/

theorem unpacked_neg_zero : unpacked (-0) = .zero .negative := by rfl

/-- A number that is not below zero is unsigned or negative zero. -/
theorem isUnsigned_or_eq_neg_zero (h : 0 ≤ a) : IsUnsigned a ∨ a = -0 := by
  obtain ⟨-, ha, -⟩ := le_iff.1 h
  by_cases hpos : 0 < a
  · exact .inl (.inl hpos)
  have hle := (not_lt_iff (isNaN_of_isFinite isFinite_zero) ha).1 hpos
  have hcompare : (unpacked a).compare (unpacked 0) = some .eq := eq_of_beq (beq_iff.2 ⟨hle, h⟩)
  rw [unpacked_zero] at hcompare
  cases hu : unpacked a with
  | zero s =>
    cases s with
    | positive => exact .inl (.inr (eq_of_unpacked_eq ha (hu.trans unpacked_zero.symm)))
    | negative => exact .inr (eq_of_unpacked_eq ha (hu.trans unpacked_neg_zero.symm))
  | finite s m e hm => rw [hu] at hcompare; cases s <;> cases hcompare
  | infinity s => rw [hu] at hcompare; cases s <;> cases hcompare
  | notANumber => rw [hu] at hcompare; cases hcompare

/-- **Equal numbers are one number, or they are the two zeros.** -/
theorem eq_or_zeros_of_beq (ha : 0 ≤ a) (hb : 0 ≤ b) (h : (a == b) = true) :
    a = b ∨ a = 0 ∧ b = -0 ∨ a = -0 ∧ b = 0 := by
  obtain ⟨hab, hba⟩ := beq_iff.1 h
  have hzero : (-0 : Float32) ≤ 0 := by decide +kernel
  rcases isUnsigned_or_eq_neg_zero ha with ua | rfl <;>
    rcases isUnsigned_or_eq_neg_zero hb with ub | rfl
  · exact .inl (ua.eq_of_le_of_le ub hab hba)
  · exact .inr (.inl ⟨ua.eq_of_le_of_le isUnsigned_zero (le_chain hab hzero) ha, rfl⟩)
  · exact .inr (.inr ⟨rfl, ub.eq_of_le_of_le isUnsigned_zero (le_chain hba hzero) hb⟩)
  · exact .inl rfl

/-! ### Products and quotients -/

theorem clip_pos {x : ℝ} (h : 0 < x) : 0 < clip x := by
  by_cases hbig : 2 ^ 128 ≤ x
  · rw [clip_of_le hbig]
    exact EReal.coe_lt_top 0
  · rw [clip_of_abs_lt (by rw [abs_of_pos h]; exact not_le.1 hbig)]
    exact EReal.coe_lt_coe_iff.2 h

/-- Packing keeps the sign. -/
theorem isUnsigned_pack (hc : Canonical u) (hf : u.isFinite) (h : Plus u) :
    IsUnsigned (.ofModel (.pack u)) := by
  cases u with
  | notANumber => cases hf
  | infinity s => cases hf
  | zero s =>
    cases h
    exact .inr rfl
  | finite s m e hm =>
    cases h
    obtain ⟨hn, hv⟩ := valueOf_unpack_pack hc hf
    have hpos : (0 : ℝ) < m * 2 ^ e := by positivity
    refine isUnsigned_iff.2 (plus_of_valueOf_pos hn ?_)
    show 0 < valueOf (unpack Format.binary32 (pack Format.binary32 (.finite .positive m e hm)))
    rw [hv]
    exact clip_pos hpos

theorem plus_roundWithAccuracy (m : ℕ) (e : ℤ) (acc : Accuracy) :
    Plus (roundWithAccuracy Format.binary32 .positive m e acc) := by
  unfold roundWithAccuracy
  dsimp only
  split <;> rfl

theorem plus_mul (hu : Plus u) (hv : Plus v) (fu : u.isFinite) (fv : v.isFinite) :
    Plus (mul Format.binary32 u v) := by
  cases u with
  | notANumber => cases fu
  | infinity s => cases fu
  | zero s =>
    cases hu
    cases v with
    | infinity t => cases fv
    | _ => cases hv <;> rfl
  | finite s m e hm =>
    cases hu
    cases v with
    | infinity t => cases fv
    | finite t n d hn =>
      cases hv
      exact plus_roundWithAccuracy _ _ _
    | _ => cases hv <;> rfl

theorem plus_div (hu : Plus u) (hv : Plus v) (fu : u.isFinite) (hne : v ≠ .zero .positive) :
    Plus (div Format.binary32 u v) := by
  cases u with
  | notANumber => cases fu
  | infinity s => cases fu
  | zero s =>
    cases hu
    cases v with
    | zero t => cases hv; exact absurd rfl hne
    | _ => cases hv <;> rfl
  | finite s m e hm =>
    cases hu
    cases v with
    | zero t => cases hv; exact absurd rfl hne
    | finite t n d hn =>
      cases hv
      exact plus_roundWithAccuracy _ _ _
    | _ => cases hv <;> rfl

theorem IsUnsigned.mul (ha : IsUnsigned a) (hb : IsUnsigned b) (fa : a.isFinite)
    (fb : b.isFinite) : IsUnsigned (a * b) := by
  obtain ⟨hc, hf, -⟩ := mul_spec (canonical a) (canonical b) fa fb
  exact isUnsigned_pack hc hf (plus_mul (isUnsigned_iff.1 ha) (isUnsigned_iff.1 hb) fa fb)

theorem finite_div_infinity (hu : Canonical u) (fu : u.isFinite) (t : Sign) :
    Canonical (div Format.binary32 u (.infinity t)) ∧
      (div Format.binary32 u (.infinity t)).isFinite := by
  cases u with
  | notANumber => cases fu
  | infinity s => cases fu
  | zero s => exact ⟨trivial, rfl⟩
  | finite s m e hm => exact ⟨trivial, rfl⟩

/-- A quotient by a positive number, which may be infinite. -/
theorem IsUnsigned.div (ha : IsUnsigned a) (fa : a.isFinite) (hb : 0 < b) :
    IsUnsigned (a / b) := by
  obtain ⟨-, hn, hpos⟩ := lt_iff.1 hb
  have hne : unpacked b ≠ .zero .positive := by
    intro hz
    unfold value at hpos
    rw [hz, unpacked_zero] at hpos
    exact lt_irrefl _ hpos
  have hplus : Plus (UnpackedFloat.div Format.binary32 (unpacked a) (unpacked b)) :=
    plus_div (isUnsigned_iff.1 ha) (isUnsigned_iff.1 (.inl hb)) fa hne
  have hspec : Canonical (UnpackedFloat.div Format.binary32 (unpacked a) (unpacked b)) ∧
      (UnpackedFloat.div Format.binary32 (unpacked a) (unpacked b)).isFinite := by
    by_cases fb : b.isFinite
    · rw [lt_iff_toReal isFinite_zero fb, toReal_zero] at hb
      obtain ⟨hc, hf, -⟩ := div_spec (canonical a) fa fb hb.ne'
      exact ⟨hc, hf⟩
    · obtain ⟨t, ht⟩ := unpacked_of_not_finite hn (eq_false_of_ne_true fb)
      rw [ht]
      exact finite_div_infinity (canonical a) fa t
  exact isUnsigned_pack hspec.1 hspec.2 hplus

end MultiHop.Single
