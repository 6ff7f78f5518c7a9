/-
MultiHop/Proofs/Single/Value.lean

Single-precision numbers on the extended line.  Every number but NaN has a place
there, comparison is that of the places (`le_iff`, `lt_iff`), and an operation on
finite numbers is a correct rounding of the operation on the real line
(`rounds_add`, `rounds_sub`, `rounds_mul`, `rounds_div`).

Bounds are proved through `Rounds.le`: correct roundings keep the order of what they
round, and a finite number is a correct rounding of itself.

For exact arithmetic with what a number is, without any rounding, a finite number is also
read as a fraction (`toRat`); it is the same real number (`cast_toRat`).
-/
import MultiHop.Proofs.Single.Arithmetic

namespace MultiHop.Single

open Float.Model (Format UnpackedFloat)
open Float.Model.UnpackedFloat

/-! ### Places on the line -/

/-- Sign, mantissa and exponent of a number. -/
def unpacked (a : Float32) : UnpackedFloat := a.toModel.unpack

/-- The place of a number on the extended line; NaN has none. -/
noncomputable def value (a : Float32) : EReal := valueOf (unpacked a)

/-- The real number that a finite number is. -/
noncomputable def toReal (a : Float32) : ℝ := realOf (unpacked a)

variable {a b : Float32}

theorem canonical (a : Float32) : Canonical (unpacked a) :=
  (canonical_unpack a.toModel.toBits.toBitVec).1

theorem value_eq (ha : a.isFinite) : value a = toReal a := valueOf_eq_realOf ha

theorem isNaN_of_isFinite (ha : a.isFinite) : a.isNaN = false := by
  have ha : (unpacked a).isFinite := ha
  show (unpacked a).isNaN = false
  cases h : unpacked a <;> first | rfl | (rw [h] at ha; cases ha)

theorem rounded_toReal (a : Float32) : rounded (toReal a) = toReal a :=
  (canonical a).rounded_realOf

theorem abs_toReal_lt (a : Float32) : |toReal a| < 2 ^ 128 := by
  obtain ⟨hc, he⟩ := canonical_unpack a.toModel.toBits.toBitVec
  show |realOf (UnpackedFloat.unpack Format.binary32 a.toModel.toBits.toBitVec)| < 2 ^ 128
  cases h : UnpackedFloat.unpack Format.binary32 a.toModel.toBits.toBitVec with
  | finite s m e hm =>
    rw [h] at hc
    exact abs_realOf_lt hc (he s m e hm h)
  | _ => simp [realOf]

/-- A number between two finite ones is finite. -/
theorem isFinite_of_value (ha : a.isNaN = false) {x y : ℝ} (hx : (x : EReal) ≤ value a)
    (hy : value a ≤ y) : a.isFinite := by
  have ha : (unpacked a).isNaN = false := ha
  have hx : (x : EReal) ≤ valueOf (unpacked a) := hx
  have hy : valueOf (unpacked a) ≤ y := hy
  show (unpacked a).isFinite
  cases h : unpacked a with
  | notANumber => rw [h] at ha; cases ha
  | infinity s =>
    rw [h] at hx hy
    cases s
    · exact absurd hx (not_le.2 (EReal.bot_lt_coe x))
    · exact absurd hy (not_le.2 (EReal.coe_lt_top y))
  | _ => rfl

/-! ### Order -/

/-- Numbers compare as their places do. -/
theorem compare_places (ha : a.isNaN = false) (hb : b.isNaN = false) :
    Compares ((unpacked a).compare (unpacked b)) (value a) (value b) :=
  compare_spec (canonical a) (canonical b) ha hb

theorem le_iff : a ≤ b ↔ a.isNaN = false ∧ b.isNaN = false ∧ value a ≤ value b := by
  have hdef : a ≤ b ↔ ((unpacked a).compare (unpacked b)).any (·.isLE) = true :=
    decide_eq_true_iff
  rw [hdef]
  constructor
  · intro h
    rcases ho : (unpacked a).compare (unpacked b) with - | o <;> rw [ho] at h
    · cases h
    obtain ⟨ha, hb⟩ := isNaN_of_compare ho
    have hc := compare_places ha hb
    rw [ho] at hc
    refine ⟨ha, hb, ?_⟩
    cases o
    · exact hc.le
    · exact hc.le
    · cases h
  · rintro ⟨ha, hb, h⟩
    have hc := compare_places ha hb
    rcases ho : (unpacked a).compare (unpacked b) with - | (_ | _ | _) <;> rw [ho] at hc
    · exact hc.elim
    · rfl
    · rfl
    · exact absurd h (not_le.2 hc)

theorem lt_iff : a < b ↔ a.isNaN = false ∧ b.isNaN = false ∧ value a < value b := by
  have hdef : a < b ↔ ((unpacked a).compare (unpacked b) == some .lt) = true :=
    decide_eq_true_iff
  rw [hdef]
  constructor
  · intro h
    have ho : (unpacked a).compare (unpacked b) = some .lt := eq_of_beq h
    obtain ⟨ha, hb⟩ := isNaN_of_compare ho
    have hc := compare_places ha hb
    rw [ho] at hc
    exact ⟨ha, hb, hc⟩
  · rintro ⟨ha, hb, h⟩
    have hc := compare_places ha hb
    rcases ho : (unpacked a).compare (unpacked b) with - | (_ | _ | _) <;> rw [ho] at hc
    · exact hc.elim
    · rfl
    · exact absurd hc h.ne
    · exact absurd h hc.not_gt

theorem not_le_iff (ha : a.isNaN = false) (hb : b.isNaN = false) : ¬ a ≤ b ↔ b < a := by
  rw [le_iff, lt_iff]
  exact ⟨fun h => ⟨hb, ha, not_le.1 fun hv => h ⟨ha, hb, hv⟩⟩, fun h hv => h.2.2.not_ge hv.2.2⟩

/-- Numbers are equal if they are of one size. -/
theorem beq_iff : (a == b) = true ↔ a ≤ b ∧ b ≤ a := by
  have hdef : (a == b) = ((unpacked a).compare (unpacked b) == some .eq) := rfl
  rw [hdef]
  constructor
  · intro h
    have ho : (unpacked a).compare (unpacked b) = some .eq := eq_of_beq h
    obtain ⟨ha, hb⟩ := isNaN_of_compare ho
    have hplaces := compare_places ha hb
    rw [ho] at hplaces
    exact ⟨le_iff.2 ⟨ha, hb, hplaces.le⟩, le_iff.2 ⟨hb, ha, hplaces.ge⟩⟩
  · rintro ⟨hab, hba⟩
    obtain ⟨ha, hb, hle⟩ := le_iff.1 hab
    have hplaces := compare_places ha hb
    have heq : value a = value b := le_antisymm hle (le_iff.1 hba).2.2
    rcases ho : (unpacked a).compare (unpacked b) with - | (_ | _ | _) <;> rw [ho] at hplaces
    · exact hplaces.elim
    · exact absurd heq hplaces.ne
    · rfl
    · exact absurd heq hplaces.ne'

/-- Numbers of different sizes are told apart. -/
theorem bne_of_lt (h : a < b) : (b != a) = true := by
  obtain ⟨ha, hb, -⟩ := lt_iff.1 h
  rw [bne, Bool.not_eq_true', Bool.eq_false_iff]
  exact fun heq => (not_le_iff hb ha).2 h (beq_iff.1 heq).1

theorem le_self (ha : a.isNaN = false) : a ≤ a := le_iff.2 ⟨ha, ha, le_rfl⟩

theorem le_chain {c : Float32} (hab : a ≤ b) (hbc : b ≤ c) : a ≤ c := by
  obtain ⟨ha, -, hvab⟩ := le_iff.1 hab
  obtain ⟨-, hc, hvbc⟩ := le_iff.1 hbc
  exact le_iff.2 ⟨ha, hc, hvab.trans hvbc⟩

/-- Any two numbers compare. -/
theorem le_or_le (ha : a.isNaN = false) (hb : b.isNaN = false) : a ≤ b ∨ b ≤ a := by
  rcases le_total (value a) (value b) with h | h
  · exact .inl (le_iff.2 ⟨ha, hb, h⟩)
  · exact .inr (le_iff.2 ⟨hb, ha, h⟩)

theorem not_lt_self (a : Float32) : ¬ a < a := by
  intro h
  obtain ⟨-, -, hlt⟩ := lt_iff.1 h
  exact lt_irrefl (value a) hlt

theorem not_lt_iff (ha : a.isNaN = false) (hb : b.isNaN = false) : ¬ a < b ↔ b ≤ a := by
  rw [← not_le_iff hb ha, not_not]

theorem le_of_less (h : a < b) : a ≤ b := by
  obtain ⟨ha, hb, hlt⟩ := lt_iff.1 h
  exact le_iff.2 ⟨ha, hb, hlt.le⟩

theorem le_lt_chain {c : Float32} (hab : a ≤ b) (hbc : b < c) : a < c := by
  obtain ⟨ha, -, hvab⟩ := le_iff.1 hab
  obtain ⟨-, hc, hvbc⟩ := lt_iff.1 hbc
  exact lt_iff.2 ⟨ha, hc, hvab.trans_lt hvbc⟩

theorem lt_le_chain {c : Float32} (hab : a < b) (hbc : b ≤ c) : a < c := by
  obtain ⟨ha, -, hvab⟩ := lt_iff.1 hab
  obtain ⟨-, hc, hvbc⟩ := le_iff.1 hbc
  exact lt_iff.2 ⟨ha, hc, hvab.trans_le hvbc⟩

/-- Of two numbers that are told apart one is smaller. -/
theorem lt_or_lt_of_bne (ha : a.isNaN = false) (hb : b.isNaN = false) (h : (a != b) = true) :
    a < b ∨ b < a := by
  by_contra hne
  rw [not_or, not_lt_iff ha hb, not_lt_iff hb ha] at hne
  rw [bne, beq_iff.2 hne.symm] at h
  cases h

theorem le_iff_toReal (ha : a.isFinite) (hb : b.isFinite) : a ≤ b ↔ toReal a ≤ toReal b := by
  rw [le_iff, value_eq ha, value_eq hb, EReal.coe_le_coe_iff]
  exact ⟨fun h => h.2.2, fun h => ⟨isNaN_of_isFinite ha, isNaN_of_isFinite hb, h⟩⟩

theorem lt_iff_toReal (ha : a.isFinite) (hb : b.isFinite) : a < b ↔ toReal a < toReal b := by
  rw [lt_iff, value_eq ha, value_eq hb, EReal.coe_lt_coe_iff]
  exact ⟨fun h => h.2.2, fun h => ⟨isNaN_of_isFinite ha, isNaN_of_isFinite hb, h⟩⟩

/-! ### Correct rounding -/

/-- `a` is what single precision makes of `x`. -/
def Rounds (a : Float32) (x : ℝ) : Prop := a.isNaN = false ∧ value a = single x

theorem Rounds.le {x y : ℝ} (ha : Rounds a x) (hb : Rounds b y) (h : x ≤ y) : a ≤ b :=
  le_iff.2 ⟨ha.1, hb.1, by rw [ha.2, hb.2]; exact single_mono h⟩

theorem rounds_self (ha : a.isFinite) : Rounds a (toReal a) := by
  refine ⟨isNaN_of_isFinite ha, ?_⟩
  rw [value_eq ha, single_of_rounded (rounded_toReal a) (abs_toReal_lt a)]

/-- A canonical result is packed to a correct rounding. -/
theorem rounds_pack {u : UnpackedFloat} {x : ℝ}
    (h : Canonical u ∧ u.isFinite ∧ realOf u = rounded x) :
    Rounds (.ofModel (.pack u)) x := by
  obtain ⟨hc, hf, hr⟩ := h
  obtain ⟨hn, hv⟩ := valueOf_unpack_pack hc hf
  refine ⟨hn, hv.trans ?_⟩
  rw [hr]
  rfl

theorem rounds_add (ha : a.isFinite) (hb : b.isFinite) : Rounds (a + b) (toReal a + toReal b) :=
  rounds_pack (add_spec (canonical a) (canonical b) ha hb)

theorem rounds_sub (ha : a.isFinite) (hb : b.isFinite) : Rounds (a - b) (toReal a - toReal b) :=
  rounds_pack (sub_spec (canonical a) (canonical b) ha hb)

theorem rounds_mul (ha : a.isFinite) (hb : b.isFinite) : Rounds (a * b) (toReal a * toReal b) :=
  rounds_pack (mul_spec (canonical a) (canonical b) ha hb)

theorem rounds_div (ha : a.isFinite) (hb : b.isFinite) (hne : toReal b ≠ 0) :
    Rounds (a / b) (toReal a / toReal b) :=
  rounds_pack (div_spec (canonical a) ha hb hne)

/-- A finite number stays between two numbers of the grid when it is rounded. -/
theorem Rounds.between {x lo hi : ℝ} (h : Rounds a x) (glo : rounded lo = lo)
    (ghi : rounded hi = hi) (hlo : |lo| < 2 ^ 128) (hhi : |hi| < 2 ^ 128) (h1 : lo ≤ x)
    (h2 : x ≤ hi) : a.isFinite ∧ lo ≤ toReal a ∧ toReal a ≤ hi := by
  have hlow : (lo : EReal) ≤ value a := by
    rw [h.2, ← single_of_rounded glo hlo]; exact single_mono h1
  have hhigh : value a ≤ hi := by
    rw [h.2, ← single_of_rounded ghi hhi]; exact single_mono h2
  have hfin := isFinite_of_value h.1 hlow hhigh
  rw [value_eq hfin] at hlow hhigh
  exact ⟨hfin, EReal.coe_le_coe_iff.1 hlow, EReal.coe_le_coe_iff.1 hhigh⟩

/-- Every finite number is a multiple of the smallest step. -/
theorem toReal_eq_mul (a : Float32) : ∃ k : ℤ, toReal a = k * 2 ^ (-149 : ℤ) := by
  have hc := canonical a
  unfold toReal
  cases h : unpacked a with
  | finite s m e hm =>
    rw [h] at hc
    -- the exponent is counted from the smallest one
    obtain ⟨n, rfl⟩ : ∃ n : ℕ, e = n + -149 := ⟨(e + 149).toNat, by have := hc.2.1; omega⟩
    refine ⟨s.apply (m * 2 ^ n), ?_⟩
    show signed s (m * 2 ^ ((n : ℤ) + -149)) = _
    rw [zpow_add₀ (by norm_num), zpow_natCast, ← mul_assoc, ← signed_mul_right]
    have := apply_cast s (m * 2 ^ n)
    push_cast at this ⊢
    rw [this]
  | _ => exact ⟨0, by simp [realOf]⟩

theorem rounded_zpow {e : ℤ} (he : -149 ≤ e) : rounded (2 ^ e) = 2 ^ e := by
  have := rounded_of_grid (m := 1) (e := e) (by norm_num) he
  rwa [Int.cast_one, one_mul] at this

/-- What reaches a power of two in the range of exponents does not underflow. -/
theorem single_pos {x : ℝ} {e : ℤ} (hmin : -149 ≤ e) (hmax : e < 128) (h : 2 ^ e ≤ x) :
    0 < single x := by
  have hpos : (0 : ℝ) < 2 ^ e := by positivity
  have hlt : (2 : ℝ) ^ e < 2 ^ 128 := by
    exact_mod_cast zpow_lt_zpow_right₀ (by norm_num : (1 : ℝ) < 2) hmax
  have hfix : single (2 ^ e) = ((2 ^ e : ℝ) : EReal) :=
    single_of_rounded (rounded_zpow hmin) (by rwa [abs_of_pos hpos])
  calc (0 : EReal) < ((2 ^ e : ℝ) : EReal) := EReal.coe_lt_coe_iff.2 hpos
    _ = single (2 ^ e) := hfix.symm
    _ ≤ single x := single_mono h

/-- A positive multiple of the smallest step does not underflow. -/
theorem single_pos_of_mul {x : ℝ} {k : ℤ} (hk : x = k * 2 ^ (-149 : ℤ)) (h : 0 < x) :
    0 < single x := by
  have hstep : (0 : ℝ) < 2 ^ (-149 : ℤ) := by positivity
  have hone : 1 ≤ k := by
    rw [hk] at h
    have : (0 : ℝ) < k := pos_of_mul_pos_left h hstep.le
    exact_mod_cast this
  refine single_pos (e := -149) le_rfl (by norm_num) ?_
  rw [hk]
  exact le_mul_of_one_le_left hstep.le (by exact_mod_cast hone)

/-- **A positive sum stays positive**: sums do not underflow. -/
theorem single_add_pos (h : 0 < toReal a + toReal b) : 0 < single (toReal a + toReal b) := by
  obtain ⟨k, hk⟩ := toReal_eq_mul a
  obtain ⟨l, hl⟩ := toReal_eq_mul b
  refine single_pos_of_mul (k := k + l) ?_ h
  rw [hk, hl]; push_cast; ring

/-- A positive difference stays positive. -/
theorem single_sub_pos (h : 0 < toReal a - toReal b) : 0 < single (toReal a - toReal b) := by
  obtain ⟨k, hk⟩ := toReal_eq_mul a
  obtain ⟨l, hl⟩ := toReal_eq_mul b
  refine single_pos_of_mul (k := k - l) ?_ h
  rw [hk, hl]; push_cast; ring

/-! ### Zero and one -/

theorem unpacked_zero : unpacked 0 = .zero .positive := by rfl

theorem unpacked_one : unpacked 1 = .finite .positive (2 ^ 23) (-23) (by norm_num) := by rfl

theorem isFinite_zero : (0 : Float32).isFinite := by
  show (unpacked 0).isFinite
  rw [unpacked_zero]; rfl

theorem isFinite_one : (1 : Float32).isFinite := by
  show (unpacked 1).isFinite
  rw [unpacked_one]; rfl

theorem unpacked_neg_one : unpacked (-1) = .finite .negative (2 ^ 23) (-23) (by norm_num) := by
  rfl

theorem isFinite_neg_one : (-1 : Float32).isFinite := by
  show (unpacked (-1)).isFinite
  rw [unpacked_neg_one]; rfl

@[simp] theorem toReal_zero : toReal 0 = 0 := by
  unfold toReal; rw [unpacked_zero]; rfl

@[simp] theorem toReal_one : toReal 1 = 1 := by
  unfold toReal; rw [unpacked_one]
  show ((2 ^ 23 : ℕ) : ℝ) * 2 ^ (-23 : ℤ) = 1
  norm_num

@[simp] theorem toReal_neg_one : toReal (-1) = -1 := by
  unfold toReal; rw [unpacked_neg_one]
  show -(((2 ^ 23 : ℕ) : ℝ) * 2 ^ (-23 : ℤ)) = -1
  norm_num

theorem rounds_zero : Rounds 0 0 := toReal_zero ▸ rounds_self isFinite_zero

theorem rounds_one : Rounds 1 1 := toReal_one ▸ rounds_self isFinite_one

/-! ### Fractions -/

/-- The fraction that a finite unpacked number stands for. -/
def fractionOf : UnpackedFloat → ℚ
  | .finite s m e _ => s.apply m * 2 ^ e
  | _ => 0

/-- The fraction that a finite number is. -/
def toRat (a : Float32) : ℚ := fractionOf (unpacked a)

theorem cast_toRat (a : Float32) : (toRat a : ℝ) = toReal a := by
  unfold toRat toReal
  cases unpacked a with
  | finite s m e hm =>
    show ((s.apply m * 2 ^ e : ℚ) : ℝ) = signed s (m * 2 ^ e)
    push_cast
    rw [apply_cast, signed_mul_right]
  | _ => exact Rat.cast_zero

/-- Finite numbers compare as fractions do. -/
theorem lt_iff_toRat (ha : a.isFinite) (hb : b.isFinite) : a < b ↔ toRat a < toRat b := by
  rw [lt_iff_toReal ha hb, ← cast_toRat, ← cast_toRat, Rat.cast_lt]

@[simp] theorem toRat_neg_one : toRat (-1) = -1 := by
  exact_mod_cast (cast_toRat (-1)).trans toReal_neg_one

/-! ### Products and quotients of zero -/

/-- A finite number times zero is one of the two zeros. -/
theorem mul_zero_eq (h : a.isFinite) : a * 0 = 0 ∨ a * 0 = -0 := by
  have h : (unpacked a).isFinite := h
  have hmul : a * 0 = .ofModel (.pack (UnpackedFloat.mul Format.binary32
      (unpacked a) (unpacked 0))) := rfl
  rw [hmul, unpacked_zero]
  cases hu : unpacked a with
  | notANumber => rw [hu] at h; cases h
  | infinity s => rw [hu] at h; cases h
  | zero s => cases s <;> [right; left] <;> rfl
  | finite s m e hm => cases s <;> [right; left] <;> rfl

/-- Zero divided by a positive number is positive zero. -/
theorem zero_div_eq (h : 0 < a) : 0 / a = 0 := by
  obtain ⟨-, -, hv⟩ := lt_iff.1 h
  rw [value_eq isFinite_zero, toReal_zero] at hv
  have hdiv : 0 / a = .ofModel (.pack (UnpackedFloat.div Format.binary32
      (unpacked 0) (unpacked a))) := rfl
  rw [hdiv, unpacked_zero]
  unfold value at hv
  cases hu : unpacked a with
  | notANumber => rw [hu] at hv; exact absurd hv (lt_irrefl _)
  | infinity s =>
    rw [hu] at hv
    cases s
    · exact absurd hv not_lt_bot
    · rfl
  | zero s => rw [hu] at hv; exact absurd hv (lt_irrefl _)
  | finite s m e hm =>
    rw [hu] at hv
    cases s
    · -- a negative number is not above zero
      have hlt : (0 : ℝ) < -(m * 2 ^ e) := EReal.coe_lt_coe_iff.1 hv
      have hpos : (0 : ℝ) < m * 2 ^ e := by positivity
      linarith
    · rfl

/-! ### Infinities -/

/-- Positive infinity. -/
def infinity : Float32 := 1 / 0

theorem unpacked_ofModel_infinity (s : Sign) :
    unpacked (.ofModel (.pack (.infinity s))) = .infinity s := unpack_pack_infinity s

/-- A number that is neither finite nor NaN is infinite. -/
theorem unpacked_of_not_finite (hn : a.isNaN = false) (hf : a.isFinite = false) :
    ∃ s, unpacked a = .infinity s := by
  have hn : (unpacked a).isNaN = false := hn
  have hf : (unpacked a).isFinite = false := hf
  cases h : unpacked a with
  | infinity s => exact ⟨s, rfl⟩
  | notANumber => rw [h] at hn; cases hn
  | zero s => rw [h] at hf; cases hf
  | finite s m e hm => rw [h] at hf; cases hf

theorem value_of_not_finite (hf : a.isFinite = false) (h : 0 ≤ a) : value a = ⊤ := by
  obtain ⟨-, hn, h⟩ := le_iff.1 h
  rw [value_eq isFinite_zero, toReal_zero] at h
  obtain ⟨s, hs⟩ := unpacked_of_not_finite hn hf
  unfold value at h ⊢
  rw [hs] at h ⊢
  cases s
  · exact absurd h (not_le.2 (EReal.bot_lt_coe 0))
  · rfl

/-- A finite number divided by an infinite one is zero. -/
theorem rounds_div_infinite (ha : a.isFinite) (hn : b.isNaN = false) (hb : b.isFinite = false) :
    Rounds (a / b) 0 := by
  obtain ⟨t, ht⟩ := unpacked_of_not_finite hn hb
  have ha : (unpacked a).isFinite := ha
  refine rounds_pack (u := UnpackedFloat.div Format.binary32 (unpacked a) (unpacked b)) ?_
  rw [ht]
  cases h : unpacked a with
  | infinity s => rw [h] at ha; cases ha
  | notANumber => rw [h] at ha; cases ha
  | zero s => exact zero_spec (s / t) rfl
  | finite s m e hm => exact zero_spec (s / t) rfl

/-- One divided by the infinite positive number is positive zero. -/
theorem one_div_eq_zero (hf : a.isFinite = false) (h : 0 ≤ a) : 1 / a = 0 := by
  have hv := value_of_not_finite hf h
  obtain ⟨s, hs⟩ := unpacked_of_not_finite (le_iff.1 h).2.1 hf
  have hdiv : 1 / a = .ofModel (.pack (UnpackedFloat.div Format.binary32
      (unpacked 1) (unpacked a))) := rfl
  unfold value at hv
  rw [hs] at hv
  rw [hdiv, unpacked_one, hs]
  cases s
  · exact absurd hv bot_ne_top
  · rfl

/-- An infinite number stays what it is when a finite one is added to it. -/
theorem value_add_infinite (ha : a.isFinite) (hn : b.isNaN = false) (hb : b.isFinite = false) :
    (a + b).isNaN = false ∧ value (a + b) = value b := by
  obtain ⟨t, ht⟩ := unpacked_of_not_finite hn hb
  have ha : (unpacked a).isFinite := ha
  have hadd : UnpackedFloat.add Format.binary32 (unpacked a) (unpacked b) = .infinity t := by
    rw [ht]
    cases h : unpacked a with
    | infinity s => rw [h] at ha; cases ha
    | notANumber => rw [h] at ha; cases ha
    | _ => rfl
  have hsum : unpacked (a + b) = .infinity t := by
    show unpacked (.ofModel (.pack (UnpackedFloat.add Format.binary32 (unpacked a) (unpacked b)))) = _
    rw [hadd, unpacked_ofModel_infinity]
  constructor
  · show (unpacked (a + b)).isNaN = false
    rw [hsum]; rfl
  · unfold value
    rw [hsum, ht]

/-! ### Negatives -/

theorem realOf_neg (u : UnpackedFloat) : realOf u.neg = -realOf u := by
  cases u with
  | finite s m e hm =>
    cases s
    · exact (neg_neg _).symm
    · rfl
  | _ => exact neg_zero.symm

/-- The negative of a number is a number, at the opposite place. -/
theorem neg_spec (ha : a.isNaN = false) : (-a).isNaN = false ∧ value (-a) = -value a := by
  have hc := canonical a
  have hlt := abs_toReal_lt a
  have ha : (unpacked a).isNaN = false := ha
  have hneg : unpacked (-a) = UnpackedFloat.unpack Format.binary32
      (UnpackedFloat.pack Format.binary32 (unpacked a).neg) := rfl
  show (unpacked (-a)).isNaN = false ∧ valueOf (unpacked (-a)) = -valueOf (unpacked a)
  rw [hneg]
  cases h : unpacked a with
  | notANumber => rw [h] at ha; cases ha
  | infinity s =>
    show (UnpackedFloat.unpack Format.binary32 (packedInfinity Format.binary32 (-s))).isNaN = false ∧
      valueOf (UnpackedFloat.unpack Format.binary32 (packedInfinity Format.binary32 (-s))) = _
    rw [unpack_pack_infinity]
    cases s
    · exact ⟨rfl, EReal.neg_bot.symm⟩
    · exact ⟨rfl, EReal.neg_top.symm⟩
  | zero s =>
    obtain ⟨hn, hv⟩ := valueOf_unpack_pack (u := .zero (-s)) trivial rfl
    refine ⟨hn, hv.trans ?_⟩
    show clip 0 = -((0 : ℝ) : EReal)
    rw [clip_of_abs_lt (by norm_num), ← EReal.coe_neg, neg_zero]
  | finite s m e hm =>
    unfold toReal at hlt
    rw [h] at hc hlt
    obtain ⟨hn, hv⟩ := valueOf_unpack_pack (u := .finite (-s) m e hm) hc rfl
    have hreal : realOf (.finite (-s) m e hm) = -realOf (.finite s m e hm) :=
      realOf_neg (.finite s m e hm)
    refine ⟨hn, hv.trans ?_⟩
    -- what is packed is as far from zero as `a`, so it is not clipped
    rw [hreal, clip_of_abs_lt ((abs_neg _).trans_lt hlt), EReal.coe_neg]
    rfl

theorem isNaN_neg (ha : a.isNaN = false) : (-a).isNaN = false := (neg_spec ha).1

/-- Negation turns the order round. -/
theorem neg_le_neg_of_le (h : a ≤ b) : -b ≤ -a := by
  obtain ⟨ha, hb, hv⟩ := le_iff.1 h
  obtain ⟨hna, hva⟩ := neg_spec ha
  obtain ⟨hnb, hvb⟩ := neg_spec hb
  refine le_iff.2 ⟨hnb, hna, ?_⟩
  rw [hva, hvb]
  exact EReal.neg_le_neg_iff.2 hv

theorem le_infinity (ha : a.isNaN = false) : a ≤ infinity := by
  have hnonneg : (0 : Float32) ≤ infinity := by decide +kernel
  refine le_iff.2 ⟨ha, (le_iff.1 hnonneg).2.1, ?_⟩
  rw [value_of_not_finite (by decide +kernel) hnonneg]
  exact le_top

theorem neg_infinity_le (ha : a.isNaN = false) : -infinity ≤ a := by
  obtain ⟨hn, hv⟩ := neg_spec (a := infinity) (by decide +kernel)
  refine le_iff.2 ⟨hn, ha, ?_⟩
  rw [hv, value_of_not_finite (by decide +kernel) (by decide +kernel), EReal.neg_top]
  exact bot_le

/-! ### NaN -/

theorem unpacked_of_isNaN (ha : a.isNaN = true) : unpacked a = .notANumber := by
  have ha : (unpacked a).isNaN = true := ha
  cases h : unpacked a with
  | notANumber => rfl
  | infinity s => rw [h] at ha; cases ha
  | zero s => rw [h] at ha; cases ha
  | finite s m e hm => rw [h] at ha; cases ha

/-- What comes out as NaN is packed to NaN. -/
theorem isNaN_pack {u : UnpackedFloat} (h : u = .notANumber) :
    (Float32.ofModel (.pack u)).isNaN = true := by
  rw [h]
  rfl

/-- NaN has no sign. -/
theorem isNaN_neg_of_isNaN (ha : a.isNaN = true) : (-a).isNaN = true := by
  refine isNaN_pack (u := (unpacked a).neg) ?_
  rw [unpacked_of_isNaN ha]
  rfl

theorem isNaN_add_right (a : Float32) (hb : b.isNaN = true) : (a + b).isNaN = true := by
  refine isNaN_pack (u := UnpackedFloat.add Format.binary32 (unpacked a) (unpacked b)) ?_
  rw [unpacked_of_isNaN hb]
  cases unpacked a <;> rfl

theorem isNaN_div_right (a : Float32) (hb : b.isNaN = true) : (a / b).isNaN = true := by
  refine isNaN_pack (u := UnpackedFloat.div Format.binary32 (unpacked a) (unpacked b)) ?_
  rw [unpacked_of_isNaN hb]
  cases unpacked a <;> rfl

end MultiHop.Single
