/-
MultiHop/Proofs/Fuzzy/Calibration.lean

The connectives stay within the unit interval.  Each of them is a sequence of
correctly rounded operations, and rounding keeps the order, so a bound on what is
rounded is one on the result (`isProbability_of_rounds`).  Two places need more than
that: Sugeno's denominator must not underflow to zero when the parameter is next to
-1, and the inverse of Yager's parameter must stay positive when the parameter is
huge.

Main results: `TNorm.isProbability_meet`, `TNorm.isProbability_join`,
`Negation.isProbability_complement`, `isProbability_sigmoid`.  It follows that
`FuzzySet.ofDegrees` admits what they make (`FuzzySet.ofDegrees_eq`).
-/
import MultiHop.Fuzzy.Set
import MultiHop.Proofs.Single.Value
import MultiHop.Query.Settings

namespace MultiHop

open Single

/-! ### The unit interval -/

variable {a b p x lambda : Float32}

theorem isProbability_iff : IsProbability p ↔ p.isFinite ∧ 0 ≤ toReal p ∧ toReal p ≤ 1 := by
  constructor
  · rintro ⟨h0, h1⟩
    have hfin : p.isFinite := by
      refine isFinite_of_value (le_iff.1 h0).2.1 (x := 0) (y := 1) ?_ ?_
      · rw [← toReal_zero, ← value_eq isFinite_zero]
        exact (le_iff.1 h0).2.2
      · rw [← toReal_one, ← value_eq isFinite_one]
        exact (le_iff.1 h1).2.2
    rw [le_iff_toReal isFinite_zero hfin, toReal_zero] at h0
    rw [le_iff_toReal hfin isFinite_one, toReal_one] at h1
    exact ⟨hfin, h0, h1⟩
  · rintro ⟨hfin, h0, h1⟩
    refine ⟨(le_iff_toReal isFinite_zero hfin).2 ?_, (le_iff_toReal hfin isFinite_one).2 ?_⟩
    · rwa [toReal_zero]
    · rwa [toReal_one]

theorem IsProbability.isFinite (h : IsProbability p) : p.isFinite := (isProbability_iff.1 h).1

theorem IsProbability.toReal_nonneg (h : IsProbability p) : 0 ≤ toReal p :=
  (isProbability_iff.1 h).2.1

theorem IsProbability.toReal_le_one (h : IsProbability p) : toReal p ≤ 1 :=
  (isProbability_iff.1 h).2.2

theorem IsProbability.isNaN (h : IsProbability p) : p.isNaN = false := (le_iff.1 h.1).2.1

theorem isProbability_of_rounds {y : ℝ} (h : Rounds p y) (h0 : 0 ≤ y) (h1 : y ≤ 1) :
    IsProbability p :=
  ⟨rounds_zero.le h h0, h.le rounds_one h1⟩

theorem isProbability_one_sub (ha : IsProbability a) : IsProbability (1 - a) := by
  have h := rounds_sub isFinite_one ha.isFinite
  rw [toReal_one] at h
  exact isProbability_of_rounds h (sub_nonneg.2 ha.toReal_le_one)
    (sub_le_self 1 ha.toReal_nonneg)

theorem isProbability_mul (ha : IsProbability a) (hb : IsProbability b) :
    IsProbability (a * b) :=
  isProbability_of_rounds (rounds_mul ha.isFinite hb.isFinite)
    (mul_nonneg ha.toReal_nonneg hb.toReal_nonneg)
    (mul_le_one₀ ha.toReal_le_one hb.toReal_nonneg hb.toReal_le_one)

/-- A quotient of a probability by something that is no smaller, possibly infinite. -/
theorem isProbability_div (ha : IsProbability a) (hab : a ≤ b) (hb : 0 < b) :
    IsProbability (a / b) := by
  by_cases hfin : b.isFinite
  · rw [lt_iff_toReal isFinite_zero hfin, toReal_zero] at hb
    rw [le_iff_toReal ha.isFinite hfin] at hab
    exact isProbability_of_rounds (rounds_div ha.isFinite hfin hb.ne')
      (div_nonneg ha.toReal_nonneg hb.le) ((div_le_one hb).2 hab)
  · -- a finite number divided by an infinite one is zero
    exact isProbability_of_rounds
      (rounds_div_infinite ha.isFinite (le_iff.1 hab).2.1 (eq_false_of_ne_true hfin))
      le_rfl zero_le_one

theorem isProbability_larger (ha : IsProbability a) (hb : IsProbability b) :
    IsProbability (larger a b) := by
  unfold larger
  split
  · exact hb
  · split
    · exact hb
    · exact ha

theorem isProbability_smaller (ha : IsProbability a) (hb : IsProbability b) :
    IsProbability (smaller a b) := by
  unfold smaller
  split
  · exact hb
  · split
    · exact hb
    · exact ha

theorem TNorm.isProbability_meet (t : TNorm) (ha : IsProbability a) (hb : IsProbability b) :
    IsProbability (t.meet a b) := by
  cases t with
  | minimum => exact isProbability_smaller ha hb
  | product => exact isProbability_mul ha hb

theorem TNorm.isProbability_join (t : TNorm) (ha : IsProbability a) (hb : IsProbability b) :
    IsProbability (t.join a b) := by
  cases t with
  | minimum => exact isProbability_larger ha hb
  | product =>
    exact isProbability_one_sub
      (isProbability_mul (isProbability_one_sub ha) (isProbability_one_sub hb))

/-! ### Parameters of negations -/

/-- Whether `lambda` suits the negation: it is finite, and the negation is defined on
the whole unit interval. -/
def Negation.Admits (n : Negation) (lambda : Float32) : Prop :=
  lambda.isFinite ∧ (n = .sugeno → -1 < lambda) ∧ (n = .yager → 0 < lambda)

theorem Negation.validate_eq_ok_iff {n : Negation} :
    n.validate lambda = .ok () ↔ n.Admits lambda := by
  unfold validate Admits
  by_cases hfin : lambda.isFinite
  · have hn := isNaN_of_isFinite hfin
    have hzero := isNaN_of_isFinite isFinite_zero
    have hone := isNaN_of_isFinite isFinite_neg_one
    cases n with
    | standard => simp [hfin]
    | sugeno =>
      rw [← not_le_iff hn hone]
      by_cases h : lambda ≤ -1 <;> simp [hfin, h]
    | yager =>
      rw [← not_le_iff hn hzero]
      by_cases h : lambda ≤ 0 <;> simp [hfin, h]
  · simp [hfin]

/-- The settings suit a graph of `n` entities: the beam is narrower than the graph, and
the parameter suits the negation. -/
def Settings.Suits (s : Settings) (n : Nat) : Prop := s.width < n ∧ s.negation.Admits s.lambda

theorem Settings.validate_eq_ok_iff {s : Settings} {n : Nat} :
    s.validate n = .ok () ↔ s.Suits n := by
  unfold Settings.validate Suits
  split
  · next h => exact ⟨nofun, fun hs => absurd hs.1 (not_lt.2 h)⟩
  · next h => rw [Negation.validate_eq_ok_iff, and_iff_right (not_le.1 h)]

/-! ### Sugeno and Yager -/

/-- The rounded product of Sugeno's parameter with a probability is finite and stays above
both `-a` and -1. -/
theorem sugeno_product (hfin : lambda.isFinite) (hl : -1 < lambda) (ha : IsProbability a) :
    (lambda * a).isFinite ∧ -toReal a ≤ toReal (lambda * a) ∧ -1 < toReal (lambda * a) := by
  rw [lt_iff_toReal isFinite_neg_one hfin, toReal_neg_one] at hl
  have h0 := ha.toReal_nonneg
  have h1 := ha.toReal_le_one
  have hprod := rounds_mul hfin ha.isFinite
  rcases le_total (toReal lambda) 0 with hneg | hpos
  · -- both bounds are on the grid, so they survive the rounding
    obtain ⟨hpfin, hlow, -⟩ := hprod.between (rounded_toReal lambda) rounded_zero
      (abs_toReal_lt lambda) (by norm_num) (by nlinarith)
      (mul_nonpos_of_nonpos_of_nonneg hneg h0)
    have hgrid : rounded (-toReal a) = -toReal a := by rw [rounded_neg, rounded_toReal]
    obtain ⟨-, hminus, -⟩ := hprod.between hgrid rounded_zero
      (by rw [abs_neg]; exact abs_toReal_lt a) (by norm_num) (by nlinarith)
      (mul_nonpos_of_nonpos_of_nonneg hneg h0)
    exact ⟨hpfin, hminus, hl.trans_le hlow⟩
  · obtain ⟨hpfin, hlow, -⟩ := hprod.between rounded_zero (rounded_toReal lambda)
      (by norm_num) (abs_toReal_lt lambda) (mul_nonneg hpos h0) (by nlinarith)
    exact ⟨hpfin, by linarith, by linarith⟩

/-- Sugeno's denominator is positive: sums do not underflow. -/
theorem sugeno_denominator_pos (hfin : lambda.isFinite) (hl : -1 < lambda)
    (ha : IsProbability a) : 0 < 1 + lambda * a := by
  obtain ⟨hpfin, -, hlow⟩ := sugeno_product hfin hl ha
  have hden := rounds_add isFinite_one hpfin
  refine lt_iff.2 ⟨isNaN_of_isFinite isFinite_zero, hden.1, ?_⟩
  rw [hden.2, value_eq isFinite_zero, toReal_zero]
  refine single_add_pos ?_
  rw [toReal_one]
  linarith

/-- Sugeno's numerator is no larger than the denominator. -/
theorem isProbability_sugenoOf (hfin : lambda.isFinite) (hl : -1 < lambda)
    (ha : IsProbability a) : IsProbability (Negation.sugenoOf lambda a) := by
  obtain ⟨hpfin, hminus, -⟩ := sugeno_product hfin hl ha
  have hnum := rounds_sub isFinite_one ha.isFinite
  have hden := rounds_add isFinite_one hpfin
  exact isProbability_div (isProbability_one_sub ha) (hnum.le hden (by linarith))
    (sugeno_denominator_pos hfin hl ha)

/-- The inverse of a positive number does not underflow. -/
theorem zero_lt_one_div (hfin : x.isFinite) (hx : 0 < x) : 0 < 1 / x := by
  rw [lt_iff_toReal isFinite_zero hfin, toReal_zero] at hx
  have hq := rounds_div isFinite_one hfin hx.ne'
  refine lt_iff.2 ⟨isNaN_of_isFinite isFinite_zero, hq.1, ?_⟩
  rw [hq.2, value_eq isFinite_zero, toReal_zero]
  -- the number is below `2 ^ 128`, so its inverse is above `2 ^ -128`
  have hlt := abs_toReal_lt x
  rw [abs_of_pos hx] at hlt
  refine single_pos (e := -128) (by norm_num) (by norm_num) ?_
  rw [toReal_one, zpow_neg, ← one_div]
  exact one_div_le_one_div_of_le hx (by exact_mod_cast hlt.le)

/-! ### What the platform promises -/

/-- Bounds on the elementary functions: an exponential is never negative, and a power of
a probability is one. -/
structure Elementary.Bounded [Elementary] : Prop where
  exp_nonneg (x : Float32) : x.isNaN = false → 0 ≤ Elementary.exp x
  isProbability_pow (x y : Float32) :
    IsProbability x → 0 < y → IsProbability (Elementary.pow x y)

/-- Elementary functions that are exact at zero, one and the infinities, and cut off
everywhere else. -/
@[reducible] def Elementary.steep : Elementary where
  exp x := if x < 0 then 0 else if 0 < x then infinity else 1
  log x := if x ≤ 0 then -infinity else 0
  pow x _ := if x ≤ 0 then 0 else 1

theorem Elementary.bounded_steep : @Elementary.Bounded Elementary.steep := by
  refine @Elementary.Bounded.mk Elementary.steep (fun x _ => ?_) fun x _ _ _ => ?_
  · show (0 : Float32) ≤ if x < 0 then 0 else if 0 < x then infinity else 1
    split
    · decide +kernel
    · split <;> decide +kernel
  · show IsProbability (if x ≤ 0 then 0 else 1)
    split
    · exact isProbability_zero
    · exact isProbability_one

/-- One more than a number that is not negative is at least one. -/
theorem one_le_one_add (h : 0 ≤ x) : (1 : Float32) ≤ 1 + x := by
  obtain ⟨-, hn, hx⟩ := le_iff.1 h
  by_cases hfin : x.isFinite
  · rw [value_eq isFinite_zero, value_eq hfin, EReal.coe_le_coe_iff, toReal_zero] at hx
    have hsum := rounds_add isFinite_one hfin
    rw [toReal_one] at hsum
    exact rounds_one.le hsum (le_add_of_nonneg_right hx)
  · have hfin : x.isFinite = false := eq_false_of_ne_true hfin
    obtain ⟨hn', hv⟩ := value_add_infinite isFinite_one hn hfin
    refine le_iff.2 ⟨isNaN_of_isFinite isFinite_one, hn', ?_⟩
    rw [hv, value_of_not_finite hfin h]
    exact le_top

theorem zero_lt_of_one_le (h : (1 : Float32) ≤ x) : 0 < x := by
  obtain ⟨-, hn, hx⟩ := le_iff.1 h
  refine lt_iff.2 ⟨isNaN_of_isFinite isFinite_zero, hn, lt_of_lt_of_le ?_ hx⟩
  rw [value_eq isFinite_zero, value_eq isFinite_one, toReal_zero, toReal_one]
  exact EReal.coe_lt_coe_iff.2 zero_lt_one

/-! ### Admission -/

theorem admit?_of_isProbability (h : IsProbability x) : admit? x = some x := if_pos h

theorem admitAll_of_isProbability {xs : List Float32} (h : ∀ x ∈ xs, IsProbability x) :
    admitAll xs = .ok xs := by
  induction xs with
  | nil => rfl
  | cons x xs ih =>
    obtain ⟨hx, hxs⟩ := List.forall_mem_cons.1 h
    unfold admitAll
    rw [admit?_of_isProbability hx, ih hxs]

/-- NaN is not admitted: it is in no interval. -/
theorem admit?_of_isNaN (hx : x.isNaN = true) : admit? x = none := by
  have hbelow : ∀ y, ¬ y ≤ x := by
    intro y hle
    rw [(le_iff.1 hle).2.1] at hx
    cases hx
  have habove : ∀ y, ¬ y < x := by
    intro y hlt
    rw [(lt_iff.1 hlt).2.1] at hx
    cases hx
  unfold admit?
  rw [if_neg (fun h => hbelow 0 h.1), if_neg (fun h => hbelow _ h.1),
    if_neg (fun h => habove 1 h.1)]

/-- An error is about one of the numbers, which is not admitted. -/
theorem exists_of_admitAll_eq_error {xs : List Float32} {e : GraphError}
    (h : admitAll xs = .error e) : ∃ x ∈ xs, admit? x = none ∧ e = .notProbability x := by
  induction xs with
  | nil => cases h
  | cons x xs ih =>
    unfold admitAll at h
    split at h
    · next hx =>
      cases h
      exact ⟨x, List.mem_cons_self, hx, rfl⟩
    · split at h
      · cases h
      · next he =>
        cases h
        obtain ⟨y, hy, hnone, hmessage⟩ := ih he
        exact ⟨y, List.mem_cons_of_mem x hy, hnone, hmessage⟩

/-- A number that is not admitted is refused where it comes first. -/
theorem FuzzySet.ofDegrees_of_admit?_eq_none (h : admit? x = none) (xs : List Float32) :
    ofDegrees (x :: xs) = .error (.notProbability x) := by
  have hall : admitAll (x :: xs) = .error (.notProbability x) := by
    unfold admitAll
    rw [h]
  unfold ofDegrees
  split
  · next ps hps =>
    rw [hall] at hps
    cases hps
  · next e he =>
    rw [hall] at he
    cases he
    rfl

/-- Degrees are refused because of one of them. -/
theorem FuzzySet.exists_of_ofDegrees_eq_error {xs : List Float32} {e : GraphError}
    (h : ofDegrees xs = .error e) : ∃ x ∈ xs, admit? x = none ∧ e = .notProbability x := by
  unfold ofDegrees at h
  split at h
  · cases h
  · next he =>
    cases h
    exact exists_of_admitAll_eq_error he

/-- Probabilities are admitted as they are. -/
theorem FuzzySet.ofDegrees_eq {xs : List Float32} (h : ∀ x ∈ xs, IsProbability x) :
    ofDegrees xs = .ok ⟨xs, h⟩ := by
  unfold ofDegrees
  split
  · next ps hps =>
    rw [admitAll_of_isProbability h] at hps
    cases hps
    rfl
  · next e he => rw [admitAll_of_isProbability h] at he; cases he

/-- Logits are made into degrees if the sigmoid takes each of them to a probability. -/
theorem FuzzySet.ofLogits_of_sigmoid [Elementary] {logits : List Float32}
    (h : ∀ x ∈ logits, IsProbability (sigmoid x)) :
    ∃ s : FuzzySet, ofLogits logits = .ok s ∧ s.degrees = logits.map sigmoid :=
  ⟨_, ofDegrees_eq (List.forall_mem_map.2 h), rfl⟩

/-- The sigmoid leads to a probability from wherever the exponential is not negative. -/
theorem isProbability_sigmoid_of_exp [Elementary] (h : 0 ≤ Elementary.exp (-x)) :
    IsProbability (sigmoid x) := by
  have hden := one_le_one_add h
  exact isProbability_div isProbability_one hden (zero_lt_of_one_le hden)

/-- At the end of the exponential the sigmoid is at its own end. -/
theorem sigmoid_infinity [Elementary] (h : Elementary.exp (-infinity) = 0) :
    sigmoid infinity = 1 := by
  unfold sigmoid
  rw [h]
  decide +kernel

theorem sigmoid_neg_infinity [Elementary] (h : Elementary.exp infinity = infinity) :
    sigmoid (-infinity) = 0 := by
  unfold sigmoid
  rw [show - -infinity = infinity by decide +kernel, h]
  decide +kernel

section Laws

variable [Elementary] (laws : Elementary.Bounded)

include laws

/-- **The sigmoid of a number is a probability**, also of an infinite one. -/
theorem isProbability_sigmoid (hx : x.isNaN = false) : IsProbability (sigmoid x) :=
  isProbability_sigmoid_of_exp (laws.exp_nonneg (-x) (isNaN_neg hx))

/-- A probability is positive or positive zero, which it is when the exponential or the sum
overflows. -/
theorem zero_lt_sigmoid_or_eq {x : Float32} (hx : x.isNaN = false) :
    0 < sigmoid x ∨ sigmoid x = 0 := by
  have hden := one_le_one_add (laws.exp_nonneg (-x) (isNaN_neg hx))
  have hpos := zero_lt_of_one_le hden
  unfold sigmoid
  by_cases hfin : (1 + Elementary.exp (-x)).isFinite
  · exact .inl (zero_lt_one_div hfin hpos)
  · refine .inr (one_div_eq_zero (eq_false_of_ne_true hfin) ?_)
    exact le_chain (by decide +kernel) hden

/-- **Negation keeps to the unit interval**, for every parameter that suits it. -/
theorem Negation.isProbability_complement {n : Negation} (hl : n.Admits lambda)
    (ha : IsProbability a) : IsProbability (n.complement lambda a) := by
  obtain ⟨hfin, hsugeno, hyager⟩ := hl
  cases n with
  | standard => exact isProbability_one_sub ha
  | sugeno => exact isProbability_sugenoOf hfin (hsugeno rfl) ha
  | yager =>
    -- the inner power is a probability, hence its complement, hence the outer power
    have hpos := hyager rfl
    have hpow := laws.isProbability_pow a lambda ha hpos
    exact laws.isProbability_pow _ _ (isProbability_one_sub hpow) (zero_lt_one_div hfin hpos)

/-- Logits that are numbers are all made into degrees. -/
theorem FuzzySet.ofLogits_eq {logits : List Float32} (h : ∀ x ∈ logits, x.isNaN = false) :
    ∃ s : FuzzySet, ofLogits logits = .ok s ∧ s.degrees = logits.map sigmoid :=
  ofLogits_of_sigmoid fun x hx => isProbability_sigmoid laws (h x hx)

end Laws

end MultiHop
