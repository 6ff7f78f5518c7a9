/-
MultiHop/Proofs/Fuzzy/Disjunction.lean

What a disjunction retains of its operands.  The larger of two degrees retains both.  The
probabilistic sum is computed from complements, and a complement is a number of the grid
between one half and one, whose step is `2 ^ -24`.  So a degree below one half comes back from
it as a multiple of that step:

    t.retained a

A degree from one half on comes back as it is, because there the complement is exact
(`toReal_one_sub_of_half_le`), every other one within half a step
(`abs_toReal_one_sub_one_sub`).  What has come back once comes back unchanged, since to take
the complement three times is to take it once (`one_sub_one_sub_one_sub`).

Main results: a disjunction of several degrees is at least what it retains of each of them
(`TNorm.retained_le_combined`), and one more operand that is zero leaves what is retained of
the others (`TNorm.combined_join_zero`).
-/
import MultiHop.Proofs.Fuzzy.Combination

namespace MultiHop

namespace Single

/-! ### Errors of rounding -/

/-- Rounding moves a number by half a step of its grid at most. -/
theorem abs_sub_rounded_le (x : ℝ) : |x - rounded x| ≤ 2 ^ gridExponent x / 2 := by
  have hstep : (0 : ℝ) < 2 ^ gridExponent x := by positivity
  have hnear := (isNearest_nearestEven (x / 2 ^ gridExponent x)).1
  calc |x - rounded x|
      = |(x / 2 ^ gridExponent x - nearestEven (x / 2 ^ gridExponent x)) *
          2 ^ gridExponent x| := by
        rw [sub_mul, div_mul_cancel₀ _ hstep.ne']
        rfl
    _ = |x / 2 ^ gridExponent x - nearestEven (x / 2 ^ gridExponent x)| *
          2 ^ gridExponent x := by rw [abs_mul, abs_of_pos hstep]
    _ ≤ 1 / 2 * 2 ^ gridExponent x := mul_le_mul_of_nonneg_right hnear hstep.le
    _ = 2 ^ gridExponent x / 2 := by ring

/-- A finite result is the rounded one. -/
theorem Rounds.toReal_eq {a : Float32} {x : ℝ} (h : Rounds a x) (ha : a.isFinite) :
    toReal a = rounded x := by
  have hvalue : (toReal a : EReal) = clip (rounded x) := (value_eq ha).symm.trans h.2
  unfold clip at hvalue
  split at hvalue
  · exact absurd hvalue (EReal.coe_ne_top _)
  · split at hvalue
    · exact absurd hvalue (EReal.coe_ne_bot _)
    · exact EReal.coe_eq_coe_iff.1 hvalue

/-- From one half on, numbers of the grid are multiples of `2 ^ -24`. -/
theorem exists_mul_of_half_le {x : ℝ} (hx : rounded x = x) (h : 1 / 2 ≤ x) :
    ∃ k : ℤ, x = k * 2 ^ (-24 : ℤ) := by
  have hpos : 0 < x := by linarith
  have hlog : -1 ≤ Int.log 2 |x| := by
    rw [← Int.zpow_le_iff_le_log (by norm_num) (abs_pos.2 hpos.ne'), abs_of_pos hpos]
    norm_num
    linarith
  have hgrid : -24 ≤ gridExponent x := le_max_of_le_left (by omega)
  obtain ⟨n, hn⟩ : ∃ n : ℕ, gridExponent x = n + -24 :=
    ⟨(gridExponent x + 24).toNat, by omega⟩
  refine ⟨nearestEven (x / 2 ^ gridExponent x) * 2 ^ n, ?_⟩
  calc x = nearestEven (x / 2 ^ gridExponent x) * 2 ^ gridExponent x := hx.symm
    _ = nearestEven (x / 2 ^ gridExponent x) * (2 ^ n * 2 ^ (-24 : ℤ)) := by
        rw [← zpow_natCast, ← zpow_add₀ (by norm_num), ← hn]
    _ = _ := by push_cast; ring

/-- What is left of one is not rounded, if it is one half at most. -/
theorem rounded_one_sub {x : ℝ} (hx : rounded x = x) (h : 1 / 2 ≤ x) (h1 : x ≤ 1) :
    rounded (1 - x) = 1 - x := by
  obtain ⟨k, rfl⟩ := exists_mul_of_half_le hx h
  have hsplit : (1 : ℝ) - k * 2 ^ (-24 : ℤ) = ((2 ^ 24 - k : ℤ) : ℝ) * 2 ^ (-24 : ℤ) := by
    push_cast
    rw [sub_mul]
    norm_num
  have hlow : (2 ^ 23 : ℤ) ≤ k := by
    norm_num at h
    have : (2 ^ 23 : ℝ) ≤ k := by linarith
    exact_mod_cast this
  have hhigh : k ≤ 2 ^ 24 := by
    norm_num at h1
    have : (k : ℝ) ≤ 2 ^ 24 := by linarith
    exact_mod_cast this
  rw [hsplit]
  exact rounded_of_grid (abs_lt.2 ⟨by omega, by omega⟩) (by norm_num)

end Single

open Single

variable {a b p : Float32}

/-! ### Complements -/

theorem toReal_one_sub (hp : IsProbability p) : toReal (1 - p) = rounded (1 - toReal p) := by
  have hround := rounds_sub isFinite_one hp.isFinite
  rw [toReal_one] at hround
  exact hround.toReal_eq (isProbability_one_sub hp).isFinite

/-- **From one half on a complement is exact.** -/
theorem toReal_one_sub_of_half_le (hp : IsProbability p) (h : 1 / 2 ≤ toReal p) :
    toReal (1 - p) = 1 - toReal p := by
  rw [toReal_one_sub hp]
  exact rounded_one_sub (rounded_toReal p) h hp.toReal_le_one

/-- A degree or its complement is one half at least. -/
theorem half_le_or (hp : IsProbability p) : 1 / 2 ≤ toReal p ∨ 1 / 2 ≤ toReal (1 - p) := by
  rcases le_total (1 / 2) (toReal p) with h | h
  · exact .inl h
  · right
    rw [toReal_one_sub hp]
    have hhalf : rounded (1 / 2) = 1 / 2 := by
      have hpow := rounded_zpow (e := -1) (by norm_num)
      norm_num at hpow ⊢
      exact hpow
    rw [← hhalf]
    exact rounded_mono (by linarith)

/-- The complement of an exact complement is where it came from. -/
theorem one_sub_one_sub_of_half_le (hp : IsProbability p) (h : 1 / 2 ≤ toReal p) :
    1 - (1 - p) = p := by
  have hc := isProbability_one_sub hp
  have hround := rounds_sub isFinite_one hc.isFinite
  rw [toReal_one, toReal_one_sub_of_half_le hp h, sub_sub_cancel] at hround
  have hpos : 0 < p := by
    rw [lt_iff_toReal isFinite_zero hp.isFinite, toReal_zero]
    linarith
  exact (isUnsigned_one_sub hc).eq_of_rounds (.inl hpos) hround (rounds_self hp.isFinite)

/-- **To take the complement three times is to take it once.** -/
theorem one_sub_one_sub_one_sub (hp : IsProbability p) : 1 - (1 - (1 - p)) = 1 - p := by
  rcases half_le_or hp with h | h
  · rw [one_sub_one_sub_of_half_le hp h]
  · exact one_sub_one_sub_of_half_le (isProbability_one_sub hp) h

/-- A degree comes back from its complement within half a step. -/
theorem abs_toReal_one_sub_one_sub (hp : IsProbability p) :
    |toReal (1 - (1 - p)) - toReal p| ≤ 2 ^ (-25 : ℤ) := by
  have hstep : (0 : ℝ) ≤ 2 ^ (-25 : ℤ) := by positivity
  rcases half_le_or hp with h | h
  · rw [one_sub_one_sub_of_half_le hp h, sub_self, abs_zero]
    exact hstep
  · rw [toReal_one_sub_of_half_le (isProbability_one_sub hp) h, toReal_one_sub hp,
      show ∀ x y : ℝ, 1 - x - y = 1 - y - x from fun x y => by ring]
    rcases hp.toReal_nonneg.eq_or_lt with hzero | hpos
    · have hone : rounded 1 = 1 := by
        have hpow := rounded_toReal 1
        rwa [toReal_one] at hpow
      rw [← hzero, sub_zero, hone, sub_self, abs_zero]
      exact hstep
    rcases hp.toReal_le_one.eq_or_lt with hone | hlt
    · rw [hone, sub_self, rounded_zero, sub_zero, abs_zero]
      exact hstep
    · have hgrid : gridExponent (1 - toReal p) ≤ -24 := by
        apply gridExponent_le (by norm_num) (by linarith)
        rw [abs_of_pos (by linarith)]
        norm_num
        linarith
      calc |1 - toReal p - rounded (1 - toReal p)|
          ≤ 2 ^ gridExponent (1 - toReal p) / 2 := abs_sub_rounded_le _
        _ ≤ 2 ^ (-24 : ℤ) / 2 := by
            apply div_le_div_of_nonneg_right _ zero_le_two
            exact zpow_le_zpow_right₀ one_le_two hgrid
        _ = 2 ^ (-25 : ℤ) := by norm_num

/-! ### Two operands -/

namespace TNorm

/-- What a disjunction retains of a degree. -/
def retained : TNorm → Float32 → Float32
  | minimum, a => a
  | product, a => 1 - (1 - a)

variable (t : TNorm)

theorem retained_eq (ha : IsProbability a) (h : t = minimum ∨ 1 / 2 ≤ toReal a) :
    t.retained a = a := by
  cases t with
  | minimum => rfl
  | product => exact one_sub_one_sub_of_half_le ha (h.resolve_left nofun)

theorem isProbability_retained (ha : IsProbability a) : IsProbability (t.retained a) := by
  cases t with
  | minimum => exact ha
  | product => exact isProbability_one_sub (isProbability_one_sub ha)

theorem abs_toReal_retained (ha : IsProbability a) :
    |toReal (t.retained a) - toReal a| ≤ 2 ^ (-25 : ℤ) := by
  cases t with
  | minimum =>
    show |toReal a - toReal a| ≤ _
    rw [sub_self, abs_zero]
    positivity
  | product => exact abs_toReal_one_sub_one_sub ha

/-- Zero adds nothing to what is retained of the other operand. -/
theorem zero_join (ha : IsDegree a) : t.join 0 a = t.retained a := by
  cases t with
  | minimum =>
    show larger 0 a = a
    rw [larger_eq isDegree_zero.isNaN, if_pos ha.probable.1]
  | product =>
    show 1 - (1 - 0) * (1 - a) = 1 - (1 - a)
    have hone : (1 : Float32) - 0 = 1 := by decide +kernel
    have hmul := product.one_meet (isProbability_one_sub ha.probable)
      (isUnsigned_one_sub ha.probable)
    rw [hone]
    exact congrArg (1 - ·) hmul

theorem join_zero (ha : IsDegree a) : t.join a 0 = t.retained a := by
  rw [t.join_comm ha isDegree_zero, t.zero_join ha]

/-- A disjunction takes no more of its first operand than what it retains of it. -/
theorem retained_join_left (ha : IsDegree a) : t.join (t.retained a) b = t.join a b := by
  cases t with
  | minimum => rfl
  | product =>
    show 1 - (1 - (1 - (1 - a))) * (1 - b) = 1 - (1 - a) * (1 - b)
    rw [one_sub_one_sub_one_sub ha.probable]

/-- A disjunction is retained as it is. -/
theorem retained_join (ha : IsDegree a) (hb : IsDegree b) :
    t.retained (t.join a b) = t.join a b := by
  cases t with
  | minimum => rfl
  | product =>
    exact one_sub_one_sub_one_sub
      (isProbability_mul (isProbability_one_sub ha.probable) (isProbability_one_sub hb.probable))

/-- A disjunction is at least what is retained of its first operand. -/
theorem retained_le_join_left (ha : IsDegree a) (hb : IsDegree b) :
    t.retained a ≤ t.join a b := by
  cases t with
  | minimum => exact le_larger_left ha.isNaN
  | product =>
    have pa := isProbability_one_sub ha.probable
    have pb := isProbability_one_sub hb.probable
    exact one_sub_le_one_sub (isProbability_mul pa pb) pa (product.meet_le_left pa pb)

theorem retained_le_join_right (ha : IsDegree a) (hb : IsDegree b) :
    t.retained b ≤ t.join a b := by
  rw [t.join_comm ha hb]
  exact t.retained_le_join_left hb ha

/-! ### Several operands -/

section

variable {q : Float32} {ps before after : List Float32}

/-- What is retained as it is stays below all disjunctions that it starts. -/
theorem le_foldl_join_start (hp : IsDegree p) (hr : t.retained p = p)
    (h : ∀ q ∈ ps, IsDegree q) : p ≤ ps.foldl t.join p := by
  induction ps generalizing p with
  | nil => exact hp.le_self
  | cons q ps ih =>
    obtain ⟨hq, hps⟩ := List.forall_mem_cons.1 h
    have hle := t.retained_le_join_left hp hq
    rw [hr] at hle
    exact le_chain hle (ih (isDegree_join t hp hq) (t.retained_join hp hq) hps)

theorem le_foldl_join_of_le (hp : IsDegree p) (hq : IsDegree q) (h : ∀ q ∈ ps, IsDegree q)
    (ha : a ≤ t.join p q) : a ≤ (q :: ps).foldl t.join p := by
  rw [List.foldl_cons]
  exact le_chain ha (t.le_foldl_join_start (isDegree_join t hp hq) (t.retained_join hp hq) h)

/-- A disjunction is at least what it retains of an operand that is not the first. -/
theorem retained_le_foldl_join (hp : IsDegree p) (h : ∀ q ∈ ps, IsDegree q) (ha : a ∈ ps) :
    t.retained a ≤ ps.foldl t.join p := by
  induction ps generalizing p with
  | nil => exact absurd ha List.not_mem_nil
  | cons q ps ih =>
    obtain ⟨hq, hps⟩ := List.forall_mem_cons.1 h
    rcases List.mem_cons.1 ha with rfl | ha
    · exact t.le_foldl_join_of_le hp hq hps (t.retained_le_join_right hp hq)
    · exact ih (isDegree_join t hp hq) hps ha

/-- **A disjunction is at least what it retains of each operand**; a single operand is handed
on as it is. -/
theorem retained_le_combined (h : ∀ p ∈ ps, IsDegree p) (ha : a ∈ ps) :
    combined t.join ps = a ∨ t.retained a ≤ combined t.join ps := by
  cases ps with
  | nil => exact absurd ha List.not_mem_nil
  | cons p ps =>
    obtain ⟨hp, hps⟩ := List.forall_mem_cons.1 h
    rcases List.mem_cons.1 ha with rfl | ha
    · cases ps with
      | nil => exact .inl rfl
      | cons q ps =>
        obtain ⟨hq, hps⟩ := List.forall_mem_cons.1 hps
        exact .inr (t.le_foldl_join_of_le hp hq hps (t.retained_le_join_left hp hq))
    · exact .inr (t.retained_le_foldl_join hp hps ha)

/-- Retaining the first operand or retaining the whole comes to the same. -/
theorem foldl_join_retained (hp : IsDegree p) (h : ∀ q ∈ ps, IsDegree q) :
    ps.foldl t.join (t.retained p) = t.retained (ps.foldl t.join p) := by
  induction ps generalizing p with
  | nil => rfl
  | cons q ps ih =>
    obtain ⟨hq, hps⟩ := List.forall_mem_cons.1 h
    rw [List.foldl_cons, List.foldl_cons, t.retained_join_left hp,
      ← ih (isDegree_join t hp hq) hps, t.retained_join hp hq]

/-- A disjunction of two operands or more is retained as it is. -/
theorem retained_combined (h : ∀ p ∈ ps, IsDegree p) (htwo : 2 ≤ ps.length) :
    t.retained (combined t.join ps) = combined t.join ps := by
  match ps, htwo with
  | p :: q :: ps, _ =>
    obtain ⟨hp, hrest⟩ := List.forall_mem_cons.1 h
    obtain ⟨hq, hps⟩ := List.forall_mem_cons.1 hrest
    show t.retained (ps.foldl t.join (t.join p q)) = ps.foldl t.join (t.join p q)
    rw [← t.foldl_join_retained (isDegree_join t hp hq) hps, t.retained_join hp hq]

/-- **An operand that is zero** leaves what a disjunction retains of the others. -/
theorem combined_join_zero (hne : before ++ after ≠ []) (hbefore : ∀ p ∈ before, IsDegree p)
    (hafter : ∀ p ∈ after, IsDegree p) :
    combined t.join (before ++ 0 :: after) = t.retained (combined t.join (before ++ after)) := by
  cases before with
  | nil =>
    cases after with
    | nil => exact absurd rfl hne
    | cons p after =>
      obtain ⟨hp, hafter⟩ := List.forall_mem_cons.1 hafter
      show after.foldl t.join (t.join 0 p) = t.retained (after.foldl t.join p)
      rw [t.zero_join hp, t.foldl_join_retained hp hafter]
  | cons p before =>
    obtain ⟨hp, hbefore⟩ := List.forall_mem_cons.1 hbefore
    have hsofar : IsDegree (before.foldl t.join p) := isDegree_foldl t .union hp hbefore
    show (before ++ 0 :: after).foldl t.join p = t.retained ((before ++ after).foldl t.join p)
    rw [List.foldl_append, List.foldl_append, List.foldl_cons, t.join_zero hsofar,
      t.foldl_join_retained hsofar hafter]

end

end TNorm

end MultiHop
