/-
MultiHop/Proofs/Score/Logit.lean

Probabilities that are kept as logits.  A table is told probabilities, keeps their log-odds, and
what it is asked for is made into probabilities again.  The way there is a difference, a quotient
and a logarithm, the way back an exponential, a sum and a quotient; each of them is rounded, so
what comes back is in general not what was told.  But no step turns the order of two numbers
round, and the two ends pass through the infinities unharmed.

The odds are where this could fail.  A difference does not underflow, so they have a positive
denominator however close to one a probability is, and at one they are infinite
(`odds_le_odds`).  They are never negative, so they have a logarithm.

Main result: `LogitTable.calibrated_in_order`.
-/
import MultiHop.Proofs.Fuzzy.Crisp
import MultiHop.Proofs.LogitTable
import MultiHop.Proofs.Score.Sigmoid
import MultiHop.Proofs.Single.Sign

namespace MultiHop

open Single

variable {p q x : Float32}

/-! ### Odds -/

theorem IsProbability.eq_one_or_lt (hp : IsProbability p) : p = 1 ∨ p < 1 := by
  by_cases h : p < 1
  · exact .inr h
  have hle := (not_lt_iff hp.isNaN (isNaN_of_isFinite isFinite_one)).1 h
  obtain hu | rfl := isUnsigned_or_eq_neg_zero hp.1
  · exact .inl (hu.eq_of_le_of_le isUnsigned_one hp.2 hle)
  · exact absurd hle (by decide +kernel)

/-- Odds of `p`. -/
def odds (p : Float32) : Float32 := p / (1 - p)

theorem logit_eq [Elementary] (p : Float32) : logit p = Elementary.log (odds p) := rfl

theorem odds_one : odds 1 = infinity := by decide +kernel

/-- What is left of one is positive, however little it is. -/
theorem one_sub_pos (hp : IsProbability p) (h : p < 1) : 0 < toReal (1 - p) := by
  have hfin := (isProbability_one_sub hp).isFinite
  have hlt := (lt_iff_toReal hp.isFinite isFinite_one).1 h
  have hpos := single_sub_pos (sub_pos.2 hlt)
  rwa [← (rounds_sub isFinite_one hp.isFinite).2, value_eq hfin, EReal.coe_pos] at hpos

theorem rounds_odds (hp : IsProbability p) (h : p < 1) :
    Rounds (odds p) (toReal p / toReal (1 - p)) :=
  rounds_div hp.isFinite (isProbability_one_sub hp).isFinite (one_sub_pos hp h).ne'

theorem zero_le_odds (hp : IsProbability p) : 0 ≤ odds p := by
  obtain rfl | h := hp.eq_one_or_lt
  · rw [odds_one]
    decide +kernel
  · exact rounds_zero.le (rounds_odds hp h) (div_nonneg hp.toReal_nonneg (one_sub_pos hp h).le)

/-- **A larger probability has no smaller odds.** -/
theorem odds_le_odds (hp : IsProbability p) (hq : IsProbability q) (h : p ≤ q) :
    odds p ≤ odds q := by
  obtain rfl | hlt := hq.eq_one_or_lt
  · -- no odds are above those of one
    rw [odds_one]
    exact le_infinity (le_iff.1 (zero_le_odds hp)).2.1
  · -- the numerator is no smaller and the denominator no larger, and then they are rounded
    have hp1 := le_lt_chain h hlt
    have hle := (le_iff_toReal hp.isFinite hq.isFinite).1 h
    have hrest : toReal (1 - q) ≤ toReal (1 - p) := by
      rw [← le_iff_toReal (isProbability_one_sub hq).isFinite (isProbability_one_sub hp).isFinite]
      exact (rounds_sub isFinite_one hq.isFinite).le (rounds_sub isFinite_one hp.isFinite)
        (sub_le_sub_left hle _)
    exact (rounds_odds hp hp1).le (rounds_odds hq hlt)
      (div_le_div₀ hq.toReal_nonneg hle (one_sub_pos hq hlt) hrest)

theorem eq_zero_or_of_beq (hp : IsProbability p) (h : (p == 0) = true) : p = 0 ∨ p = -0 := by
  obtain rfl | ⟨rfl, -⟩ | ⟨rfl, -⟩ := eq_or_zeros_of_beq hp.1 isProbability_zero.1 h
  · exact .inl rfl
  · exact .inl rfl
  · exact .inr rfl

theorem eq_one_of_beq (hp : IsProbability p) (h : (p == 1) = true) : p = 1 := by
  obtain rfl | ⟨rfl, -⟩ | ⟨rfl, -⟩ := eq_or_zeros_of_beq hp.1 isProbability_one.1 h
  · rfl
  · exact absurd h (by decide +kernel)
  · exact absurd h (by decide +kernel)

/-! ### There and back -/

/-- What is asked of the exponential and of the logarithm: both grow weakly, the logarithm from
zero on, and at zero and at the infinities they have their limits. -/
structure Elementary.Calibrates [Elementary] : Prop where
  exp_le_exp (x y : Float32) : x ≤ y → Elementary.exp x ≤ Elementary.exp y
  exp_neg_infinity : Elementary.exp (-infinity) = 0
  exp_infinity : Elementary.exp infinity = infinity
  log_le_log (x y : Float32) : 0 ≤ x → x ≤ y → Elementary.log x ≤ Elementary.log y
  log_zero : Elementary.log 0 = -infinity
  log_neg_zero : Elementary.log (-0) = -infinity
  log_infinity : Elementary.log infinity = infinity

/-- The steep elementary functions, with a logarithm that is infinite at infinity. -/
@[reducible] def Elementary.steepBothWays : Elementary :=
  { steep with log := fun x => if x ≤ 0 then -infinity else if x < infinity then 0 else infinity }

theorem Elementary.calibrates_steepBothWays : @Calibrates steepBothWays := by
  refine @Calibrates.mk steepBothWays (@ExpGrows.exp_le_exp steep expGrows_steep)
    (@Crisp.exp_neg_infinity steep crisp_steep) (@Crisp.exp_infinity steep crisp_steep)
    (fun x y _ h => ?_) (by decide +kernel) (by decide +kernel) (by decide +kernel)
  show (if x ≤ 0 then -infinity else if x < infinity then 0 else infinity) ≤
    if y ≤ 0 then -infinity else if y < infinity then 0 else (infinity : Float32)
  by_cases hy : y ≤ 0
  · rw [if_pos (le_chain h hy), if_pos hy]
    decide +kernel
  · rw [if_neg hy]
    by_cases hx : x < infinity
    · rw [if_pos hx]
      split <;> split <;> decide +kernel
    · rw [if_neg hx, if_neg fun hlt => hx (le_lt_chain h hlt)]
      split <;> decide +kernel

/-- The probability that is read back for the probability `p`. -/
def readBack [Elementary] (p : Float32) : Float32 := sigmoid (logit p)

section Laws

variable [Elementary] (laws : Elementary.Calibrates)

include laws

/-- An exponential is at least that of the least number, which is zero. -/
theorem Elementary.Calibrates.expGrows : Elementary.ExpGrows where
  exp_nonneg x hx := by
    rw [← laws.exp_neg_infinity]
    exact laws.exp_le_exp _ _ (neg_infinity_le hx)
  exp_le_exp := laws.exp_le_exp

theorem logit_le_logit (hp : IsProbability p) (hq : IsProbability q) (h : p ≤ q) :
    logit p ≤ logit q :=
  laws.log_le_log _ _ (zero_le_odds hp) (odds_le_odds hp hq h)

theorem isProbability_readBack (hp : IsProbability p) : IsProbability (readBack p) := by
  -- only numbers compare, so a logit that is no larger than itself is one
  have hle := logit_le_logit laws hp hp (le_self hp.isNaN)
  exact laws.expGrows.isProbability_sigmoid (le_iff.1 hle).1

/-- **The order of probabilities survives the way there and back.** -/
theorem readBack_le_readBack (hp : IsProbability p) (hq : IsProbability q) (h : p ≤ q) :
    readBack p ≤ readBack q :=
  sigmoid_le_sigmoid laws.expGrows (logit_le_logit laws hp hq h)

theorem readBack_of_zero (hp : IsProbability p) (h : (p == 0) = true) : readBack p = 0 := by
  have hlogit : logit p = -infinity := by
    obtain rfl | rfl := eq_zero_or_of_beq hp h
    · rw [logit_eq, show odds 0 = 0 by decide +kernel, laws.log_zero]
    · rw [logit_eq, show odds (-0) = -0 by decide +kernel, laws.log_neg_zero]
  rw [readBack, hlogit, sigmoid_neg_infinity laws.exp_infinity]

theorem readBack_of_one (hp : IsProbability p) (h : (p == 1) = true) : readBack p = 1 := by
  rw [eq_one_of_beq hp h, readBack, logit_eq, odds_one, laws.log_infinity,
    sigmoid_infinity laws.exp_neg_infinity]

end Laws

/-! ### Rows of a table -/

/-- The degrees stand for the probabilities `ps`, one for each, with the same ends and in the same
order. -/
structure FuzzySet.StandsFor (v : FuzzySet) (ps : List Float32) : Prop where
  length : v.degrees.length = ps.length
  probable {i : Nat} {c : Float32} : v.degrees[i]? = some c → IsProbability c
  zero {i : Nat} {p : Float32} : ps[i]? = some p → (p == 0) = true → v.degrees[i]? = some 0
  one {i : Nat} {p : Float32} : ps[i]? = some p → (p == 1) = true → v.degrees[i]? = some 1
  le {i j : Nat} {p q c d : Float32} : ps[i]? = some p → ps[j]? = some q → p ≤ q →
    v.degrees[i]? = some c → v.degrees[j]? = some d → c ≤ d

theorem FuzzySet.standsFor_of_readBack [Elementary] (laws : Elementary.Calibrates)
    {v : FuzzySet} {ps : List Float32} (hps : ∀ p ∈ ps, IsProbability p)
    (hv : v.degrees = ps.map readBack) : v.StandsFor ps where
  length := by rw [hv, List.length_map]
  probable hc := v.probable _ (List.mem_of_getElem? hc)
  zero hp h := by
    rw [hv, List.getElem?_map, hp, Option.map_some,
      readBack_of_zero laws (hps _ (List.mem_of_getElem? hp)) h]
  one hp h := by
    rw [hv, List.getElem?_map, hp, Option.map_some,
      readBack_of_one laws (hps _ (List.mem_of_getElem? hp)) h]
  le hp hq h hc hd := by
    rw [hv, List.getElem?_map, hp] at hc
    rw [hv, List.getElem?_map, hq] at hd
    cases hc
    cases hd
    exact readBack_le_readBack laws (hps _ (List.mem_of_getElem? hp))
      (hps _ (List.mem_of_getElem? hq)) h

namespace LogitTable

variable {t t' : LogitTable} {h : EntityId} {r : RelationId} {ps : List Float32}

theorem tails_put (hh : h.index < t.entityCount) (hr : r.index < t.relationCount)
    (hlen : ps.length = t.entityCount) : (t.put h r ps hlen).model.tails h r = .ok ps := by
  have htails := (stores_model (t.put h r ps hlen)).tails h r hh hr
  rwa [← toList_row, toList_row_put, if_pos rfl] at htails

/-- A table that was told probabilities answers with their logits. -/
theorem tails_of_insertProbabilities [Elementary]
    (hset : t.insertProbabilities h r ps = (.ok (), t')) :
    (∀ p ∈ ps, IsProbability p) ∧ t'.model.tails h r = .ok (ps.map logit) := by
  obtain ⟨hfits, rfl⟩ := (attempt_eq_ok_iff (w := ⟨.probability, h, r, ps⟩)).1 hset
  exact ⟨hfits.probabilities rfl, tails_put hfits.head hfits.relation _⟩

/-- **Probabilities that a table is told come back in order.**  Whatever row of probabilities is
accepted, asking for the row and making degrees of it succeeds, and there is one degree for each
probability: zero, of either sign, comes back as zero and one as one, each degree is within the
unit interval, and a probability that is no smaller than another comes back as a degree that is
no smaller. -/
theorem calibrated_in_order [Elementary] (laws : Elementary.Calibrates)
    (hset : t.insertProbabilities h r ps = (.ok (), t')) :
    ∃ row v, t'.model.tails h r = .ok row ∧ FuzzySet.ofLogits row = .ok v ∧ v.StandsFor ps := by
  obtain ⟨hps, htails⟩ := tails_of_insertProbabilities hset
  have hsigmoid : ∀ x ∈ ps.map logit, IsProbability (sigmoid x) :=
    List.forall_mem_map.2 fun p hp => isProbability_readBack laws (hps p hp)
  obtain ⟨v, hv, hdegrees⟩ := FuzzySet.ofLogits_of_sigmoid hsigmoid
  refine ⟨_, v, htails, hv, FuzzySet.standsFor_of_readBack laws hps ?_⟩
  rw [hdegrees, List.map_map]
  rfl

/-- A row that begins and ends at the ends of the unit interval. -/
theorem calibrated_in_order_ends :
    ∃ t', @insertProbabilities .steepBothWays (.empty 4 1 (-10)) ⟨0⟩ ⟨0⟩ [0, -0, 0.5, 1] =
        (.ok (), t') ∧
      ∃ row v, t'.model.tails ⟨0⟩ ⟨0⟩ = .ok row ∧
        @FuzzySet.ofLogits .steepBothWays row = .ok v ∧ v.StandsFor [0, -0, 0.5, 1] := by
  have hfits : Write.Fits ⟨.probability, ⟨0⟩, ⟨0⟩, [0, -0, 0.5, 1]⟩ 4 1 := by decide +kernel
  have hset := (@attempt_eq_ok_iff (.empty 4 1 (-10)) .steepBothWays _ _).2 ⟨hfits, rfl⟩
  exact ⟨_, hset, @calibrated_in_order (.empty 4 1 (-10)) _ _ _ _ .steepBothWays
    Elementary.calibrates_steepBothWays hset⟩

end LogitTable

end MultiHop
