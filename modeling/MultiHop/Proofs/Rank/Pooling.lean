/-
MultiHop/Proofs/Rank/Pooling.lean

Figures of several runs taken together, in exact arithmetic.  Every figure of a run is the
average of a number that each rank stands for: its reciprocal, itself, or whether it is a hit
(`ofRanks_eq`).  An average times the length of its run is a sum, sums of runs add up, and so
pooling the figures of runs gives the figures of their ranks (`pool_map_ofRanks`).  A run
without ranks has the weight zero and the average zero, so it is no exception.

Figures that were pooled can be pooled again.  Whatever was pooled with what, and in what
order, is a tree of runs (`Pooling`), and its figures are those of the ranks at its leaves
(`Pooling.figures_eq`).

Averages are monotone and linear, which gives the bounds of the figures from bounds of single
ranks.  The mean reciprocal is at least the reciprocal of the mean because a reciprocal lies
above its tangent at the mean (`one_le_average_mul_average`).

Main result: `RankSummary.pool_runs`.
-/
import Mathlib.Algebra.BigOperators.Ring.List
import Mathlib.Algebra.Order.BigOperators.Group.List
import Mathlib.Algebra.Order.Field.Rat
import Mathlib.Tactic.FieldSimp
import Mathlib.Tactic.Linarith
import Mathlib.Tactic.Positivity
import Mathlib.Tactic.Ring
import MultiHop.Rank.Summary

namespace MultiHop

/-! ### Averages in exact arithmetic -/

namespace Averaging

instance : Averaging ℚ := ⟨fun n => (n : ℚ)⟩

@[simp] theorem ofCount_rat (n : Nat) : (ofCount n : ℚ) = n := rfl

theorem foldl_add_rat (xs : List ℚ) (a : ℚ) : xs.foldl (· + ·) a = a + xs.sum := by
  induction xs generalizing a with
  | nil => simp
  | cons x xs ih => rw [List.foldl_cons, ih, List.sum_cons, add_assoc]

@[simp] theorem sum_rat (xs : List ℚ) : Averaging.sum xs = xs.sum := by
  cases xs with
  | nil => rfl
  | cons x xs => exact (foldl_add_rat xs x).trans List.sum_cons.symm

end Averaging

namespace RankSummary

open Averaging (ofCount)

/-- Average of what `f` makes of the ranks of a run; that of no ranks is zero. -/
def average (f : Nat → ℚ) (ranks : List Nat) : ℚ := (ranks.map f).sum / ranks.length

/-- One for a rank up to `k`, and zero for all others. -/
def hit (k r : Nat) : ℚ := if r ≤ k then 1 else 0

section

variable {f g : Nat → ℚ} {ranks : List Nat}

theorem average_nil (f : Nat → ℚ) : average f [] = 0 := by simp [average]

/-- An average weighs as much as its run. -/
theorem average_mul_length (f : Nat → ℚ) (ranks : List Nat) :
    average f ranks * ranks.length = (ranks.map f).sum := by
  rcases ranks with - | ⟨r, ranks⟩
  · simp
  · exact div_mul_cancel₀ _ (by simp; positivity)

theorem average_perm {others : List Nat} (f : Nat → ℚ) (h : ranks.Perm others) :
    average f ranks = average f others := by
  unfold average
  rw [(h.map f).sum_eq, h.length_eq]

theorem average_mono (h : ∀ r ∈ ranks, f r ≤ g r) : average f ranks ≤ average g ranks :=
  div_le_div_of_nonneg_right (List.sum_le_sum h) (Nat.cast_nonneg _)

theorem average_add_mul (hne : ranks ≠ []) (a b : ℚ) (f : Nat → ℚ) :
    average (fun r => a + b * f r) ranks = a + b * average f ranks := by
  have hlength : (ranks.length : ℚ) ≠ 0 := by simpa using hne
  have hsum : (ranks.map fun r => a + b * f r).sum = ranks.length * a + b * (ranks.map f).sum := by
    rw [List.sum_map_add, List.sum_map_mul_left]
    simp
  unfold average
  rw [hsum]
  field_simp

theorem average_const (hne : ranks ≠ []) (c : ℚ) : average (fun _ => c) ranks = c := by
  simpa using average_add_mul hne c 0 0

theorem sum_map_hit (k : Nat) (ranks : List Nat) :
    (ranks.map (hit k)).sum = ranks.countP (· ≤ k) := by
  induction ranks with
  | nil => rfl
  | cons r ranks ih =>
    rw [List.map_cons, List.sum_cons, ih, List.countP_cons, hit]
    by_cases hr : r ≤ k <;> simp [hr, add_comm]

end

/-! ### Figures as averages -/

/-- **Every figure is an average over the ranks**, also where there are none. -/
theorem ofRanks_eq (ranks : List Nat) : (ofRanks ranks : RankSummary ℚ) =
    { meanReciprocal := average (fun r => 1 / r) ranks
      mean := average (fun r => r) ranks
      hitsAt1 := average (hit 1) ranks
      hitsAt3 := average (hit 3) ranks
      hitsAt10 := average (hit 10) ranks
      count := ranks.length } := by
  rcases ranks with - | ⟨r, ranks⟩
  · simp only [average_nil]
    rfl
  · unfold ofRanks average
    rw [if_neg (by simp)]
    simp only [sum_map_hit, Averaging.sum_rat]
    rfl

theorem foldl_count (runs : List (RankSummary ℚ)) (n : Nat) :
    runs.foldl (fun n m => n + m.count) n = n + (runs.map (·.count)).sum := by
  induction runs generalizing n with
  | nil => rfl
  | cons m runs ih => rw [List.foldl_cons, ih, List.map_cons, List.sum_cons, Nat.add_assoc]

/-- The average of a figure, each run weighing as much as it counts. -/
def weighted (runs : List (RankSummary ℚ)) (figure : RankSummary ℚ → ℚ) : ℚ :=
  (runs.map fun m => figure m * m.count).sum / (runs.map (·.count)).sum

theorem pool_eq (runs : List (RankSummary ℚ)) : pool runs =
    { meanReciprocal := weighted runs (·.meanReciprocal)
      mean := weighted runs (·.mean)
      hitsAt1 := weighted runs (·.hitsAt1)
      hitsAt3 := weighted runs (·.hitsAt3)
      hitsAt10 := weighted runs (·.hitsAt10)
      count := (runs.map (·.count)).sum } := by
  unfold pool weighted
  simp only [foldl_count, Nat.zero_add]
  split
  · next htotal =>
    rw [htotal]
    simp only [Nat.cast_zero, div_zero]
    rfl
  · simp only [Averaging.sum_rat]
    rfl

/-- Averages of runs weighted by their lengths are the average of all their ranks. -/
theorem weighted_map_ofRanks {figure : RankSummary ℚ → ℚ} {f : Nat → ℚ}
    (h : ∀ ranks, figure (ofRanks ranks) = average f ranks) (runs : List (List Nat)) :
    weighted (runs.map ofRanks) figure = average f runs.flatten := by
  have hcount : ∀ ranks : List Nat, (ofRanks ranks : RankSummary ℚ).count = ranks.length :=
    fun ranks => by rw [ofRanks_eq]
  unfold weighted average
  simp only [List.map_map, Function.comp_def, h, hcount, average_mul_length]
  rw [List.length_flatten, List.map_flatten, List.sum_flatten, List.map_map]
  rfl

/-- **Pooling runs is pooling their ranks.** -/
theorem pool_map_ofRanks (runs : List (List Nat)) :
    pool (runs.map ofRanks) = (ofRanks runs.flatten : RankSummary ℚ) := by
  rw [pool_eq, ofRanks_eq]
  congr 1
  · exact weighted_map_ofRanks (fun ranks => by rw [ofRanks_eq]) runs
  · exact weighted_map_ofRanks (fun ranks => by rw [ofRanks_eq]) runs
  · exact weighted_map_ofRanks (fun ranks => by rw [ofRanks_eq]) runs
  · exact weighted_map_ofRanks (fun ranks => by rw [ofRanks_eq]) runs
  · exact weighted_map_ofRanks (fun ranks => by rw [ofRanks_eq]) runs
  · simp [ofRanks_eq, Function.comp_def]

theorem ofRanks_perm {ranks others : List Nat} (h : ranks.Perm others) :
    (ofRanks ranks : RankSummary ℚ) = ofRanks others := by
  simp only [ofRanks_eq, average_perm _ h, h.length_eq]

end RankSummary

/-! ### Runs pooled again and again -/

/-- What is pooled with what: runs by their ranks, and groups whose figures are pooled. -/
inductive Pooling where
  | run (ranks : List Nat)
  | group (parts : List Pooling)

namespace Pooling

mutual

/-- The figures that are reached step by step, from the runs to the outermost group. -/
def figures : Pooling → RankSummary ℚ
  | .run ranks => .ofRanks ranks
  | .group parts => .pool (figuresAll parts)

/-- The figures of the parts of a group. -/
def figuresAll : List Pooling → List (RankSummary ℚ)
  | [] => []
  | p :: ps => figures p :: figuresAll ps

end

mutual

/-- The runs of a pooling, from left to right. -/
def runs : Pooling → List (List Nat)
  | .run ranks => [ranks]
  | .group parts => runsAll parts

/-- The runs of the parts of a group. -/
def runsAll : List Pooling → List (List Nat)
  | [] => []
  | p :: ps => runs p ++ runsAll ps

end

mutual

/-- **However runs are grouped, the figures are those of all their ranks.** -/
theorem figures_eq : ∀ p : Pooling, p.figures = .ofRanks p.runs.flatten
  | .run ranks => by simp [figures, runs]
  | .group parts => by
    obtain ⟨rows, hrows, hflatten⟩ := figuresAll_eq parts
    rw [figures, runs, hrows, RankSummary.pool_map_ofRanks, hflatten]

/-- The parts of a group are runs themselves, of all ranks below them. -/
theorem figuresAll_eq : ∀ ps : List Pooling, ∃ rows : List (List Nat),
    figuresAll ps = rows.map .ofRanks ∧ rows.flatten = (runsAll ps).flatten
  | [] => ⟨[], rfl, rfl⟩
  | p :: ps => by
    obtain ⟨rows, hrows, hflatten⟩ := figuresAll_eq ps
    refine ⟨p.runs.flatten :: rows, ?_, ?_⟩
    · rw [figuresAll, figures_eq p, hrows, List.map_cons]
    · rw [runsAll, List.flatten_cons, List.flatten_append, hflatten]

end

end Pooling

namespace RankSummary

/-! ### Bounds of the figures -/

section

variable {ranks : List Nat}

theorem average_nonneg {f : Nat → ℚ} (h : ∀ r ∈ ranks, 0 ≤ f r) : 0 ≤ average f ranks :=
  div_nonneg (List.sum_nonneg (by simpa using h)) (Nat.cast_nonneg _)

theorem le_average {f : Nat → ℚ} {c : ℚ} (hne : ranks ≠ []) (h : ∀ r ∈ ranks, c ≤ f r) :
    c ≤ average f ranks :=
  (average_const hne c).symm.trans_le (average_mono h)

theorem average_le {f : Nat → ℚ} {c : ℚ} (hne : ranks ≠ []) (h : ∀ r ∈ ranks, f r ≤ c) :
    average f ranks ≤ c :=
  (average_mono h).trans_eq (average_const hne c)

/-- A reciprocal is not below its tangent at `m`. -/
theorem tangent_le_one_div {m r : ℚ} (hm : 0 < m) (hr : 0 < r) :
    2 / m + -(1 / m ^ 2) * r ≤ 1 / r := by
  have hsquare : 1 / r - (2 / m + -(1 / m ^ 2) * r) = (m - r) ^ 2 / (r * m ^ 2) := by
    field_simp
    ring
  have hnonneg : 0 ≤ (m - r) ^ 2 / (r * m ^ 2) := by positivity
  linarith

/-- The mean of the reciprocals is at least the reciprocal of the mean. -/
theorem one_le_average_mul_average (hne : ranks ≠ []) (hpos : ∀ r ∈ ranks, 0 < r) :
    1 ≤ average (fun r => 1 / r) ranks * average (fun r => r) ranks := by
  set m := average (fun r => r) ranks with hm
  have hm0 : 0 < m := by
    refine zero_lt_one.trans_le (le_average hne fun r hr => ?_)
    exact_mod_cast hpos r hr
  have htangent : average (fun r => 2 / m + -(1 / m ^ 2) * r) ranks ≤
      average (fun r => 1 / r) ranks :=
    average_mono fun r hr => tangent_le_one_div hm0 (by exact_mod_cast hpos r hr)
  rw [average_add_mul hne, ← hm] at htangent
  calc 1 = (2 / m + -(1 / m ^ 2) * m) * m := by field_simp; ring
    _ ≤ average (fun r => 1 / r) ranks * m := mul_le_mul_of_nonneg_right htangent hm0.le

theorem hit_le_hit {k l : Nat} (h : k ≤ l) (r : Nat) : hit k r ≤ hit l r := by
  unfold hit
  split_ifs with hk hl
  · exact le_rfl
  · omega
  · exact zero_le_one
  · exact le_rfl

theorem hit_nonneg (k r : Nat) : 0 ≤ hit k r := by
  unfold hit
  split_ifs <;> simp

theorem hit_le_one (k r : Nat) : hit k r ≤ 1 := by
  unfold hit
  split_ifs <;> simp

theorem hit_one_le_one_div {r : Nat} (hr : 0 < r) : hit 1 r ≤ 1 / r := by
  unfold hit
  split_ifs with h
  · obtain rfl : r = 1 := by omega
    simp
  · positivity

end

/-! ### Runs and their ranks -/

/-- **Pooling runs is pooling their ranks.**  Runs of any lengths, empty ones among them, have
together the figures of all their ranks; so figures may be pooled in any grouping and any order
as long as the ranks stay the same.  The figures of a run with positive ranks are bounded by one
another: the mean reciprocal lies between the share of first ranks and one, the mean rank is at
least one, their product is at least one, and shares of hits only grow with the limit. -/
theorem pool_runs :
    (∀ runs : List (List Nat),
      pool (runs.map ofRanks) = (ofRanks runs.flatten : RankSummary ℚ)) ∧
    (∀ p q : Pooling, p.runs.flatten.Perm q.runs.flatten →
      p.figures = ofRanks p.runs.flatten ∧ q.figures = p.figures) ∧
    ∀ ranks : List Nat, ranks ≠ [] → (∀ r ∈ ranks, 0 < r) →
      let m : RankSummary ℚ := ofRanks ranks
      (0 < m.meanReciprocal ∧ m.meanReciprocal ≤ 1 ∧ 1 ≤ m.mean ∧
        1 ≤ m.meanReciprocal * m.mean) ∧
      m.hitsAt1 ≤ m.meanReciprocal ∧
      0 ≤ m.hitsAt1 ∧ m.hitsAt1 ≤ m.hitsAt3 ∧ m.hitsAt3 ≤ m.hitsAt10 ∧ m.hitsAt10 ≤ 1 := by
  refine ⟨pool_map_ofRanks, fun p q hperm => ⟨p.figures_eq, ?_⟩, fun ranks hne hpos => ?_⟩
  · rw [p.figures_eq, q.figures_eq, ofRanks_perm hperm]
  · have hmean : 1 ≤ average (fun r => r) ranks :=
      le_average hne fun r hr => by exact_mod_cast hpos r hr
    have hproduct := one_le_average_mul_average hne hpos
    simp only [ofRanks_eq]
    refine ⟨⟨?_, ?_, hmean, hproduct⟩, ?_, ?_, ?_, ?_, ?_⟩
    · exact pos_of_mul_pos_left (zero_lt_one.trans_le hproduct) (zero_le_one.trans hmean)
    · refine average_le hne fun r hr => ?_
      have hr : (1 : ℚ) ≤ r := by exact_mod_cast hpos r hr
      exact div_le_one_of_le₀ hr (zero_le_one.trans hr)
    · exact average_mono fun r hr => hit_one_le_one_div (hpos r hr)
    · exact average_nonneg fun r _ => hit_nonneg 1 r
    · exact average_mono fun r _ => hit_le_hit (by decide) r
    · exact average_mono fun r _ => hit_le_hit (by decide) r
    · exact average_le hne fun r _ => hit_le_one 10 r

/-- Two runs and one without ranks, pooled at once and the last two first. -/
theorem pool_runs_regrouped :
    (Pooling.group [.run [1, 12], .group [.run [], .run [2]]]).figures =
      (Pooling.group [.run [2], .run [], .run [1, 12]]).figures ∧
    let m : RankSummary ℚ := ofRanks [1, 12, 2]
    0 < m.meanReciprocal ∧ 1 ≤ m.meanReciprocal * m.mean ∧ m.hitsAt3 ≤ m.hitsAt10 := by
  obtain ⟨-, hregroup, hbounds⟩ := pool_runs
  obtain ⟨-, hfigures⟩ := hregroup (.group [.run [2], .run [], .run [1, 12]])
    (.group [.run [1, 12], .group [.run [], .run [2]]]) (by decide)
  obtain ⟨⟨hpos, -, -, hproduct⟩, -, -, -, hhits, -⟩ := hbounds [1, 12, 2] (by decide) (by decide)
  exact ⟨hfigures, hpos, hproduct, hhits⟩

end RankSummary

end MultiHop
