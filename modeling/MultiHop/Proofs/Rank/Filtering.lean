/-
MultiHop/Proofs/Rank/Filtering.lean

Raw and filtered ranks account for each other.  Both count positions above the true entity: the
raw rank counts all of them, the filtered rank those of candidates that make no known triple.  So
they differ by the number of known triples that score higher than the true one.  The true entity
is not above itself, so it does not matter whether the true triple is known; and a triple with
another relation, or with another entity at the other place, is no candidate.

Main result: `KnownFacts.ranks_account`.
-/
import MultiHop.Proofs.Rank.KnownFacts
import MultiHop.Proofs.Rank.Strict

namespace MultiHop

open Single (infinity)

namespace KnownFacts

variable {facts : KnownFacts} {m : Model} {t : Triple} {filtered : Bool} {place : Place}
  {row : List Float32} {x : Float32}

/-! ### Ranks as sets of positions -/

/-- Positions above `x` of the candidates that count. -/
def counted (facts : KnownFacts) (t : Triple) (filtered : Bool) (place : Place)
    (row : List Float32) (x : Float32) : Finset Nat :=
  (above row x).filter fun i => facts.counts t filtered place ⟨i⟩ = true

/-- Positions above `x` of the candidates, other than the true entity, that make a known triple. -/
def passedOver (facts : KnownFacts) (t : Triple) (place : Place) (row : List Float32)
    (x : Float32) : Finset Nat :=
  (above row x).filter fun i => i ≠ (t.entity place).index ∧ t.put ⟨i⟩ place ∈ facts.known

theorem counts_eq_true_iff {e : EntityId} : facts.counts t filtered place e = true ↔
    (filtered = true → t.put e place ∉ facts.known) := by
  unfold counts isKnown
  cases filtered <;> simp

/-- That the true entity is left out makes no difference: it is not above itself. -/
theorem rivals_eq_card (hx : row[(t.entity place).index]? = some x) :
    facts.rivals t filtered place row (fun y => decide (x < y)) =
      (facts.counted t filtered place row x).card := by
  unfold rivals
  rw [countP_zipIdx fun a => a.1 != (t.entity place).index &&
    facts.counts t filtered place ⟨a.1⟩ && decide (x < a.2)]
  congr 1
  ext i
  unfold counted
  rw [Finset.mem_filter, mem_positions, mem_above]
  simp only [Bool.and_eq_true, bne_iff_ne, decide_eq_true_iff]
  constructor
  · rintro ⟨y, hy, ⟨-, hcounts⟩, hlt⟩
    exact ⟨⟨y, hy, hlt⟩, hcounts⟩
  · rintro ⟨⟨y, hy, hlt⟩, hcounts⟩
    refine ⟨y, hy, ⟨?_, hcounts⟩, hlt⟩
    rintro rfl
    exact notMem_above hx (mem_above.2 ⟨y, hy, hlt⟩)

/-- **A rank is one more than the number of candidates above the true entity that count.** -/
theorem rank_eq_card (ht : t.InRange m) (hrow : (m.askPlace t place).result = .ok row)
    (hx : row[(t.entity place).index]? = some x) :
    (facts.rank m t filtered place).result =
      .ok (1 + (facts.counted t filtered place row x).card) := by
  rw [rank_of_row ht hrow hx, rivals_eq_card hx]

/-- In the raw setting all candidates count. -/
theorem counted_raw : facts.counted t false place row x = above row x := by
  unfold counted
  refine Finset.filter_true_of_mem fun i _ => ?_
  exact counts_eq_true_iff.2 nofun

theorem raw_rank (ht : t.InRange m) (hrow : (m.askPlace t place).result = .ok row)
    (hx : row[(t.entity place).index]? = some x) :
    (facts.rank m t false place).result = .ok (strictRank x row) := by
  rw [rank_eq_card ht hrow hx, counted_raw, strictRank_eq]

/-- What is above the true entity either counts or is passed over. -/
theorem card_counted_add_card_passedOver (facts : KnownFacts)
    (hx : row[(t.entity place).index]? = some x) :
    (facts.counted t true place row x).card + (facts.passedOver t place row x).card =
      (above row x).card := by
  have hpassed : facts.passedOver t place row x =
      (above row x).filter fun i => ¬ facts.counts t true place ⟨i⟩ = true := by
    refine Finset.filter_congr fun i hi => ?_
    have hne : i ≠ (t.entity place).index := by
      rintro rfl
      exact notMem_above hx hi
    rw [counts_eq_true_iff, imp_iff_right rfl, not_not, and_iff_right hne]
  rw [hpassed]
  exact Finset.card_filter_add_card_filter_not _

/-! ### More known triples -/

theorem known_subset_add (facts : KnownFacts) (more : List Triple) :
    facts.known ⊆ (facts.add more).known :=
  List.subset_append_right more facts.known

/-- Known triples stay known, so no candidate begins to count. -/
theorem counted_add_subset (more : List Triple) :
    (facts.add more).counted t filtered place row x ⊆ facts.counted t filtered place row x := by
  intro i hi
  obtain ⟨habove, hcounts⟩ := Finset.mem_filter.1 hi
  refine Finset.mem_filter.2 ⟨habove, counts_eq_true_iff.2 fun hfiltered hknown => ?_⟩
  exact counts_eq_true_iff.1 hcounts hfiltered (known_subset_add facts more hknown)

/-- A triple that is the true one or no candidate changes nothing. -/
theorem counted_add_eq {more : List Triple} (hx : row[(t.entity place).index]? = some x)
    (hmore : ∀ a ∈ more, a = t ∨ a.relation ≠ t.relation ∨
      a.entity place.other ≠ t.entity place.other) :
    (facts.add more).counted t filtered place row x = facts.counted t filtered place row x := by
  refine (counted_add_subset more).antisymm fun i hi => ?_
  obtain ⟨habove, hcounts⟩ := Finset.mem_filter.1 hi
  refine Finset.mem_filter.2 ⟨habove, counts_eq_true_iff.2 fun hfiltered hknown => ?_⟩
  rcases List.mem_append.1 hknown with hmem | hmem
  · rcases hmore _ hmem with htrue | hrelation | hother
    · -- the candidate would be the true entity, which is not above itself
      have hindex : i = (t.entity place).index := by
        rw [← htrue, Triple.entity_put]
      exact notMem_above hx (hindex ▸ habove)
    · exact hrelation (Triple.relation_put t ⟨i⟩ place)
    · exact hother (Triple.entity_other_put t ⟨i⟩ place)
  · exact counts_eq_true_iff.1 hcounts hfiltered hmem

/-! ### Main result -/

/-- **The raw rank exceeds the filtered one by the number of known candidates that score higher
than the true entity.**  Both ranks lie between one and the number of entities.  If more triples
become known, the filtered rank does not rise, and it does not change at all if each of them is
the true triple itself or differs from it in the relation or at the other place. -/
theorem ranks_account (facts : KnownFacts) (m : Model) (t : Triple) (place : Place)
    (row : List Float32) (ht : t.InRange m) (hrow : (m.askPlace t place).result = .ok row)
    (hlen : row.length = m.entityCount) :
    ∃ x raw kept, row[(t.entity place).index]? = some x ∧
      (facts.rank m t false place).result = .ok raw ∧
      (facts.rank m t true place).result = .ok kept ∧
      raw = strictRank x row ∧
      raw = kept + (facts.passedOver t place row x).card ∧
      1 ≤ kept ∧ kept ≤ raw ∧ raw ≤ m.entityCount ∧
      ∀ more : List Triple, ∃ k, ((facts.add more).rank m t true place).result = .ok k ∧
        k ≤ kept ∧
        ((∀ a ∈ more, a = t ∨ a.relation ≠ t.relation ∨
          a.entity place.other ≠ t.entity place.other) → k = kept) := by
  have hlt : (t.entity place).index < row.length := (ht.entity place).trans_eq hlen.symm
  have hx := List.getElem?_eq_getElem hlt
  have hsum := card_counted_add_card_passedOver facts hx
  have hstrict := strictRank_eq row[(t.entity place).index] row
  have hbound := strictRank_le_length hx
  refine ⟨_, _, _, hx, raw_rank ht hrow hx, rank_eq_card ht hrow hx, rfl, by omega, by omega,
    by omega, by omega, fun more => ⟨_, rank_eq_card ht hrow hx, ?_, fun hmore => ?_⟩⟩
  · exact Nat.add_le_add_left (Finset.card_le_card (counted_add_subset more)) 1
  · rw [counted_add_eq hx hmore]

end KnownFacts

/-- Three entities, each of which points to the first one with the logit zero, to the second one
with the largest logit and to the third one with the smallest. -/
def Model.spread : Model where
  entityCount := 3
  relationCount := 1
  tails _ _ := .ok [0, infinity, -infinity]
  triple _ _ t := .ok (if t.index = 0 then 0 else if t.index = 1 then infinity else -infinity)

namespace KnownFacts

/-- The second tail outscores the first one and is passed over as soon as it is known. -/
theorem ranks_account_spread : ∃ kept,
    (rank ⟨[⟨⟨0⟩, ⟨0⟩, ⟨1⟩⟩]⟩ .spread ⟨⟨0⟩, ⟨0⟩, ⟨0⟩⟩ true .tail).result = .ok kept ∧
      (rank ⟨[⟨⟨0⟩, ⟨0⟩, ⟨1⟩⟩]⟩ .spread ⟨⟨0⟩, ⟨0⟩, ⟨0⟩⟩ false .tail).result = .ok (kept + 1) := by
  obtain ⟨x, raw, kept, hx, hraw, hkept, -, hsum, -⟩ := ranks_account ⟨[⟨⟨0⟩, ⟨0⟩, ⟨1⟩⟩]⟩ .spread
    ⟨⟨0⟩, ⟨0⟩, ⟨0⟩⟩ .tail [0, infinity, -infinity]
    ⟨Nat.zero_lt_succ 2, Nat.zero_lt_one, Nat.zero_lt_succ 2⟩ rfl rfl
  cases hx
  have hpassed : (passedOver ⟨[⟨⟨0⟩, ⟨0⟩, ⟨1⟩⟩]⟩ ⟨⟨0⟩, ⟨0⟩, ⟨0⟩⟩ .tail [0, infinity, -infinity]
      0).card = 1 := by
    decide +kernel
  refine ⟨kept, hkept, ?_⟩
  rw [hraw, hsum, hpassed]

end KnownFacts

end MultiHop
