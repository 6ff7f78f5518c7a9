/-
MultiHop/Proofs/Rank/Order.lean

The raw ranks of all candidates for a place.  One row of logits ranks them all, since the reply of
the model does not depend on the entity that stands at the place.  So the ranks of the candidates
are the ranks of the entries of this row, and what is true of these is true of them: their order
is that of the logits reversed, the first rank belongs to the largest logits, and different logits
have different ranks without a gap.

Main result: `KnownFacts.raw_ranks_reverse_logits`.
-/
import MultiHop.Proofs.Rank.Filtering

namespace MultiHop

open Single (infinity)

/-- Rank that the entry of an entity has in a row. -/
def rankIn (row : List Float32) (e : EntityId) : Nat :=
  row[e.index]?.elim 0 fun x => strictRank x row

theorem rankIn_eq {row : List Float32} {e : EntityId} {x : Float32}
    (hx : row[e.index]? = some x) : rankIn row e = strictRank x row := by
  unfold rankIn
  rw [hx, Option.elim_some]

/-- Entity by entity the ranks are those of the entries. -/
theorem map_rankIn {m : Model} {row : List Float32} (hlen : row.length = m.entityCount) :
    m.entities.map (rankIn row) = row.map fun x => strictRank x row := by
  refine List.ext_getElem? fun i => ?_
  rw [Model.entities, ← hlen, List.map_map, List.getElem?_map, List.getElem?_map]
  by_cases hi : i < row.length
  · rw [List.getElem?_range hi, List.getElem?_eq_getElem hi]
    exact congrArg some (rankIn_eq (List.getElem?_eq_getElem hi))
  · have hi := not_lt.1 hi
    rw [List.getElem?_eq_none hi, List.getElem?_eq_none (List.length_range.trans_le hi)]
    rfl

namespace KnownFacts

variable {facts : KnownFacts} {m : Model} {t : Triple} {place : Place} {row : List Float32}

/-- Whichever entity stands at the place, it is ranked in the same row. -/
theorem raw_rank_put (ht : t.InRange m) (hrow : (m.askPlace t place).result = .ok row)
    (hlen : row.length = m.entityCount) {e : EntityId} (he : e.index < m.entityCount) :
    (facts.rank m (t.put e place) false place).result = .ok (rankIn row e) := by
  have hx := List.getElem?_eq_getElem (he.trans_eq hlen.symm)
  rw [rankIn_eq hx]
  refine raw_rank (ht.put he place) ?_ ?_
  · rwa [Model.askPlace_put]
  · rwa [Triple.entity_put]

/-- **The raw ranks of the candidates for a place reverse the order of their logits.**  The first
rank belongs to the candidates with the largest logit, and to no others; and if the logits are all
different, then the ranks are the numbers from one to the number of entities, each of them once. -/
theorem raw_ranks_reverse_logits (facts : KnownFacts) (m : Model) (t : Triple) (place : Place)
    (row : List Float32) (ht : t.InRange m) (hrow : (m.askPlace t place).result = .ok row)
    (hlen : row.length = m.entityCount) (hnum : ∀ x ∈ row, x.isNaN = false) :
    ∃ k : EntityId → Nat,
      (∀ e, e.index < m.entityCount →
        (facts.rank m (t.put e place) false place).result = .ok (k e)) ∧
      (∀ a b x y, row[a.index]? = some x → row[b.index]? = some y → (k a ≤ k b ↔ y ≤ x)) ∧
      (∀ a x, row[a.index]? = some x → (k a = 1 ↔ ∀ y ∈ row, y ≤ x)) ∧
      (row.Pairwise (fun x y => (x != y) = true) →
        (m.entities.map k).Perm (List.range' 1 m.entityCount)) := by
  refine ⟨rankIn row, fun e he => raw_rank_put ht hrow hlen he, fun a b x y hx hy => ?_,
    fun a x hx => ?_, fun hdiff => ?_⟩
  · rw [rankIn_eq hx, rankIn_eq hy]
    exact strictRank_le_iff hnum (List.mem_of_getElem? hx) (List.mem_of_getElem? hy)
  · rw [rankIn_eq hx]
    exact strictRank_eq_one_iff hnum (List.mem_of_getElem? hx)
  · rw [map_rankIn hlen, ← hlen]
    exact strictRank_perm hnum hdiff

/-- Three tails with different logits have three different ranks, and the second is ranked before
the first. -/
theorem raw_ranks_reverse_logits_spread : ∃ k : EntityId → Nat,
    (∀ e : EntityId, e.index < 3 →
      (rank empty .spread ⟨⟨0⟩, ⟨0⟩, e⟩ false .tail).result = .ok (k e)) ∧
      k ⟨1⟩ ≤ k ⟨0⟩ ∧ (Model.spread.entities.map k).Perm [1, 2, 3] := by
  obtain ⟨k, hrank, horder, -, hperm⟩ := raw_ranks_reverse_logits empty .spread
    ⟨⟨0⟩, ⟨0⟩, ⟨0⟩⟩ .tail [0, infinity, -infinity]
    ⟨Nat.zero_lt_succ 2, Nat.zero_lt_one, Nat.zero_lt_succ 2⟩ rfl rfl (by decide +kernel)
  exact ⟨k, hrank, (horder ⟨1⟩ ⟨0⟩ infinity 0 rfl rfl).2 (by decide +kernel),
    hperm (by decide +kernel)⟩

end KnownFacts

end MultiHop
