/-
MultiHop/Proofs/Rank/KnownFacts.lean

What a rank counts.  The two entities of a triple are ranked in the same way, each among the
candidates for its place, and a rank is one more than the number of rivals whose logit is
strictly above that of the true entity (`KnownFacts.rank_of_row`).

Every comparison with a NaN is false, so no rival counts against a true entity whose own
logit is NaN.  Such an entity is ranked first, whatever numbers its rivals have
(`KnownFacts.rank_of_diverged`).
-/
import MultiHop.Proofs.Consult
import MultiHop.Proofs.Single.Value
import MultiHop.Rank.KnownFacts

namespace MultiHop

open Consult

/-! ### Places of a triple -/

/-- The place of an entity in a triple. -/
inductive Place where
  | head
  | tail
deriving DecidableEq, Repr

/-- The place that keeps its entity when the candidates for a place are ranked. -/
def Place.other : Place → Place
  | .head => .tail
  | .tail => .head

namespace Triple

/-- The entity at a place. -/
def entity (t : Triple) : Place → EntityId
  | .head => t.head
  | .tail => t.tail

/-- The triple with another entity at a place. -/
def put (t : Triple) (e : EntityId) : Place → Triple
  | .head => { t with head := e }
  | .tail => { t with tail := e }

/-- A model covers a triple. -/
structure InRange (t : Triple) (m : Model) : Prop where
  head : t.head.index < m.entityCount
  relation : t.relation.index < m.relationCount
  tail : t.tail.index < m.entityCount

variable {t : Triple} {m : Model}

theorem InRange.entity (ht : t.InRange m) (place : Place) :
    (t.entity place).index < m.entityCount := by
  cases place with
  | head => exact ht.head
  | tail => exact ht.tail

@[simp] theorem entity_put (t : Triple) (e : EntityId) (place : Place) :
    (t.put e place).entity place = e := by
  cases place <;> rfl

@[simp] theorem entity_other_put (t : Triple) (e : EntityId) (place : Place) :
    (t.put e place).entity place.other = t.entity place.other := by
  cases place <;> rfl

@[simp] theorem relation_put (t : Triple) (e : EntityId) (place : Place) :
    (t.put e place).relation = t.relation := by
  cases place <;> rfl

/-- Any entity that the model covers may stand at a place. -/
theorem InRange.put (ht : t.InRange m) {e : EntityId} (he : e.index < m.entityCount)
    (place : Place) : (t.put e place).InRange m := by
  cases place with
  | head => exact ⟨he, ht.relation, ht.tail⟩
  | tail => exact ⟨ht.head, ht.relation, he⟩

end Triple

/-- Asks for the logits of all candidates for a place of a triple. -/
def Model.askPlace (m : Model) (t : Triple) : Place → Consult GraphError (List Float32)
  | .head => m.askHeads t.relation t.tail
  | .tail => m.askTails t.head t.relation

/-- The candidates for a place do not depend on the entity that stands there. -/
@[simp] theorem Model.askPlace_put (m : Model) (t : Triple) (e : EntityId) (place : Place) :
    m.askPlace (t.put e place) place = m.askPlace t place := by
  cases place <;> rfl

namespace KnownFacts

/-- Rank of the entity at a place of a triple, among all candidates for that place. -/
def rank (facts : KnownFacts) (m : Model) (t : Triple) (filtered : Bool) :
    Place → Consult (Fault GraphError) Nat
  | .head => facts.headRank m t filtered
  | .tail => facts.tailRank m t filtered

/-- Whether a candidate counts: in the filtered setting only if it makes no known triple. -/
def counts (facts : KnownFacts) (t : Triple) (filtered : Bool) (place : Place)
    (e : EntityId) : Bool :=
  !filtered || !facts.isKnown (t.put e place)

/-- Number of rivals whose logit satisfies `P`.  The rivals are the candidates that count,
without the entity of the triple itself. -/
def rivals (facts : KnownFacts) (t : Triple) (filtered : Bool) (place : Place)
    (row : List Float32) (P : Float32 → Bool) : Nat :=
  row.zipIdx.countP fun (y, i) =>
    i != (t.entity place).index && facts.counts t filtered place ⟨i⟩ && P y

variable {facts : KnownFacts} {m : Model} {t : Triple} {filtered : Bool} {place : Place}
  {row : List Float32} {x : Float32}

/-! ### What a rank counts -/

/-- Both places are ranked in the same way. -/
theorem rank_eq (facts : KnownFacts) (m : Model) (t : Triple) (filtered : Bool)
    (place : Place) :
    facts.rank m t filtered place =
      Consult.mapError .error (ofExcept (check m t) >>= fun _ => m.askPlace t place) >>=
        fun row => Consult.mapError .breach (.ofExcept
          (rankAt row (t.entity place).index (facts.counts t filtered place))) := by
  cases place <;> rfl

theorem check_eq_ok (ht : t.InRange m) : check m t = .ok () := by
  have hhead : m.checkEntity t.head = .ok () := if_pos ht.head
  have htail : m.checkEntity t.tail = .ok () := if_pos ht.tail
  have hrelation : m.checkRelation t.relation = .ok () := if_pos ht.relation
  unfold check
  rw [hhead, htail, hrelation]
  rfl

/-- **A rank is one more than the number of rivals that score strictly higher.** -/
theorem rank_of_row (ht : t.InRange m) (hrow : (m.askPlace t place).result = .ok row)
    (hx : row[(t.entity place).index]? = some x) :
    (facts.rank m t filtered place).result =
      .ok (1 + facts.rivals t filtered place row fun y => decide (x < y)) := by
  rw [rank_eq]
  refine result_bind_eq_ok_iff.2 ⟨row, result_mapError_eq_ok_iff.2 ?_,
    result_mapError_eq_ok_iff.2 ?_⟩
  · rw [check_eq_ok ht]
    exact result_bind_eq_ok_iff.2 ⟨(), rfl, hrow⟩
  · show rankAt row (t.entity place).index (facts.counts t filtered place) = _
    unfold rankAt
    rw [hx]
    rfl

/-- No rival is above a NaN. -/
theorem rivals_above_nan (hx : x.isNaN = true) :
    facts.rivals t filtered place row (fun y => decide (x < y)) = 0 := by
  unfold rivals
  rw [List.countP_eq_zero]
  rintro ⟨y, i⟩ -
  have hnot : ¬ x < y := by
    intro hlt
    obtain ⟨hnumber, -⟩ := Single.lt_iff.1 hlt
    rw [hx] at hnumber
    cases hnumber
  simp [hnot]

/-- **A true entity whose logit is NaN is ranked first.**  So its rank is above the number
of rivals that have a number exactly if there is no such rival: a model that diverges on the
true entities, and on them only, gets the best ranks there are. -/
theorem rank_of_diverged (facts : KnownFacts) (m : Model) (t : Triple) (filtered : Bool)
    (place : Place) (row : List Float32) (x : Float32) (ht : t.InRange m)
    (hrow : (m.askPlace t place).result = .ok row)
    (hx : row[(t.entity place).index]? = some x) (hnan : x.isNaN = true) :
    (facts.rank m t filtered place).result = .ok 1 ∧
      ((∃ k, (facts.rank m t filtered place).result = .ok k ∧
          facts.rivals t filtered place row (fun y => !y.isNaN) < k) ↔
        facts.rivals t filtered place row (fun y => !y.isNaN) = 0) := by
  have hrank : (facts.rank m t filtered place).result = .ok 1 := by
    rw [rank_of_row ht hrow hx, rivals_above_nan hnan]
  refine ⟨hrank, ?_⟩
  constructor
  · rintro ⟨k, hk, hlt⟩
    rw [hrank] at hk
    cases hk
    omega
  · intro hnone
    exact ⟨1, hrank, by omega⟩

end KnownFacts

/-- Two entities, and a model that has no number for the loop at the first one. -/
def Model.divergedLoop : Model where
  entityCount := 2
  relationCount := 1
  tails h _ := .ok (if h.index = 0 then [0 / 0, 1] else [1, 1])
  triple h _ t := .ok (if h.index = 0 ∧ t.index = 0 then 0 / 0 else 1)

namespace KnownFacts

/-- If the other triple with the same tail is known, no rival has a number. -/
theorem rank_of_diverged_loop :
    ∃ k, (rank ⟨[⟨⟨1⟩, ⟨0⟩, ⟨0⟩⟩]⟩ .divergedLoop ⟨⟨0⟩, ⟨0⟩, ⟨0⟩⟩ true .head).result = .ok k ∧
      rivals ⟨[⟨⟨1⟩, ⟨0⟩, ⟨0⟩⟩]⟩ ⟨⟨0⟩, ⟨0⟩, ⟨0⟩⟩ true .head [0 / 0, 1] (fun y => !y.isNaN) < k :=
  (rank_of_diverged ⟨[⟨⟨1⟩, ⟨0⟩, ⟨0⟩⟩]⟩ .divergedLoop ⟨⟨0⟩, ⟨0⟩, ⟨0⟩⟩ true .head [0 / 0, 1] (0 / 0)
    ⟨Nat.zero_lt_two, Nat.zero_lt_one, Nat.zero_lt_two⟩ rfl rfl
    (by decide +kernel)).2.2 (by decide +kernel)

/-- In the raw setting the rival has a number and the true tail has none, but the tail is
ranked first. -/
theorem tailRank_diverged_loop :
    Model.divergedLoop.tails ⟨0⟩ ⟨0⟩ = .ok [0 / 0, 1] ∧ (0 / 0 : Float32).isNaN = true ∧
      rivals empty ⟨⟨0⟩, ⟨0⟩, ⟨0⟩⟩ false .tail [0 / 0, 1] (fun y => !y.isNaN) = 1 ∧
      (empty.tailRank .divergedLoop ⟨⟨0⟩, ⟨0⟩, ⟨0⟩⟩ false).result = .ok 1 := by
  refine ⟨rfl, ?_⟩
  decide +kernel

end KnownFacts

end MultiHop
