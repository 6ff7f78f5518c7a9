/-
MultiHop/Link/Mask.lean

Masks.  A mask is what constraints come down to: for every relation the set of heads and the
set of tails that were seen with it.  It takes triples in one after another, each of them
into one set of either family, and looks its candidates up in these sets without going
through the triples again.  A vector is masked where it stands.
-/
import MultiHop.Link.Constraints

namespace MultiHop

/-- For each relation, ascending, the heads and the tails that were seen with it. -/
structure Mask where
  entityCount : Nat
  domains : List (List EntityId)
  ranges : List (List EntityId)
  length_ranges : ranges.length = domains.length
deriving DecidableEq

namespace Mask

/-- The mask that has seen no triple. -/
def blank (entityCount relationCount : Nat) : Mask where
  entityCount := entityCount
  domains := .replicate relationCount []
  ranges := .replicate relationCount []
  length_ranges := by simp

def relationCount (m : Mask) : Nat := m.domains.length

/-- Takes one triple in, if it is in range. -/
def learn (m : Mask) (t : Triple) : Except GraphError Mask := do
  Constraints.check m.entityCount m.relationCount t
  return {
    entityCount := m.entityCount
    domains := m.domains.modify t.relation.index (Ascending.insert t.head)
    ranges := m.ranges.modify t.relation.index (Ascending.insert t.tail)
    length_ranges := by simp [m.length_ranges] }

/-- The mask of `triples`; the first one that is out of range is the error. -/
def ofTriples (entityCount relationCount : Nat) (triples : List Triple) :
    Except GraphError Mask :=
  triples.foldlM learn (blank entityCount relationCount)

/-- Heads seen with `relation`, in order; nothing for a relation that is not there. -/
def domain? (m : Mask) (relation : RelationId) : Option (List EntityId) :=
  m.domains[relation.index]?

/-- Tails seen with `relation`, in order; nothing for a relation that is not there. -/
def range? (m : Mask) (relation : RelationId) : Option (List EntityId) :=
  m.ranges[relation.index]?

/-- Whether `head` was seen with `relation`. -/
def allowsHead (m : Mask) (relation : RelationId) (head : EntityId) : Bool :=
  (m.domain? relation).any fun heads => decide (head ∈ heads)

/-- Whether `tail` was seen with `relation`. -/
def allowsTail (m : Mask) (relation : RelationId) (tail : EntityId) : Bool :=
  (m.range? relation).any fun tails => decide (tail ∈ tails)

/-- Puts the mask on the candidates for the open slot of a query: how that ends, and the
vector as it is afterwards.  Only entity slots are masked; for them the relation must be
there and the vector must have one entry per entity. -/
def put (m : Mask) (query : LinkQuery) (logits : List Float32) :
    Except GraphError Unit × List Float32 :=
  match query with
  | .missingHead relation _ => through relation (m.domain? relation)
  | .missingTail _ relation => through relation (m.range? relation)
  | .missingRelation _ _ | .triple _ _ _ => (.ok (), logits)
where
  through (relation : RelationId) (allowed : Option (List EntityId)) :
      Except GraphError Unit × List Float32 :=
    match allowed with
    | none => (.error (.relationOutOfRange relation m.relationCount), logits)
    | some allowed =>
      if logits.length ≠ m.entityCount then
        (.error (.invalid (.maskLength logits.length m.entityCount)), logits)
      else (.ok (), Constraints.maskBy (fun e => decide (e ∈ allowed)) logits)

end Mask

end MultiHop
