/-
MultiHop/Link/Constraints.lean

Domains and ranges learned from facts.  The domain of a relation is every head
seen with it, its range every tail seen with it.  A mask puts the logit of every
candidate outside them to negative infinity, which is the probability zero.
-/
import MultiHop.Ascending
import MultiHop.Link.Query

namespace MultiHop

/-- Negative infinity. -/
def negInfinity : Float32 := -1 / 0

/-- Facts over a number of entities and relations. -/
structure Constraints where
  entityCount : Nat
  relationCount : Nat
  triples : List Triple
deriving DecidableEq

namespace Constraints

/-- Refuses a triple that names an entity or a relation that is not there, looking
at head, tail and relation in this order. -/
def check (entityCount relationCount : Nat) (t : Triple) : Except GraphError Unit :=
  if entityCount ≤ t.head.index then .error (.entityOutOfRange t.head entityCount)
  else if entityCount ≤ t.tail.index then .error (.entityOutOfRange t.tail entityCount)
  else if relationCount ≤ t.relation.index then
    .error (.relationOutOfRange t.relation relationCount)
  else .ok ()

/-- The constraints that `triples` show. -/
def ofTriples (entityCount relationCount : Nat) (triples : List Triple) :
    Except GraphError Constraints := do
  triples.forM (check entityCount relationCount)
  return ⟨entityCount, relationCount, triples⟩

/-- Whether `head` was seen with `relation`. -/
def allowsHead (c : Constraints) (relation : RelationId) (head : EntityId) : Bool :=
  c.triples.any fun t => t.relation == relation && t.head == head

/-- Whether `tail` was seen with `relation`. -/
def allowsTail (c : Constraints) (relation : RelationId) (tail : EntityId) : Bool :=
  c.triples.any fun t => t.relation == relation && t.tail == tail

/-- Heads seen with `relation`, in order; nothing for a relation that is not there. -/
def domain? (c : Constraints) (relation : RelationId) : Option (List EntityId) :=
  if relation.index < c.relationCount then
    some (Ascending.ofList ((c.triples.filter (·.relation == relation)).map (·.head)))
  else none

/-- Tails seen with `relation`, in order; nothing for a relation that is not there. -/
def range? (c : Constraints) (relation : RelationId) : Option (List EntityId) :=
  if relation.index < c.relationCount then
    some (Ascending.ofList ((c.triples.filter (·.relation == relation)).map (·.tail)))
  else none

/-- Puts every logit whose entity is not allowed to negative infinity. -/
def maskBy (allowed : EntityId → Bool) (logits : List Float32) : List Float32 :=
  logits.mapIdx fun i x => if allowed ⟨i⟩ then x else negInfinity

/-- Masks the candidates for the open slot of a query.  Only entity slots are
masked; for them the relation must be there and the vector must have one entry
per entity. -/
def mask (c : Constraints) (query : LinkQuery) (logits : List Float32) :
    Except GraphError (List Float32) :=
  match query with
  | .missingHead relation _ => masked relation (c.allowsHead relation)
  | .missingTail _ relation => masked relation (c.allowsTail relation)
  | .missingRelation _ _ | .triple _ _ _ => .ok logits
where
  masked (relation : RelationId) (allowed : EntityId → Bool) :
      Except GraphError (List Float32) :=
    if c.relationCount ≤ relation.index then
      .error (.relationOutOfRange relation c.relationCount)
    else if logits.length ≠ c.entityCount then
      .error (.invalid (.maskLength logits.length c.entityCount))
    else .ok (maskBy allowed logits)

end Constraints

end MultiHop
