/-
MultiHop/Model.lean

Scoring models.  A model covers a number of entities and relations and replies to
requests with logits; its replies may be errors, and nothing is promised about
their length.  Two kinds of reply are required, all tails of a head and a single
triple.  The other requests have a default made of these two, which a model may
replace by a way of its own.
-/
import MultiHop.Consult
import MultiHop.GraphError

namespace MultiHop

/-- A matrix of logits, one row per head of a batch. -/
structure Batch where
  columns : Nat
  rows : List (List Float32)
  length_row : ∀ row ∈ rows, row.length = columns

/-- The matrix of zeros. -/
def Batch.zeros (rows columns : Nat) : Batch where
  columns := columns
  rows := List.replicate rows (List.replicate columns 0)
  length_row := fun _ h => (List.mem_replicate.1 h).2 ▸ List.length_replicate

/-- A trained model, seen through its replies.  An implementation is taken to keep the
documented default of the two range checks, which compares a position with the number of
entities or relations; so `checkEntity` and `checkRelation` are functions of a model and no
fields of it. -/
structure Model where
  entityCount : Nat
  relationCount : Nat
  /-- Logits of `(head, relation, t)` for every entity `t`. -/
  tails : EntityId → RelationId → Except GraphError (List Float32)
  /-- Logit of one triple. -/
  triple : EntityId → RelationId → EntityId → Except GraphError Float32
  /-- Own way to score all heads, if there is one. -/
  ownHeads : Option (RelationId → EntityId → Except GraphError (List Float32)) := none
  /-- Own way to score all relations, if there is one. -/
  ownRelations : Option (EntityId → EntityId → Except GraphError (List Float32)) := none
  /-- Own way to score the tails of several heads, if there is one. -/
  ownBatch : Option (List EntityId → RelationId → Except GraphError Batch) := none

namespace Model

/-! ### Range checks -/

/-- Refuses an entity that the model does not cover. -/
def checkEntity (m : Model) (e : EntityId) : Except GraphError Unit :=
  if e.index < m.entityCount then .ok () else .error (.entityOutOfRange e m.entityCount)

/-- Refuses a relation that the model does not cover. -/
def checkRelation (m : Model) (r : RelationId) : Except GraphError Unit :=
  if r.index < m.relationCount then .ok () else .error (.relationOutOfRange r m.relationCount)

/-- Every entity of the model, in order. -/
def entities (m : Model) : List EntityId := (List.range m.entityCount).map EntityId.mk

/-- Every relation of the model, in order. -/
def relations (m : Model) : List RelationId := (List.range m.relationCount).map RelationId.mk

/-! ### Requests -/

/-- Asks for the logits of all tails. -/
def askTails (m : Model) (h : EntityId) (r : RelationId) :
    Consult GraphError (List Float32) :=
  .asking (.tails h r) (m.tails h r)

/-- Asks for the logit of one triple. -/
def askTriple (m : Model) (h : EntityId) (r : RelationId) (t : EntityId) :
    Consult GraphError Float32 :=
  .asking (.triple h r t) (m.triple h r t)

/-- Asks for the logits of all heads: triple by triple, unless the model has a
way of its own. -/
def askHeads (m : Model) (r : RelationId) (t : EntityId) : Consult GraphError (List Float32) :=
  match m.ownHeads with
  | some reply => .asking (.heads r t) (reply r t)
  | none => m.entities.mapM fun h => m.askTriple h r t

/-- Asks for the logits of all relations: triple by triple, unless the model has
a way of its own. -/
def askRelations (m : Model) (h t : EntityId) : Consult GraphError (List Float32) :=
  match m.ownRelations with
  | some reply => .asking (.relations h t) (reply h t)
  | none => m.relations.mapM fun r => m.askTriple h r t

/-- One row of a batch: all tails of one head, which must be one per entity. -/
def askRow (m : Model) (r : RelationId) (h : EntityId) :
    Consult GraphError { row : List Float32 // row.length = m.entityCount } := do
  let logits ← m.askTails h r
  if fits : logits.length = m.entityCount then
    return ⟨logits, fits⟩
  else
    .fail (.invalid (.replyLength logits.length m.entityCount))

/-- Asks for the logits of all tails of several heads: head by head, unless the
model has a way of its own. -/
def askBatch (m : Model) (heads : List EntityId) (r : RelationId) :
    Consult GraphError Batch :=
  match m.ownBatch with
  | some reply => .asking (.batch heads r) (reply heads r)
  | none => do
    let rows ← heads.mapM (m.askRow r)
    return {
      columns := m.entityCount
      rows := rows.map Subtype.val
      length_row := fun _ h => by
        obtain ⟨row, -, rfl⟩ := List.mem_map.1 h
        exact row.property }

end Model

end MultiHop
