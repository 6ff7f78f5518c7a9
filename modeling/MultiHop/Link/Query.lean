/-
MultiHop/Link/Query.lean

Link queries: a triple with at most one open slot.
-/
import MultiHop.Index

namespace MultiHop

/-- A triple of which one slot may be open. -/
inductive LinkQuery where
  /-- `(?, relation, tail)` -/
  | missingHead (relation : RelationId) (tail : EntityId)
  /-- `(head, ?, tail)` -/
  | missingRelation (head tail : EntityId)
  /-- `(head, relation, ?)` -/
  | missingTail (head : EntityId) (relation : RelationId)
  /-- `(head, relation, tail)` -/
  | triple (head : EntityId) (relation : RelationId) (tail : EntityId)
deriving DecidableEq, Repr

namespace LinkQuery

/-- The query with the given slots filled; two of them at least must be. -/
def ofSlots? (head : Option EntityId) (relation : Option RelationId)
    (tail : Option EntityId) : Option LinkQuery :=
  match head, relation, tail with
  | none, some r, some t => some (.missingHead r t)
  | some h, none, some t => some (.missingRelation h t)
  | some h, some r, none => some (.missingTail h r)
  | some h, some r, some t => some (.triple h r t)
  | _, _, _ => none

/-- The query with the given names in its slots.  Names are looked up from left to
right, and only then the open slots are counted. -/
def ofNames (index : Index) (head relation tail : Option String) :
    Except GraphError LinkQuery := do
  let head ← head.mapM index.entity
  let relation ← relation.mapM index.relation
  let tail ← tail.mapM index.entity
  match ofSlots? head relation tail with
  | some q => return q
  | none => .error (.invalid .openSlots)

/-- Whether the open slot is that of the relation. -/
def predictsRelation : LinkQuery → Bool
  | .missingRelation _ _ => true
  | .missingHead _ _ | .missingTail _ _ | .triple _ _ _ => false

end LinkQuery

end MultiHop
