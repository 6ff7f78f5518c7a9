/-
MultiHop/Index.lean

The entity and relation names of a knowledge graph.  An index turns names into
positions and back, and refuses those that it does not hold.
-/
import MultiHop.Vocabulary

namespace MultiHop

/-- Entity names and relation names, each numbered in order. -/
structure Index where
  entities : Vocabulary
  relations : Vocabulary
deriving DecidableEq

/-- A fact as it is written down: head, relation and tail by name. -/
structure NamedTriple where
  head : String
  relation : String
  tail : String
deriving DecidableEq, Repr

namespace Index

/-- The index of two lists of distinct names; the entities are looked at first. -/
def ofNames (entities relations : List String) : Except GraphError Index := do
  let entities ← Vocabulary.ofNames entities
  let relations ← Vocabulary.ofNames relations
  return ⟨entities, relations⟩

/-- Takes the names of one triple in: head, relation, tail. -/
def insert (index : Index) (t : NamedTriple) : Index :=
  ⟨(index.entities.insert t.head).insert t.tail, index.relations.insert t.relation⟩

/-- The index of the names of `triples`, numbered as they are first seen. -/
def ofTriples (triples : List NamedTriple) : Index :=
  triples.foldl insert ⟨.empty, .empty⟩

def entityCount (index : Index) : Nat := index.entities.size

def relationCount (index : Index) : Nat := index.relations.size

/-- The entity called `name`. -/
def entity (index : Index) (name : String) : Except GraphError EntityId :=
  match index.entities.position? name with
  | some i => .ok ⟨i⟩
  | none => .error (.entityNotFound name)

/-- The relation called `name`. -/
def relation (index : Index) (name : String) : Except GraphError RelationId :=
  match index.relations.position? name with
  | some i => .ok ⟨i⟩
  | none => .error (.relationNotFound name)

/-- Name of an entity. -/
def entityName (index : Index) (e : EntityId) : Except GraphError String :=
  match index.entities.name? e.index with
  | some name => .ok name
  | none => .error (.entityOutOfRange e index.entityCount)

/-- Name of a relation. -/
def relationName (index : Index) (r : RelationId) : Except GraphError String :=
  match index.relations.name? r.index with
  | some name => .ok name
  | none => .error (.relationOutOfRange r index.relationCount)

/-- A named triple by positions; its names are looked up from left to right. -/
def triple (index : Index) (t : NamedTriple) : Except GraphError Triple := do
  let head ← index.entity t.head
  let relation ← index.relation t.relation
  let tail ← index.entity t.tail
  return ⟨head, relation, tail⟩

/-- Entities with their names, in order. -/
def entityList (index : Index) : List (EntityId × String) :=
  index.entities.names.zipIdx.map fun (name, i) => (⟨i⟩, name)

/-- Relations with their names, in order. -/
def relationList (index : Index) : List (RelationId × String) :=
  index.relations.names.zipIdx.map fun (name, i) => (⟨i⟩, name)

end Index

end MultiHop
