/-
MultiHop/Query/Answer.lean

Answers: entities with their names and degrees, best first.
-/
import MultiHop.Fuzzy.Set
import MultiHop.Index

namespace MultiHop

/-- An entity that answers a query. -/
structure Answer where
  entity : EntityId
  name : String
  score : Float32
deriving DecidableEq

/-- What a query results in: answers in order, or the bare fuzzy set. -/
inductive QueryResult where
  | ranked (answers : List Answer)
  | scores (s : FuzzySet)
deriving DecidableEq

/-- One answer for each entity, best first; of equal scores the earlier entity comes
first.  There must be one degree for each name. -/
def FuzzySet.ranked (s : FuzzySet) (index : Index) : Except GraphError (List Answer) :=
  if s.size = index.entityCount then
    .ok (descending (fun a => rankOf a.score)
      ((index.entities.names.zip s.degrees).zipIdx.map fun ((name, p), i) => ⟨⟨i⟩, name, p⟩))
  else .error (.invalid (.rankLength s.size index.entityCount))

end MultiHop
