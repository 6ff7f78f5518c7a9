/-
MultiHop/Query/Beam.lean

Beams.  Between two hops only the best entities are kept.  A hop of a beam asks
for all tails of each of its entities, takes the meet of the degree that an entity
carries with those of its tails, and keeps the best witness for every tail.
-/
import MultiHop.Fuzzy.Norm
import MultiHop.Query.Hop

namespace MultiHop

/-- Entities with the degrees that they carry, best first. -/
structure Beam where
  entries : List (EntityId × Float32)
deriving DecidableEq

namespace Beam

/-- The `k` best entities of a fuzzy set. -/
def ofSet (s : FuzzySet) (k : Nat) : Beam := ⟨s.best k⟩

/-- Entities of the beam, best first. -/
def entities (b : Beam) : List EntityId := b.entries.map (·.1)

/-- Degrees that the entities carry, best first. -/
def carried (b : Beam) : List Float32 := b.entries.map (·.2)

/-- The largest number at each of the first `n` positions of some rows, and zero at
least. -/
def bestWitness (n : Nat) (rows : List (List Float32)) : List Float32 :=
  rows.foldl (fun best row => best.zipWith larger row) (List.replicate n 0)

/-- What the beam makes of the rows of its entities: each degree of a row meets the
degree that the entity of the row carries.  There must be one row per entity. -/
def witnesses (b : Beam) (t : TNorm) (rows : List FuzzySet) :
    Except Breach (List (List Float32)) :=
  if b.carried.length = rows.length then
    .ok (b.carried.zipWith (fun c row => row.degrees.map (t.meet c)) rows)
  else .error (.rowsDiffer b.carried.length rows.length)

/-- Sends a beam through a relation; an empty beam leads nowhere, and the model is
not called. -/
def hop [Elementary] (b : Beam) (m : Model) (r : RelationId) (t : TNorm) :
    Consult (Fault GraphError) FuzzySet :=
  if b.entries.isEmpty then return .empty m.entityCount
  else do
    let rows ← (m.hops b.entities r).mapError .error
    let witnesses ← Consult.mapError .breach (.ofExcept (b.witnesses t rows))
    Consult.mapError .error (.ofExcept (FuzzySet.ofDegrees (bestWitness m.entityCount witnesses)))

end Beam

end MultiHop
