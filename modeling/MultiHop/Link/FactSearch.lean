/-
MultiHop/Link/FactSearch.lean

Search for facts that the graph lacks: for each chosen head and relation, the
best tails that score high enough and are not known yet.
-/
import MultiHop.Ascending
import MultiHop.Fuzzy.Set
import MultiHop.Model

namespace MultiHop

/-- Where to search and when to stop. -/
structure FactSearch where
  /-- Least probability of a find. -/
  confidence : Float32
  /-- Tails looked at for each head and relation. -/
  tails : Nat
  /-- Number of finds after which the search ends. -/
  limit : Nat
  /-- Heads to look at, all of them if none are named. -/
  entities : Option (List EntityId)
  /-- Relations to look at, all of them if none are named. -/
  relations : Option (List RelationId)
deriving DecidableEq

namespace FactSearch

/-- Largest limit that can be written down: the search does not end early. -/
def unlimited : Nat := UInt64.size - 1

/-- Ten tails each, with a probability of at least 0.99. -/
def standard : FactSearch := ⟨0.99, 10, unlimited, none, none⟩

/-- Refuses a confidence outside the unit interval, then a search that looks at no
tail. -/
def validate (s : FactSearch) : Except GraphError Unit :=
  if ¬ IsProbability s.confidence then .error (.invalid (.confidence s.confidence))
  else if s.tails = 0 then .error (.invalid .noTails)
  else .ok ()

/-- Pairs of head and relation, in the order in which they are looked at. -/
def pairs (s : FactSearch) (m : Model) : List (EntityId × RelationId) :=
  (s.entities.getD m.entities).flatMap fun h => (s.relations.getD m.relations).map (h, ·)

/-- Finds under one head and relation, best first. -/
def finds (s : FactSearch) (known : List Triple) (h : EntityId) (r : RelationId)
    (scores : FuzzySet) : List Triple :=
  let confident := (scores.best s.tails).takeWhile fun (_, p) => !decide (p < s.confidence)
  (confident.map fun (t, _) => ⟨h, r, t⟩).filter fun t => !decide (t ∈ known)

/-- Takes finds in until the limit is reached. -/
def collect (limit : Nat) (finds found : List Triple) : List Triple :=
  finds.foldl (fun found t => if limit ≤ found.length then found else Ascending.insert t found)
    found

/-- Goes through `pairs`, unless the limit is reached. -/
def sweep [Elementary] (s : FactSearch) (m : Model) (known : List Triple) :
    List (EntityId × RelationId) → List Triple → Consult GraphError (List Triple)
  | [], found => return found
  | (h, r) :: pairs, found =>
    if s.limit ≤ found.length then return found
    else do
      let scores ← FuzzySet.ofLogits (← m.askTails h r)
      sweep s m known pairs (collect s.limit (s.finds known h r scores) found)

/-- The triples found, in ascending order. -/
def run [Elementary] (s : FactSearch) (m : Model) (known : List Triple) :
    Consult GraphError (List Triple) := do
  s.validate
  s.sweep m known (s.pairs m) []

end FactSearch

end MultiHop
