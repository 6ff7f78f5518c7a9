/-
MultiHop/Fuzzy/Set.lean

Fuzzy sets of entities: a degree of membership for each entity, kept at the entity's
position.  A degree is a probability, and a fuzzy set is only built from admitted
numbers, so no logit and no NaN ever reaches a connective.
-/
import MultiHop.Score.Probability
import MultiHop.Score.TopK

namespace MultiHop

/-- One degree of membership per entity. -/
@[ext]
structure FuzzySet where
  degrees : List Float32
  probable : ∀ p ∈ degrees, IsProbability p
deriving DecidableEq

namespace FuzzySet

/-- The fuzzy set with the degrees `xs`, if all of them are admitted. -/
def ofDegrees (xs : List Float32) : Except GraphError FuzzySet :=
  match h : admitAll xs with
  | .ok ps => .ok ⟨ps, isProbability_of_admitAll h⟩
  | .error e => .error e

/-- The fuzzy set whose degrees are the probabilities of `logits`. -/
def ofLogits [Elementary] (logits : List Float32) : Except GraphError FuzzySet :=
  ofDegrees (logits.map sigmoid)

/-- No entity out of `n`. -/
def empty (n : Nat) : FuzzySet where
  degrees := List.replicate n 0
  probable := fun _ hp => (List.mem_replicate.1 hp).2 ▸ isProbability_zero

/-- Exactly the entity `e` out of `n`.  Its position is written to only after it was checked. -/
def singleton (n : Nat) (e : EntityId) : Except GraphError FuzzySet :=
  if bound : e.index < n then
    .ok {
      degrees := ((Vector.replicate n 0).set e.index 1 bound).toList
      probable := fun p hp => by
        rcases Vector.mem_or_eq_of_mem_set (Vector.mem_toList_iff.1 hp) with hp | rfl
        · exact (Vector.mem_replicate.1 hp).2 ▸ isProbability_zero
        · exact isProbability_one }
  else .error (.entityOutOfRange e n)

/-- Number of entities that may be members. -/
def size (s : FuzzySet) : Nat := s.degrees.length

/-- Degree of `e`, if the set reaches that far. -/
def degree? (s : FuzzySet) (e : EntityId) : Option Float32 := s.degrees[e.index]?

/-- Entities with their degrees, in order. -/
def entries (s : FuzzySet) : List (EntityId × Float32) :=
  s.degrees.zipIdx.map fun (p, i) => (⟨i⟩, p)

/-- The highest degree, if there is any. -/
def height? (s : FuzzySet) : Option Float32 :=
  match s.degrees with
  | [] => none
  | p :: ps => some (ps.foldl larger p)

/-- The `k` best entities with their degrees; of equal ones the earlier comes
first. -/
def best (s : FuzzySet) (k : Nat) : List (EntityId × Float32) :=
  (topKBy rankOf k s.degrees).map fun (i, p) => (⟨i⟩, p)

/-! ### Sizes -/

theorem size_ofDegrees {xs : List Float32} {s : FuzzySet} (h : ofDegrees xs = .ok s) :
    s.size = xs.length := by
  unfold ofDegrees at h
  split at h
  · next ps hps => cases h; exact length_of_admitAll hps
  · cases h

theorem size_ofLogits [Elementary] {logits : List Float32} {s : FuzzySet}
    (h : ofLogits logits = .ok s) : s.size = logits.length := by
  rw [size_ofDegrees h, List.length_map]

theorem size_empty (n : Nat) : (empty n).size = n := List.length_replicate

end FuzzySet

end MultiHop
