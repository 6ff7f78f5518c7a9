/-
MultiHop/Id.lean

Entities and relations of a knowledge graph, known by their positions: entity `i`
is the one at position `i` of every row of logits and of every fuzzy set.
-/

namespace MultiHop

/-- An entity, by position. -/
structure EntityId where
  index : Nat
deriving DecidableEq, Repr, Inhabited

/-- A relation, by position. -/
structure RelationId where
  index : Nat
deriving DecidableEq, Repr, Inhabited

/-- Label of an entity position, such as `e3`. -/
def EntityId.label (e : EntityId) : String := "e" ++ toString e.index

/-- Label of a relation position, such as `r3`. -/
def RelationId.label (r : RelationId) : String := "r" ++ toString r.index

instance : Ord EntityId := ⟨fun a b => compare a.index b.index⟩

instance : Ord RelationId := ⟨fun a b => compare a.index b.index⟩

instance : Std.LawfulEqOrd EntityId where
  compare_self := Std.ReflOrd.compare_self (α := Nat)
  eq_of_compare {a b} h := by
    obtain ⟨i⟩ := a
    obtain ⟨j⟩ := b
    exact congrArg EntityId.mk (Std.LawfulEqOrd.eq_of_compare (α := Nat) h)

instance : Std.LawfulEqOrd RelationId where
  compare_self := Std.ReflOrd.compare_self (α := Nat)
  eq_of_compare {a b} h := by
    obtain ⟨i⟩ := a
    obtain ⟨j⟩ := b
    exact congrArg RelationId.mk (Std.LawfulEqOrd.eq_of_compare (α := Nat) h)

/-- A fact of the graph: `relation` leads from `head` to `tail`. -/
structure Triple where
  head : EntityId
  relation : RelationId
  tail : EntityId
deriving DecidableEq, Repr, Inhabited

/-- Triples are ordered by head, then relation, then tail. -/
instance : Ord Triple :=
  ⟨fun a b => ((compare a.head b.head).then (compare a.relation b.relation)).then
    (compare a.tail b.tail)⟩

instance : Std.LawfulEqOrd Triple where
  compare_self {a} := by
    show ((compare a.head a.head).then (compare a.relation a.relation)).then
      (compare a.tail a.tail) = .eq
    simp [Std.ReflOrd.compare_self]
  eq_of_compare {a b} h := by
    have h : ((compare a.head b.head).then (compare a.relation b.relation)).then
      (compare a.tail b.tail) = .eq := h
    rw [Ordering.then_eq_eq, Ordering.then_eq_eq] at h
    obtain ⟨⟨hh, hr⟩, ht⟩ := h
    obtain ⟨head, relation, tail⟩ := a
    obtain rfl : head = b.head := Std.LawfulEqOrd.eq_of_compare hh
    obtain rfl : relation = b.relation := Std.LawfulEqOrd.eq_of_compare hr
    obtain rfl : tail = b.tail := Std.LawfulEqOrd.eq_of_compare ht
    rfl

end MultiHop
