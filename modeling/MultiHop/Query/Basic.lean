/-
MultiHop/Query/Basic.lean

Logical queries.  A query starts at anchor entities and combines hops through
relations with intersection, union and negation.  The same tree serves for queries
over names, as they are asked, and over positions, as they are evaluated.
-/
import MultiHop.Id

namespace MultiHop

/-- A query over entities of type `E` and relations of type `R`. -/
inductive QueryOver (E R : Type) where
  /-- One anchor entity. -/
  | entity (e : E)
  /-- What a relation leads to from the answers of a query. -/
  | projection (source : QueryOver E R) (relation : R)
  /-- Answers of all operands. -/
  | intersection (operands : List (QueryOver E R))
  /-- Answers of some operand. -/
  | union (operands : List (QueryOver E R))
  /-- All but the answers of a query. -/
  | negation (source : QueryOver E R)
deriving Repr

/-- A query over positions. -/
abbrev Query := QueryOver EntityId RelationId

/-- A query over names. -/
abbrev NamedQuery := QueryOver String String

namespace QueryOver

variable {E R : Type}

mutual

/-- Number of hops through a relation. -/
def hops : QueryOver E R → Nat
  | .entity _ => 0
  | .projection q _ => 1 + hops q
  | .intersection qs => hopsAll qs
  | .union qs => hopsAll qs
  | .negation q => hops q

/-- Number of hops of several queries together. -/
def hopsAll : List (QueryOver E R) → Nat
  | [] => 0
  | q :: qs => hops q + hopsAll qs

end

/-- The hops of a chain after a query. -/
def through (q : QueryOver E R) (relations : List R) : QueryOver E R :=
  relations.foldl .projection q

section Resolve

variable {E' R' ε : Type} (entity : E → Except ε E') (relation : R → Except ε R')

mutual

/-- Replaces every entity and relation, from left to right as they are written; a
projection is written after its source. -/
def resolve : QueryOver E R → Except ε (QueryOver E' R')
  | .entity e => do return .entity (← entity e)
  | .projection q r => do
    let q ← resolve q
    return .projection q (← relation r)
  | .intersection qs => do return .intersection (← resolveAll qs)
  | .union qs => do return .union (← resolveAll qs)
  | .negation q => do return .negation (← resolve q)

/-- The same for several queries, one after the other. -/
def resolveAll : List (QueryOver E R) → Except ε (List (QueryOver E' R'))
  | [] => return []
  | q :: qs => do
    let q ← resolve q
    return q :: (← resolveAll qs)

end

end Resolve

end QueryOver

end MultiHop
