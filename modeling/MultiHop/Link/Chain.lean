/-
MultiHop/Link/Chain.lean

Relation chains without scores.  From an anchor, each hop keeps the best tails of
every entity reached so far and goes on from all of them together.
-/
import MultiHop.Link.Predictor

namespace MultiHop

/-- One expansion of a chain: at hop `hop`, `head` led through `relation` to
`tails`, best first. -/
structure Expansion where
  hop : Nat
  head : EntityId
  relation : RelationId
  tails : List EntityId
deriving DecidableEq, Repr

/-- Entities at the end of a chain, ascending, with every expansion on the way in
order of hop and head. -/
structure ChainAnswer where
  answers : List EntityId
  expansions : List Expansion
deriving DecidableEq, Repr

namespace LinkPredictor

/-- The `width` best tails of one head. -/
def bestTails [Elementary] (p : LinkPredictor) (h : EntityId) (r : RelationId)
    (width : Nat) : Consult GraphError (List EntityId) := do
  let scores ← p.scores (.missingTail h r)
  return (scores.best width).map (·.1)

/-- One hop from every entity of the frontier. -/
def expand [Elementary] (p : LinkPredictor) (width hop : Nat) (r : RelationId)
    (frontier : List EntityId) : Consult GraphError (List Expansion) :=
  frontier.mapM fun h => do return ⟨hop, h, r, ← p.bestTails h r width⟩

/-- Entities reached by some expansions, ascending. -/
def reached (expansions : List Expansion) : List EntityId :=
  Ascending.ofList (expansions.flatMap (·.tails))

/-- The hops of a chain, counted from `hop`, starting at a frontier. -/
def follow [Elementary] (p : LinkPredictor) (width : Nat) :
    Nat → List RelationId → List EntityId → Consult GraphError ChainAnswer
  | _, [], frontier => return ⟨frontier, []⟩
  | hop, r :: rs, frontier => do
    let here ← p.expand width hop r frontier
    let rest ← follow p width (hop + 1) rs (reached here)
    return { rest with expansions := here ++ rest.expansions }

/-- The entities that a chain of at least one relation leads to from `anchor`. -/
def chain [Elementary] (p : LinkPredictor) (anchor : EntityId)
    (relations : List RelationId) (width : Nat) : Consult GraphError ChainAnswer :=
  if relations.isEmpty then .fail (.invalid .emptyChain)
  else p.follow width 0 relations [anchor]

/-- The same with names: the anchor and then the relations are looked up first, and
the answers come as names in their own order. -/
def chainByName [Elementary] (p : LinkPredictor) (anchor : String)
    (relations : List String) (width : Nat) : Consult GraphError (List String) := do
  let anchor ← p.index.entity anchor
  let relations ← (relations.mapM p.index.relation : Except GraphError _)
  let found ← p.chain anchor relations width
  let names ← (found.answers.mapM p.index.entityName : Except GraphError _)
  return Ascending.ofList names

end LinkPredictor

end MultiHop
