/-
MultiHop/Link/Predictor.lean

Link prediction: a model together with the index that names its entities and
relations, and perhaps with constraints on the candidates.
-/
import MultiHop.Fuzzy.Set
import MultiHop.Link.Constraints
import MultiHop.Model

namespace MultiHop

/-- A model, an index of the same sizes and, optionally, constraints of these
sizes. -/
structure LinkPredictor where
  model : Model
  index : Index
  constraints : Option Constraints
  entities_eq : model.entityCount = index.entityCount
  relations_eq : model.relationCount = index.relationCount
  fits : ∀ c ∈ constraints,
    c.entityCount = index.entityCount ∧ c.relationCount = index.relationCount

/-- A candidate for the open slot of a link query. -/
structure Candidate where
  name : String
  position : Nat
  score : Float32
deriving DecidableEq

namespace LinkPredictor

/-- A predictor without constraints; the sizes of model and index must agree. -/
def new (model : Model) (index : Index) : Except GraphError LinkPredictor :=
  match decEq model.entityCount index.entityCount,
    decEq model.relationCount index.relationCount with
  | isTrue hentities, isTrue hrelations =>
    .ok ⟨model, index, none, hentities, hrelations, by simp⟩
  | _, _ =>
    .error (.invalid (.modelSize model.entityCount model.relationCount
      index.entityCount index.relationCount))

/-- The same predictor with constraints, whose sizes must be those of the index. -/
def withConstraints (p : LinkPredictor) (c : Constraints) : Except GraphError LinkPredictor :=
  if h : c.entityCount = p.index.entityCount ∧ c.relationCount = p.index.relationCount then
    .ok { p with constraints := some c, fits := by simpa using h }
  else
    .error (.invalid (.constraintSize c.entityCount c.relationCount
      p.index.entityCount p.index.relationCount))

/-- Logits that the model gives to the open slot: one for each candidate, or the
one of a full triple. -/
def unmasked (p : LinkPredictor) : LinkQuery → Consult GraphError (List Float32)
  | .missingHead r t => p.model.askHeads r t
  | .missingRelation h t => p.model.askRelations h t
  | .missingTail h r => p.model.askTails h r
  | .triple h r t => do return [← p.model.askTriple h r t]

/-- Logits for the open slot, masked by the constraints. -/
def logits (p : LinkPredictor) (q : LinkQuery) : Consult GraphError (List Float32) := do
  let raw ← p.unmasked q
  match p.constraints with
  | some c => c.mask q raw
  | none => return raw

/-- Probabilities for the open slot. -/
def scores [Elementary] (p : LinkPredictor) (q : LinkQuery) :
    Consult GraphError FuzzySet := do
  FuzzySet.ofLogits (← p.logits q)

/-- Name of the candidate at a position of the open slot of `q`. -/
def candidateName (p : LinkPredictor) (q : LinkQuery) (e : EntityId) : Except GraphError String :=
  if q.predictsRelation then p.index.relationName ⟨e.index⟩ else p.index.entityName e

/-- The `k` best candidates for the open slot, best first. -/
def candidates [Elementary] (p : LinkPredictor) (q : LinkQuery) (k : Nat) :
    Consult GraphError (List Candidate) :=
  match q with
  | .triple _ _ _ => .fail (.invalid .noOpenSlot)
  | q => do
    let scores ← p.scores q
    (scores.best k).mapM fun (e, score) => do
      return ⟨← p.candidateName q e, e.index, score⟩

/-- Logit of one triple. -/
def tripleLogit (p : LinkPredictor) (t : Triple) : Consult GraphError Float32 :=
  p.model.askTriple t.head t.relation t.tail

/-- Probability of one triple; it is not admitted but handed out as it comes. -/
def tripleScore [Elementary] (p : LinkPredictor) (t : Triple) :
    Consult GraphError Float32 := do
  return sigmoid (← p.tripleLogit t)

end LinkPredictor

end MultiHop
