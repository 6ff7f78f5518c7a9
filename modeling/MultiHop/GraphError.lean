/-
MultiHop/GraphError.lean

What can go wrong between a knowledge graph and its scoring model.  Each
constructor is one cause; `GraphError.message` holds the wording of all of them.
-/
import MultiHop.Decimal.Shortest
import MultiHop.Id

namespace MultiHop

/-- A request or a reply that does not fit the graph. -/
inductive Invalid where
  /-- A list of names holds `name` twice. -/
  | duplicateName (name : String)
  /-- A row of tail logits has not one entry per entity. -/
  | rowLength (expected found : Nat)
  /-- A value written as a probability lies outside the unit interval. -/
  | probability (value : Float32)
  /-- The model replied with a wrong number of scores. -/
  | replyLength (found entities : Nat)
  /-- The model replied to a batch with a matrix of the wrong shape. -/
  | batchShape (rows columns heads entities : Nat)
  /-- Fewer than two slots of a link query are filled. -/
  | openSlots
  /-- Model and index cover different numbers of entities or relations. -/
  | modelSize (entities relations indexEntities indexRelations : Nat)
  /-- The same, found when a reasoner is set up. -/
  | scorerSize (entities relations indexEntities indexRelations : Nat)
  /-- Constraints and index cover different numbers of entities or relations. -/
  | constraintSize (entities relations indexEntities indexRelations : Nat)
  /-- Candidates were asked for a link query without an open slot. -/
  | noOpenSlot
  /-- A chain of no relations. -/
  | emptyChain
  /-- A mask over `entities` was put on a vector of another length. -/
  | maskLength (found entities : Nat)
  /-- A confidence outside the unit interval. -/
  | confidence (value : Float32)
  /-- No tail is to be inspected. -/
  | noTails
  /-- An evaluation without test triples. -/
  | noTestTriples
  /-- A vector to rank has not one score per entity. -/
  | rankLength (scores entities : Nat)
  /-- The model refuses the request, in its own words. -/
  | refused (reason : String)
deriving DecidableEq, Repr

/-- Errors of graph look-ups, score handling and model calls. -/
inductive GraphError where
  /-- A text that is not the expected JSON. -/
  | unreadable
  | entityNotFound (name : String)
  | relationNotFound (name : String)
  /-- An entity position at or above the number of entities. -/
  | entityOutOfRange (id : EntityId) (count : Nat)
  /-- A relation position at or above the number of relations. -/
  | relationOutOfRange (id : RelationId) (count : Nat)
  /-- A score that should be a probability and is not. -/
  | notProbability (score : Float32)
  | invalid (cause : Invalid)
deriving DecidableEq, Repr

/-- Wording of a request or reply that does not fit. -/
def Invalid.message : Invalid → String
  | .duplicateName name => s!"duplicate name in vocabulary: {name}"
  | .rowLength expected found => s!"expected {expected} tail logits, got {found}"
  | .probability value => "probability " ++ Decimal.ofSingle value ++ " outside [0, 1]"
  | .replyLength found entities => s!"oracle returned {found} scores for {entities} entities"
  | .batchShape rows columns heads entities =>
    s!"oracle returned a ({rows}, {columns}) batch, expected ({heads}, {entities})"
  | .openSlots => "link query needs at least two of head, relation, tail"
  | .modelSize entities relations indexEntities indexRelations =>
    s!"oracle covers {entities} entities / {relations} relations, " ++
      s!"index has {indexEntities} / {indexRelations}"
  | .scorerSize entities relations indexEntities indexRelations =>
    s!"oracle scores {entities} entities / {relations} relations, " ++
      s!"index has {indexEntities} / {indexRelations}"
  | .constraintSize entities relations indexEntities indexRelations =>
    s!"constraints cover {entities} entities / {relations} relations, " ++
      s!"index has {indexEntities} / {indexRelations}"
  | .noOpenSlot => "top-k needs an open slot; use triple_score for a full triple"
  | .emptyChain => "conjunctive query needs at least one relation"
  | .maskLength found entities =>
    s!"cannot mask {found} scores with constraints over {entities} entities"
  | .confidence value => "confidence must be in [0, 1], got " ++ Decimal.ofSingle value
  | .noTails => "topk must be at least 1"
  | .noTestTriples => "link prediction needs at least one test triple"
  | .rankLength scores entities => s!"{scores} scores for {entities} entities"
  | .refused reason => reason

/-- Wording of an error. -/
def GraphError.message : GraphError → String
  | .unreadable => "Serialization error"
  | .entityNotFound name => s!"Entity not found: {name}"
  | .relationNotFound name => s!"Relation not found: {name}"
  | .entityOutOfRange id count => s!"Entity id {id.index} out of range (num_entities = {count})"
  | .relationOutOfRange id count =>
    s!"Relation id {id.index} out of range (num_relations = {count})"
  | .notProbability score =>
    "Numeric error: score " ++ Decimal.ofSingle score ++
      " outside [0, 1]; calibrate logits before combining"
  | .invalid cause => "Validation error: " ++ cause.message

/-- Whether an error comes from naming an entity or relation that is not there. -/
def GraphError.isLookup : GraphError → Bool
  | .entityNotFound _ | .relationNotFound _
  | .entityOutOfRange _ _ | .relationOutOfRange _ _ => true
  | .unreadable | .notProbability _ | .invalid _ => false

end MultiHop
