/-
MultiHop/Query/Reasoner.lean

Reasoners.  A reasoner holds a model, the index that names its entities and
relations, and settings, which all fit together.  It is asked with a query over
positions, or with a tag and a payload of names.

A reasoner at work is a session: it carries what it has asked of its model so far, and
every way of asking leaves a session in which this has been counted, whether or not
there was an answer.
-/
import MultiHop.Query.Answer
import MultiHop.Query.Binding
import MultiHop.Query.Evaluation

namespace MultiHop

/-- A model, an index of the same sizes, and settings that fit them. -/
structure Reasoner where
  model : Model
  index : Index
  settings : Settings
  usable : settings.validate index.entityCount = .ok ()
  entities_eq : model.entityCount = index.entityCount
  relations_eq : model.relationCount = index.relationCount

namespace Reasoner

/-- Sets a reasoner up: the settings are checked first, then the sizes. -/
def new (model : Model) (index : Index) (settings : Settings) : Except QueryError Reasoner :=
  match usable : settings.validate index.entityCount with
  | .error e => .error (.settings e)
  | .ok () =>
    if h : model.entityCount = index.entityCount ∧ model.relationCount = index.relationCount then
      .ok ⟨model, index, settings, usable, h.1, h.2⟩
    else
      .error (.graph (.invalid (.scorerSize model.entityCount model.relationCount
        index.entityCount index.relationCount)))

/-! ### Ways of asking -/

/-- Degrees to which all entities answer a query. -/
def evaluate [Elementary] (r : Reasoner) (q : Query) : Evaluation FuzzySet :=
  r.model.evaluate r.settings q

/-- Degree to which one entity answers a query. -/
def degree [Elementary] (r : Reasoner) (q : Query) (e : EntityId) : Evaluation Float32 := do
  let answers ← r.evaluate q
  match answers.degree? e with
  | some p => return p
  | none => .fail (.error (.graph (.entityOutOfRange e answers.size)))

/-- Answers to a query over positions, best first. -/
def rankedAnswers [Elementary] (r : Reasoner) (q : Query) : Evaluation (List Answer) := do
  Evaluation.ofGraph (.ofExcept ((← r.evaluate q).ranked r.index))

/-- The `k` best answers. -/
def best [Elementary] (r : Reasoner) (q : Query) (k : Nat) : Evaluation (List Answer) := do
  return (← r.rankedAnswers q).take k

/-- The query over positions that a tag and a payload ask for. -/
def query (r : Reasoner) (tag : String) (payload : Payload) : Except QueryError Query := do
  let kind ← QueryKind.ofSpelling tag
  Query.ofPayload kind payload r.index

/-- Answer to a tag and a payload, in the form that the settings want. -/
def answer [Elementary] (r : Reasoner) (tag : String) (payload : Payload) :
    Evaluation QueryResult := do
  let q ← Consult.mapError .error (.ofExcept (r.query tag payload))
  if r.settings.onlyScores then
    return .scores (← r.evaluate q)
  else
    return .ranked (← r.rankedAnswers q)

/-! ### Sessions -/

/-- A reasoner at work, with what it has asked of its model so far. -/
structure Session where
  reasoner : Reasoner
  used : Usage

/-- A reasoner that has not asked its model for anything. -/
def start (r : Reasoner) : Session := ⟨r, .nothing⟩

/-- What a reasoner can be asked. -/
inductive Request where
  | evaluate (q : Query)
  | degree (q : Query) (e : EntityId)
  | best (q : Query) (k : Nat)
  | answer (tag : String) (payload : Payload)

namespace Session

/-- Goes on counting through an evaluation. -/
def consult {α : Type} (s : Session) (x : Evaluation α) :
    Except (Fault QueryError) α × Session :=
  let (result, used) := x.runFrom s.used
  (result, { s with used })

variable [Elementary]

def evaluate (s : Session) (q : Query) : Except (Fault QueryError) FuzzySet × Session :=
  s.consult (s.reasoner.evaluate q)

def degree (s : Session) (q : Query) (e : EntityId) :
    Except (Fault QueryError) Float32 × Session :=
  s.consult (s.reasoner.degree q e)

def best (s : Session) (q : Query) (k : Nat) :
    Except (Fault QueryError) (List Answer) × Session :=
  s.consult (s.reasoner.best q k)

def answer (s : Session) (tag : String) (payload : Payload) :
    Except (Fault QueryError) QueryResult × Session :=
  s.consult (s.reasoner.answer tag payload)

/-- The session after a request, however that ends. -/
def serve (s : Session) : Request → Session
  | .evaluate q => (s.evaluate q).2
  | .degree q e => (s.degree q e).2
  | .best q k => (s.best q k).2
  | .answer tag payload => (s.answer tag payload).2

end Session

/-- A reasoner after a history of requests, the first one first. -/
def after [Elementary] (r : Reasoner) (history : List Request) : Session :=
  history.foldl Session.serve r.start

end Reasoner

/-- Answers a query in one go.  Settings, sizes, tag, layout of the payload and names
are checked in this order, all before the model is called. -/
def Model.answer [Elementary] (model : Model) (index : Index) (tag : String)
    (payload : Payload) (settings : Settings) : Evaluation QueryResult := do
  let r ← Consult.mapError .error (.ofExcept (Reasoner.new model index settings))
  r.answer tag payload

end MultiHop
