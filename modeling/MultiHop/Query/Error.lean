/-
MultiHop/Query/Error.lean

What can go wrong when a query is asked.  Each constructor is one cause, and
`QueryError.message` holds the wording of all of them.
-/
import MultiHop.Query.Kind
import MultiHop.Query.Payload
import MultiHop.Query.Settings

namespace MultiHop

/-- A connective of several operands. -/
inductive Connective where
  | intersection
  | union
deriving DecidableEq, Repr

/-- Name of a connective in messages. -/
def Connective.name : Connective → String
  | intersection => "intersection"
  | union => "union"

/-- What makes a query malformed. -/
inductive Malformed where
  /-- The payload is not laid out like the queries of its kind. -/
  | mismatch (kind : QueryKind) (m : Payload.Mismatch)
  /-- A payload fits a shape that is not that of any query. -/
  | noQuery (shape : Shape) (payload : Payload)
  /-- A connective has no operands. -/
  | noOperands (connective : Connective)
deriving DecidableEq, Repr

/-- Wording of a malformed query. -/
def Malformed.message : Malformed → String
  | .mismatch kind m => kind.tag ++ ": " ++ m.message
  | .noQuery shape payload => "cannot bind " ++ payload.text ++ " to " ++ shape.text
  | .noOperands connective => connective.name ++ " without operands"

/-- Errors of asking a query. -/
inductive QueryError where
  /-- No kind of query has this tag. -/
  | unknownKind (tag : String)
  /-- A text is no shape. -/
  | unreadableShape (e : Shape.ReadError)
  /-- No kind of query has this shape. -/
  | unknownShape (shape : Shape)
  | malformed (cause : Malformed)
  | settings (cause : SettingsError)
  /-- The graph or its model refuses. -/
  | graph (e : GraphError)
deriving DecidableEq, Repr

/-- Which side is at fault. -/
inductive ErrorKind where
  /-- Kind of query, payload or settings. -/
  | configuration
  /-- An entity or a relation that is not there. -/
  | lookup
  /-- A score that should be a probability and is not. -/
  | numeric
deriving DecidableEq, Repr

namespace QueryError

/-- Wording of an error. -/
def message : QueryError → String
  | .unknownKind tag => "Unknown query type: " ++ tag
  | .unreadableShape e => "Unknown query structure: " ++ e.message
  | .unknownShape shape => "Unknown query structure: " ++ shape.text
  | .malformed cause => "Malformed query: " ++ cause.message
  | .settings cause => "Invalid configuration: " ++ cause.message
  | .graph e => "KG error: " ++ e.message

/-- The side at fault. -/
def kind : QueryError → ErrorKind
  | .graph e =>
    if e.isLookup then .lookup
    else
      match e with
      | .notProbability _ => .numeric
      | _ => .configuration
  | .unknownKind _ | .unreadableShape _ | .unknownShape _ | .malformed _ | .settings _ =>
    .configuration

end QueryError

/-- The kind that a tag asks for. -/
def QueryKind.ofSpelling (tag : String) : Except QueryError QueryKind :=
  match ofSpelling? tag with
  | some k => .ok k
  | none => .error (.unknownKind tag)

/-- The kind of a shape. -/
def QueryKind.ofShape (s : Shape) : Except QueryError QueryKind :=
  match ofShape? s with
  | some k => .ok k
  | none => .error (.unknownShape s)

/-- The shape that a text denotes. -/
def Shape.read (s : String) : Except QueryError Shape :=
  match Shape.ofText s with
  | .ok shape => .ok shape
  | .error e => .error (.unreadableShape e)

end MultiHop
