/-
MultiHop/Json/Query.lean

Query data as JSON: payloads, settings, kinds, queries and answers.  A payload is
nested arrays of strings and nothing else.  A query is an object with the name of
its connective as the only key.
-/
import MultiHop.Json.Graph
import MultiHop.Query.Answer
import MultiHop.Query.Basic
import MultiHop.Query.Error

namespace MultiHop

/-! ### Payloads -/

namespace Payload

mutual

/-- Nested arrays of strings. -/
def ofJson? : Json → Option Payload
  | .string s => s.text?.map .name
  | .array items => (ofItems? items).map .tuple
  | .null | .bool _ | .number _ | .object _ => none

/-- The items of an array, one after the other. -/
def ofItems? : List Json → Option (List Payload)
  | [] => some []
  | v :: vs =>
    match ofJson? v, ofItems? vs with
    | some p, some ps => some (p :: ps)
    | _, _ => none

end

mutual

/-- A name as a string, a tuple as an array. -/
def toJson : Payload → Json
  | .name s => .ofString s
  | .tuple items => .array (itemsToJson items)

/-- The items of a tuple. -/
def itemsToJson : List Payload → List Json
  | [] => []
  | p :: ps => toJson p :: itemsToJson ps

end

/-- The payload that a text writes. -/
def ofText (s : String) : Except GraphError Payload :=
  readable <|
    match Json.ofText? s with
    | some v => if v.depth ≤ Json.depthLimit then ofJson? v else none
    | none => none

end Payload

/-! ### Settings and kinds -/

/-- The t-norm of a name. -/
def TNorm.ofJson? (v : Json) : Option TNorm := v.choice?.bind TNorm.ofName?

/-- The negation of a name. -/
def Negation.ofJson? (v : Json) : Option Negation := v.choice?.bind Negation.ofName?

/-- A record of which every field may be missing. -/
def Settings.ofJson? (v : Json) : Option Settings :=
  match v.record? ["tnorm", "neg_norm", "lambda", "k", "only_scores"] with
  | some [t, n, l, k, o] => do
    let usual := Settings.standard
    let tnorm ← Json.withDefault? usual.tnorm TNorm.ofJson? t
    let negation ← Json.withDefault? usual.negation Negation.ofJson? n
    let lambda ← Json.withDefault? usual.lambda Json.single? l
    let width ← Json.withDefault? usual.width Json.count? k
    let onlyScores ← Json.withDefault? usual.onlyScores Json.bool? o
    return ⟨tnorm, negation, lambda, width, onlyScores⟩
  | _ => none

/-- The settings that a text writes. -/
def Settings.ofText (s : String) : Except SettingsError Settings :=
  match (Json.ofText? s).bind Settings.ofJson? with
  | some settings => .ok settings
  | none => .error .unreadable

/-- The kind of a tag. -/
def QueryKind.ofJson? (v : Json) : Option QueryKind := v.choice?.bind QueryKind.ofTag?

/-- The kind that a text writes. -/
def QueryKind.ofText (s : String) : Except GraphError QueryKind :=
  readable ((Json.ofText? s).bind QueryKind.ofJson?)

/-! ### Queries and answers -/

namespace Query

/-- What the only key of an object says. -/
inductive Head where
  | entity
  | projection
  | intersection
  | union
  | negation
deriving DecidableEq, Repr

/-- The connective of a key. -/
def head? (key : Json.Literal) : Option Head :=
  match key.text? with
  | some "Entity" => some .entity
  | some "Projection" => some .projection
  | some "Intersection" => some .intersection
  | some "Union" => some .union
  | some "Negation" => some .negation
  | _ => none

mutual

/-- An object with the name of a connective as its only key: a position, a pair of
query and relation, an array of queries, or a query. -/
def ofJson? : Json → Option Query
  | .object [(key, v)] =>
    match head? key, v with
    | some .entity, v => (EntityId.ofJson? v).map .entity
    | some .projection, .array [q, r] =>
      match ofJson? q, RelationId.ofJson? r with
      | some q, some r => some (.projection q r)
      | _, _ => none
    | some .intersection, .array items => (ofItems? items).map .intersection
    | some .union, .array items => (ofItems? items).map .union
    | some .negation, v => (ofJson? v).map .negation
    | _, _ => none
  | _ => none

/-- The items of an array, one after the other. -/
def ofItems? : List Json → Option (List Query)
  | [] => some []
  | v :: vs =>
    match ofJson? v, ofItems? vs with
    | some q, some qs => some (q :: qs)
    | _, _ => none

end

/-- The query that a text writes. -/
def ofText (s : String) : Except GraphError Query :=
  readable <|
    match Json.ofText? s with
    | some v => if v.depth ≤ Json.depthLimit then ofJson? v else none
    | none => none

end Query

/-- A record of position, name and score. -/
def Answer.ofJson? (v : Json) : Option Answer :=
  match v.record? ["entity", "name", "score"] with
  | some [e, n, s] => do
    let entity ← Json.required? EntityId.ofJson? e
    let name ← Json.required? Json.text? n
    let score ← Json.required? Json.single? s
    return ⟨entity, name, score⟩
  | _ => none

/-- The answer that a text writes. -/
def Answer.ofText (s : String) : Except GraphError Answer :=
  readable ((Json.ofText? s).bind Answer.ofJson?)

end MultiHop
