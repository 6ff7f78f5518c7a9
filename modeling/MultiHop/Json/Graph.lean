/-
MultiHop/Json/Graph.lean

Graph data as JSON: vocabularies, indices, triples, predictions and searches.  A
vocabulary is the array of its names, and every other value is a record.
-/
import MultiHop.Index
import MultiHop.Json.Reader
import MultiHop.Json.Record
import MultiHop.Json.Writer
import MultiHop.Link.FactSearch
import MultiHop.Link.Predictor

namespace MultiHop

/-- A value, if there is one, and otherwise the error of an unreadable text. -/
def readable {α : Type} : Option α → Except GraphError α
  | some a => .ok a
  | none => .error .unreadable

section

variable {α : Type} {found : Option α}

theorem readable_eq_ok_iff {a : α} : readable found = .ok a ↔ found = some a := by
  cases found <;> simp [readable]

/-- What is not read has one error. -/
theorem readable_eq_error (h : ∀ a, readable found ≠ .ok a) :
    readable found = .error .unreadable := by
  cases found with
  | none => rfl
  | some a => exact absurd rfl (h a)

end

/-! ### Vocabularies and indices -/

/-- An array of distinct names. -/
def Vocabulary.ofJson? (v : Json) : Option Vocabulary :=
  match v.list? Json.text? with
  | some names => (Vocabulary.ofNames names).toOption
  | none => none

/-- A vocabulary as an array of names. -/
def Vocabulary.toJson (v : Vocabulary) : Json := .array (v.names.map .ofString)

/-- A record of the entity names and the relation names. -/
def Index.ofJson? (v : Json) : Option Index :=
  match v.record? ["entities", "relations"] with
  | some [es, rs] => do
    let entities ← Json.required? Vocabulary.ofJson? es
    let relations ← Json.required? Vocabulary.ofJson? rs
    return ⟨entities, relations⟩
  | _ => none

/-- An index as an object. -/
def Index.toJson (index : Index) : Json :=
  .object
    [(.ofString "entities", index.entities.toJson),
      (.ofString "relations", index.relations.toJson)]

/-- The index that a text writes. -/
def Index.ofText (s : String) : Except GraphError Index :=
  readable ((Json.ofText? s).bind Index.ofJson?)

/-- Text of an index. -/
def Index.text (index : Index) : String := index.toJson.text

/-- The vocabulary that a text writes. -/
def Vocabulary.ofText (s : String) : Except GraphError Vocabulary :=
  readable ((Json.ofText? s).bind Vocabulary.ofJson?)

/-! ### Positions -/

/-- An entity by its position. -/
def EntityId.ofJson? (v : Json) : Option EntityId := v.count?.map EntityId.mk

/-- A relation by its position. -/
def RelationId.ofJson? (v : Json) : Option RelationId := v.count?.map RelationId.mk

/-- A record of three positions. -/
def Triple.ofJson? (v : Json) : Option Triple :=
  match v.record? ["head", "relation", "tail"] with
  | some [h, r, t] => do
    let head ← Json.required? EntityId.ofJson? h
    let relation ← Json.required? RelationId.ofJson? r
    let tail ← Json.required? EntityId.ofJson? t
    return ⟨head, relation, tail⟩
  | _ => none

/-- The triple that a text writes. -/
def Triple.ofText (s : String) : Except GraphError Triple :=
  readable ((Json.ofText? s).bind Triple.ofJson?)

/-! ### Predictions and searches -/

/-- A record of name, position and score. -/
def Candidate.ofJson? (v : Json) : Option Candidate :=
  match v.record? ["name", "id", "score"] with
  | some [n, i, s] => do
    let name ← Json.required? Json.text? n
    let position ← Json.required? Json.count? i
    let score ← Json.required? Json.single? s
    return ⟨name, position, score⟩
  | _ => none

/-- The prediction that a text writes. -/
def Candidate.ofText (s : String) : Except GraphError Candidate :=
  readable ((Json.ofText? s).bind Candidate.ofJson?)

/-- A record of which every field may be missing. -/
def FactSearch.ofJson? (v : Json) : Option FactSearch :=
  match v.record? ["confidence", "topk", "at_most", "entities", "relations"] with
  | some [c, k, n, es, rs] => do
    let usual := FactSearch.standard
    let confidence ← Json.withDefault? usual.confidence Json.single? c
    let tails ← Json.withDefault? usual.tails Json.count? k
    let limit ← Json.withDefault? usual.limit Json.count? n
    let entities ←
      Json.withDefault? usual.entities (Json.optional? (Json.list? EntityId.ofJson?)) es
    let relations ←
      Json.withDefault? usual.relations (Json.optional? (Json.list? RelationId.ofJson?)) rs
    return ⟨confidence, tails, limit, entities, relations⟩
  | _ => none

/-- The search that a text writes. -/
def FactSearch.ofText (s : String) : Except GraphError FactSearch :=
  readable ((Json.ofText? s).bind FactSearch.ofJson?)

end MultiHop
