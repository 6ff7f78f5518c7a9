/-
MultiHop/Query/Binding.lean

From payloads to queries.  A tuple is a row of sibling queries with a closing: hops
that the row is sent through, a union mark that joins it, or nothing, in which case
the siblings are intersected.  A payload is first compared with the whole shape of
its kind; only then are its names looked up, from left to right.
-/
import MultiHop.Index
import MultiHop.Query.Basic
import MultiHop.Query.Error

namespace MultiHop

namespace Payload

/-- One step of a closing chain. -/
inductive Step where
  | hop (relation : String)
  | negate
deriving DecidableEq, Repr

/-- Takes one step after a query. -/
def Step.after (q : NamedQuery) : Step → NamedQuery
  | .hop r => .projection q r
  | .negate => .negation q

/-- How a row of siblings is closed. -/
inductive Closing where
  | intersection
  | union
  | chain (steps : List Step)
deriving DecidableEq, Repr

/-- Sibling queries with their closing. -/
structure Row where
  siblings : List NamedQuery
  closing : Closing

/-- The query that a row stands for; a chain after a single sibling goes straight
through it. -/
def Row.query (row : Row) : NamedQuery :=
  match row.closing, row.siblings with
  | .intersection, qs => .intersection qs
  | .union, qs => .union qs
  | .chain steps, [q] => steps.foldl Step.after q
  | .chain steps, qs => steps.foldl Step.after (.intersection qs)

/-- Steps of a chain: a name at each `r`, a marker at each `n`. -/
def steps? : List Shape → List Payload → Option (List Step)
  | [], [] => some []
  | .symbol .relation :: shapes, .name r :: items => (steps? shapes items).map (.hop r :: ·)
  | .symbol .negation :: shapes, _ :: items => (steps? shapes items).map (.negate :: ·)
  | _, _ => none

mutual

/-- The query over names that a payload of a given shape stands for; not every shape
is that of a query. -/
def query? : Shape → Payload → Option NamedQuery
  | .symbol .entity, .name a => some (.entity a)
  | .tuple shapes, .tuple items => (row? shapes items).map Row.query
  | _, _ => none

/-- The row of siblings that the items of a tuple stand for. -/
def row? : List Shape → List Payload → Option Row
  | [], [] => some ⟨[], .intersection⟩
  | [.tuple (.symbol .relation :: shapes)], [.tuple items] =>
    (steps? (.symbol .relation :: shapes) items).map fun steps => ⟨[], .chain steps⟩
  | [.tuple (.symbol .union :: _)], [_] => some ⟨[], .union⟩
  | shape :: shapes, item :: items =>
    match query? shape item, row? shapes items with
    | some q, some row => some ⟨q :: row.siblings, row.closing⟩
    | _, _ => none
  | _, _ => none

end

end Payload

/-- The query over names of a kind and a payload. -/
def NamedQuery.ofPayload (kind : QueryKind) (payload : Payload) :
    Except Malformed NamedQuery :=
  match Payload.fit [] kind.shape payload with
  | .error m => .error (.mismatch kind m)
  | .ok () =>
    match Payload.query? kind.shape payload with
    | some q => .ok q
    | none => .error (.noQuery kind.shape payload)

/-- The query over positions of a kind and a payload. -/
def Query.ofPayload (kind : QueryKind) (payload : Payload) (index : Index) :
    Except QueryError Query :=
  match NamedQuery.ofPayload kind payload with
  | .error cause => .error (.malformed cause)
  | .ok q =>
    match q.resolve index.entity index.relation with
    | .ok q => .ok q
    | .error e => .error (.graph e)

end MultiHop
