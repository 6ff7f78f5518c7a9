/-
MultiHop/LogitTable.lean

A scoring model given by a table: one row of tail logits for each pair of head and
relation that was set, and one default logit for all that were not.  A row that is
set again is replaced.

Setting a row changes the table where it stands, so it is described by how it ends and by
the table as it is afterwards.
-/
import MultiHop.Model
import MultiHop.Score.Probability

namespace MultiHop

/-- Rows of tail logits by head and relation. -/
structure LogitTable where
  entityCount : Nat
  relationCount : Nat
  /-- Logit of every tail of a row that was not set. -/
  defaultLogit : Float32
  /-- Rows that were set, the latest first. -/
  rows : List ((EntityId × RelationId) × Vector Float32 entityCount)

namespace LogitTable

/-- The usual default logit; it stands for a probability of about `4.5e-5`. -/
def usualLogit : Float32 := -10

/-- A table without rows. -/
def empty (entityCount relationCount : Nat) (defaultLogit : Float32) : LogitTable :=
  ⟨entityCount, relationCount, defaultLogit, []⟩

/-- The row for `head` and `relation`. -/
def row (t : LogitTable) (head : EntityId) (relation : RelationId) :
    Vector Float32 t.entityCount :=
  (t.rows.lookup (head, relation)).getD (Vector.replicate t.entityCount t.defaultLogit)

/-- Refuses an entity that the table does not cover. -/
def checkEntity (t : LogitTable) (e : EntityId) : Except GraphError Unit :=
  if e.index < t.entityCount then .ok () else .error (.entityOutOfRange e t.entityCount)

/-- Refuses a relation that the table does not cover. -/
def checkRelation (t : LogitTable) (r : RelationId) : Except GraphError Unit :=
  if r.index < t.relationCount then .ok () else .error (.relationOutOfRange r t.relationCount)

/-- The entries `logits` as a row for `head` and `relation`, if the table has such a row. -/
def checkRow (t : LogitTable) (head : EntityId) (relation : RelationId)
    (logits : List Float32) : Except GraphError (Vector Float32 t.entityCount) := do
  t.checkEntity head
  t.checkRelation relation
  if fits : logits.length = t.entityCount then
    return ⟨logits.toArray, by simpa using fits⟩
  else
    .error (.invalid (.rowLength t.entityCount logits.length))

/-- Sets the row for `head` and `relation`, once it has passed all checks. -/
def insert (t : LogitTable) (head : EntityId) (relation : RelationId)
    (logits : List Float32) : Except GraphError Unit × LogitTable :=
  match t.checkRow head relation logits with
  | .ok row => (.ok (), { t with rows := ((head, relation), row) :: t.rows })
  | .error e => (.error e, t)

/-- Sets the row for `head` and `relation` to the log-odds of `probabilities`; the
first of them outside the unit interval is refused before anything else is
looked at. -/
def insertProbabilities [Elementary] (t : LogitTable) (head : EntityId)
    (relation : RelationId) (probabilities : List Float32) :
    Except GraphError Unit × LogitTable :=
  match probabilities.find? fun p => !decide (IsProbability p) with
  | some p => (.error (.invalid (.probability p)), t)
  | none => t.insert head relation (probabilities.map logit)

/-- The table as a model: positions are checked in the order head, relation,
tail. -/
def model (t : LogitTable) : Model where
  entityCount := t.entityCount
  relationCount := t.relationCount
  tails h r := do
    t.checkEntity h
    t.checkRelation r
    return (t.row h r).toList
  triple h r e := do
    t.checkEntity h
    t.checkRelation r
    if bound : e.index < t.entityCount then
      return (t.row h r)[e.index]
    else
      .error (.entityOutOfRange e t.entityCount)

end LogitTable

end MultiHop
