/-
MultiHop/Query/Hop.lean

Single hops.  Positions are checked before the model is called, predictions are
counted as they are issued, replies are checked for their size, and logits leave as
degrees of membership.
-/
import MultiHop.Fuzzy.Set
import MultiHop.Model

namespace MultiHop.Model

/-- Checked logits of all tails of one head. -/
def hopLogits (m : Model) (h : EntityId) (r : RelationId) :
    Consult GraphError (List Float32) := do
  m.checkEntity h
  m.checkRelation r
  .issuing 1
  let logits ← m.askTails h r
  if logits.length = m.entityCount then return logits
  else .fail (.invalid (.replyLength logits.length m.entityCount))

/-- What one head leads to. -/
def hop [Elementary] (m : Model) (h : EntityId) (r : RelationId) :
    Consult GraphError FuzzySet := do
  FuzzySet.ofLogits (← m.hopLogits h r)

/-- What each of several heads leads to. -/
def hops [Elementary] (m : Model) (heads : List EntityId) (r : RelationId) :
    Consult GraphError (List FuzzySet) := do
  (heads.forM m.checkEntity : Except GraphError Unit)
  m.checkRelation r
  .issuing heads.length
  let batch ← m.askBatch heads r
  if batch.rows.length = heads.length ∧ batch.columns = m.entityCount then
    (batch.rows.mapM FuzzySet.ofLogits : Except GraphError _)
  else
    .fail (.invalid (.batchShape batch.rows.length batch.columns heads.length m.entityCount))

end MultiHop.Model
