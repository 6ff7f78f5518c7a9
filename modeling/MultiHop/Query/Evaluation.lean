/-
MultiHop/Query/Evaluation.lean

Evaluation of logical queries over a model.  Every query denotes a fuzzy set: an
anchor is its own singleton, a hop from an anchor is one prediction, any other hop
goes through a beam, and the connectives work degree by degree.  Each set is admitted
before it is handed on.

Any settings will do here, also those that leave a beam as wide as the graph; which
settings fit a graph is for the reasoner to say.
-/
import MultiHop.Query.Basic
import MultiHop.Query.Beam
import MultiHop.Query.Error

namespace MultiHop

/-- An evaluation: it consults the model, may fail, and may break off. -/
abbrev Evaluation (α : Type) := Consult (Fault QueryError) α

namespace Evaluation

/-- An evaluation whose errors are those of the graph. -/
def ofGraph {α : Type} (x : Consult GraphError α) : Evaluation α :=
  x.mapError fun e => .error (.graph e)

/-- A malformed query has no scores. -/
def malformed {α : Type} (cause : Malformed) : Evaluation α :=
  .fail (.error (.malformed cause))

end Evaluation

namespace Model

open Evaluation (ofGraph malformed)

mutual

/-- Degrees to which all entities answer a query. -/
def evaluate [Elementary] (m : Model) (s : Settings) : Query → Evaluation FuzzySet
  | .entity e => ofGraph (.ofExcept (FuzzySet.singleton m.entityCount e))
  | .projection (.entity h) r => ofGraph (m.hop h r)
  | .projection q r => do
    let source ← evaluate m s q
    ((Beam.ofSet source s.width).hop m r s.tnorm).mapError (Fault.map .graph)
  | .intersection [] => malformed (.noOperands .intersection)
  | .intersection (q :: qs) => do
    let first ← evaluate m s q
    let all ← evaluateOn m s s.tnorm.meet first.degrees qs
    ofGraph (.ofExcept (FuzzySet.ofDegrees all))
  | .union [] => malformed (.noOperands .union)
  | .union (q :: qs) => do
    let first ← evaluate m s q
    let all ← evaluateOn m s s.tnorm.join first.degrees qs
    ofGraph (.ofExcept (FuzzySet.ofDegrees all))
  | .negation q => do
    let source ← evaluate m s q
    ofGraph (.ofExcept (FuzzySet.ofDegrees (source.degrees.map (s.negation.complement s.lambda))))

/-- Combines the numbers so far with the degrees of further operands, one operand
after the other. -/
def evaluateOn [Elementary] (m : Model) (s : Settings) (op : Float32 → Float32 → Float32)
    (sofar : List Float32) : List Query → Evaluation (List Float32)
  | [] => return sofar
  | q :: qs => do
    let next ← evaluate m s q
    let sofar ← Consult.mapError .breach (.ofExcept (combine op sofar next.degrees))
    evaluateOn m s op sofar qs

end

end Model

end MultiHop
