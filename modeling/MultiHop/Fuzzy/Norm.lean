/-
MultiHop/Fuzzy/Norm.lean

Fuzzy conjunction, disjunction and negation of probabilities.  A t-norm is the AND
of two degrees of truth and comes with the OR that is dual to it; negations are a
family of their own, two of which take a parameter.
-/
import MultiHop.Fault
import MultiHop.Score.Probability

namespace MultiHop

/-- A conjunction with its dual disjunction. -/
inductive TNorm where
  /-- Smaller and larger of the two. -/
  | minimum
  /-- Product and probabilistic sum. -/
  | product
deriving DecidableEq, Repr

namespace TNorm

/-- Name of a t-norm in a configuration. -/
def name : TNorm → String
  | minimum => "min"
  | product => "prod"

/-- All t-norms. -/
def all : List TNorm := [minimum, product]

/-- The t-norm of a name. -/
def ofName? (s : String) : Option TNorm := all.find? fun t => t.name == s

/-- Degree of truth of `a` and `b`. -/
def meet : TNorm → Float32 → Float32 → Float32
  | minimum, a, b => smaller a b
  | product, a, b => a * b

/-- Degree of truth of `a` or `b`.  The probabilistic sum `a + b - a * b` is computed
from the complements, which keeps it within the unit interval. -/
def join : TNorm → Float32 → Float32 → Float32
  | minimum, a, b => larger a b
  | product, a, b => 1 - (1 - a) * (1 - b)

theorem ofName?_name (t : TNorm) : ofName? t.name = some t := by cases t <;> decide

end TNorm

/-- Combines two vectors entry by entry; their lengths must agree. -/
def combine (op : Float32 → Float32 → Float32) (xs ys : List Float32) :
    Except Breach (List Float32) :=
  if xs.length = ys.length then .ok (xs.zipWith op ys)
  else .error (.lengthsDiffer xs.length ys.length)

/-- A negation of degrees of truth. -/
inductive Negation where
  | standard
  | sugeno
  | yager
deriving DecidableEq, Repr

namespace Negation

/-- Name of a negation in a configuration. -/
def name : Negation → String
  | standard => "standard"
  | sugeno => "sugeno"
  | yager => "yager"

/-- All negations. -/
def all : List Negation := [standard, sugeno, yager]

/-- The negation of a name. -/
def ofName? (s : String) : Option Negation := all.find? fun n => n.name == s

/-- Sugeno's negation, in any arithmetic. -/
def sugenoOf {α : Type} [OfNat α 1] [Add α] [Sub α] [Mul α] [Div α] (lambda a : α) : α :=
  (1 - a) / (1 + lambda * a)

/-- Degree of truth of not `a`. -/
def complement [Elementary] (n : Negation) (lambda a : Float32) : Float32 :=
  match n with
  | standard => 1 - a
  | sugeno => sugenoOf lambda a
  | yager => Elementary.pow (1 - Elementary.pow a lambda) (1 / lambda)

theorem ofName?_name (n : Negation) : ofName? n.name = some n := by cases n <;> decide

end Negation

end MultiHop
