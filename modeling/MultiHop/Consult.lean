/-
MultiHop/Consult.lean

Computations that consult a scoring model.  Such a computation has a result and a
trace of what it asked for: the calls that the model received, in order, and the
number of single-hop predictions that were issued.  The trace is part of the
value, also of one that ends in an error, so what a query costs and when a model
is first touched are facts about it like any other.
-/
import MultiHop.Id

namespace MultiHop

/-- A call that a scoring model receives. -/
inductive Call where
  /-- Scores of all tails. -/
  | tails (head : EntityId) (relation : RelationId)
  /-- The score of one triple. -/
  | triple (head : EntityId) (relation : RelationId) (tail : EntityId)
  /-- Scores of all heads, by a model that has a way of its own for this. -/
  | heads (relation : RelationId) (tail : EntityId)
  /-- Scores of all relations, by a model that has a way of its own for this. -/
  | relations (head : EntityId) (tail : EntityId)
  /-- Scores of all tails of several heads, by a model that has a way of its own for this. -/
  | batch (heads : List EntityId) (relation : RelationId)
deriving DecidableEq, Repr

/-- What a computation has asked for. -/
@[ext]
structure Usage where
  /-- Calls received by the model, the first one first. -/
  calls : List Call
  /-- Single-hop predictions issued; a batch counts one for each head. -/
  predictions : Nat
deriving DecidableEq, Repr

namespace Usage

/-- Nothing was asked for. -/
def nothing : Usage := ⟨[], 0⟩

/-- First `a`, then `b`. -/
def append (a b : Usage) : Usage := ⟨a.calls ++ b.calls, a.predictions + b.predictions⟩

instance : Append Usage := ⟨append⟩

@[simp] theorem calls_nothing : nothing.calls = [] := rfl

@[simp] theorem predictions_nothing : nothing.predictions = 0 := rfl

@[simp] theorem calls_append (a b : Usage) : (a ++ b).calls = a.calls ++ b.calls := rfl

@[simp] theorem predictions_append (a b : Usage) :
    (a ++ b).predictions = a.predictions + b.predictions := rfl

@[simp] theorem nothing_append (a : Usage) : nothing ++ a = a := by ext1 <;> simp

@[simp] theorem append_nothing (a : Usage) : a ++ nothing = a := by ext1 <;> simp

theorem append_assoc (a b c : Usage) : a ++ b ++ c = a ++ (b ++ c) := by
  ext1 <;> simp [Nat.add_assoc]

end Usage

/-- A computation that consults a model: what it asked for, and how it ended. -/
@[ext]
structure Consult (ε α : Type) where
  usage : Usage
  result : Except ε α

namespace Consult

variable {ε δ α β : Type}

/-- The answer `a`, without asking for anything. -/
def pure (a : α) : Consult ε α := ⟨.nothing, .ok a⟩

/-- The error `e`, without asking for anything. -/
def fail (e : ε) : Consult ε α := ⟨.nothing, .error e⟩

/-- A result that needs no model. -/
def ofExcept (r : Except ε α) : Consult ε α := ⟨.nothing, r⟩

/-- First `x`, then `f` on its answer; an error of `x` ends the whole. -/
def bind (x : Consult ε α) (f : α → Consult ε β) : Consult ε β :=
  match x.result with
  | .ok a => ⟨x.usage ++ (f a).usage, (f a).result⟩
  | .error e => ⟨x.usage, .error e⟩

instance : Monad (Consult ε) where
  pure := pure
  bind := bind

instance : MonadLift (Except ε) (Consult ε) := ⟨ofExcept⟩

/-- Makes the call `c`, to which the reply is `r`.  The call is on the trace
whether or not the reply is an error. -/
def asking (c : Call) (r : Except ε α) : Consult ε α := ⟨⟨[c], 0⟩, r⟩

/-- Counts `n` single-hop predictions. -/
def issuing (n : Nat) : Consult ε Unit := ⟨⟨[], n⟩, .ok ()⟩

/-- Rewords the error. -/
def mapError (f : ε → δ) (x : Consult ε α) : Consult δ α :=
  ⟨x.usage, match x.result with
    | .ok a => .ok a
    | .error e => .error (f e)⟩

/-- Runs `x` for one who has asked for `used` already: how that ends, and what has been
asked for by then. -/
def runFrom (x : Consult ε α) (used : Usage) : Except ε α × Usage :=
  (x.result, used ++ x.usage)

/-! ### Computation rules -/

theorem bind_of_ok {x : Consult ε α} {a : α} (h : x.result = .ok a) (f : α → Consult ε β) :
    x >>= f = ⟨x.usage ++ (f a).usage, (f a).result⟩ := by
  show bind x f = _
  unfold bind; rw [h]

theorem bind_of_error {x : Consult ε α} {e : ε} (h : x.result = .error e)
    (f : α → Consult ε β) : x >>= f = ⟨x.usage, .error e⟩ := by
  show bind x f = _
  unfold bind; rw [h]

/-- A sequence has an answer when both of its parts have one. -/
theorem result_bind_eq_ok_iff {x : Consult ε α} {f : α → Consult ε β} {b : β} :
    (x >>= f).result = .ok b ↔ ∃ a, x.result = .ok a ∧ (f a).result = .ok b := by
  cases hx : x.result with
  | ok a => simp [bind_of_ok hx]
  | error e => simp [bind_of_error hx]

@[simp] theorem usage_mapError (f : ε → δ) (x : Consult ε α) :
    (mapError f x).usage = x.usage := rfl

theorem result_mapError_eq_ok_iff {f : ε → δ} {x : Consult ε α} {a : α} :
    (mapError f x).result = .ok a ↔ x.result = .ok a := by
  cases hx : x.result <;> simp [mapError, hx]

/-! ### Running counts

A count that is carried along and raised with each call and each prediction ends where
the trace of the whole computation says. -/

theorem runFrom_asking (c : Call) (r : Except ε α) (used : Usage) :
    (asking c r).runFrom used = (r, ⟨used.calls ++ [c], used.predictions⟩) := rfl

theorem runFrom_issuing (n : Nat) (used : Usage) :
    (issuing n : Consult ε Unit).runFrom used = (.ok (), ⟨used.calls, used.predictions + n⟩) := by
  show (Except.ok (), (⟨used.calls ++ [], used.predictions + n⟩ : Usage)) = _
  rw [List.append_nil]

/-- The second computation goes on counting where the first one has stopped. -/
theorem runFrom_bind (x : Consult ε α) (f : α → Consult ε β) (used : Usage) :
    (x >>= f).runFrom used =
      match x.runFrom used with
      | (.ok a, used) => (f a).runFrom used
      | (.error e, used) => (.error e, used) := by
  unfold runFrom
  cases h : x.result with
  | ok a =>
    rw [bind_of_ok h]
    exact congrArg (Prod.mk _) (Usage.append_assoc _ _ _).symm
  | error e => rw [bind_of_error h]

/-! ### Laws -/

instance : LawfulMonad (Consult ε) := LawfulMonad.mk' _
  (fun x => by
    show bind x (fun a => pure (id a)) = x
    unfold bind; split <;> ext1 <;> simp_all [pure])
  (fun a f => by
    show bind (pure a) f = f a
    unfold bind; ext1 <;> simp [pure])
  (fun x f g => by
    show bind (bind x f) g = bind x (fun a => bind (f a) g)
    unfold bind
    cases x.result with
    | error e => rfl
    | ok a =>
      cases h : (f a).result with
      | error e => simp [h]
      | ok b => simp [h, Usage.append_assoc])

end Consult

end MultiHop
