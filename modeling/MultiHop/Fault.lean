/-
MultiHop/Fault.lean

Two ways for a computation to stop short.  An error belongs to the domain and is
an answer; a breach is a broken precondition, after which there is no answer at
all.  Keeping them apart lets a theorem say that a computation never breaks off.
-/

namespace MultiHop

/-- A precondition that did not hold. -/
inductive Breach where
  /-- The entry at `position` was wanted of a row of `length` entries. -/
  | noEntry (position length : Nat)
  /-- Two vectors of different lengths were to be combined entry by entry. -/
  | lengthsDiffer (left right : Nat)
  /-- One number per row was to be spread over another number of rows. -/
  | rowsDiffer (numbers rows : Nat)
deriving DecidableEq, Repr

/-- Why a computation that may break off has no result. -/
inductive Fault (ε : Type) where
  | error (e : ε)
  | breach (b : Breach)
deriving DecidableEq, Repr

/-- Rewords the error of a fault; a breach stays what it is. -/
def Fault.map {ε δ : Type} (f : ε → δ) : Fault ε → Fault δ
  | .error e => .error (f e)
  | .breach b => .breach b

end MultiHop
