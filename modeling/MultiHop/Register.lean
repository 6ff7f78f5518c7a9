/-
MultiHop/Register.lean

Registers.  A register takes names in, one after another, and tells each of them its
position.  It keeps two stores: the names in order, and a table that leads from a name
to its position without a search through the names.  Both are written when a name comes
in for the first time, and neither is written again for that name.

A vocabulary is what a register has taken in, without the table.
-/
import MultiHop.Vocabulary

namespace MultiHop

/-- Names in order, with a table of their positions. -/
structure Register where
  names : List String
  /-- Positions by name, the latest entry first. -/
  positions : List (String × Nat)
deriving DecidableEq

namespace Register

/-- The register that has taken nothing in. -/
def empty : Register := ⟨[], []⟩

/-- Number of names. -/
def size (r : Register) : Nat := r.names.length

/-- Position of `name`, if the table holds it. -/
def position? (r : Register) (name : String) : Option Nat := r.positions.lookup name

/-- Name at `position`, if it is below the size. -/
def name? (r : Register) (position : Nat) : Option String := r.names[position]?

/-- Takes `name` in and tells its position.  A known name keeps the one that it has. -/
def insert (r : Register) (name : String) : Nat × Register :=
  match r.position? name with
  | some i => (i, r)
  | none => (r.size, ⟨r.names ++ [name], (name, r.size) :: r.positions⟩)

/-- Takes `names` in, one after another. -/
def insertAll (r : Register) (names : List String) : Register :=
  names.foldl (fun r name => (r.insert name).2) r

/-- Takes `name` in for the first time; a known name is refused. -/
def enrol (r : Register) (name : String) : Except GraphError Register :=
  match r.position? name with
  | some _ => .error (.invalid (.duplicateName name))
  | none => .ok (r.insert name).2

/-- The register of `names` in this order; the first name that comes a second time is
refused. -/
def ofNames (names : List String) : Except GraphError Register := names.foldlM enrol empty

end Register

end MultiHop
