/-
MultiHop/Vocabulary.lean

Distinct names in a fixed order.  The position of a name is its identity: names
are only ever added at the end, so a position once given is never given again.
-/
import MultiHop.GraphError

namespace MultiHop

/-- A list of distinct names. -/
structure Vocabulary where
  names : List String
  nodup : names.Nodup
deriving DecidableEq

namespace Vocabulary

/-- The vocabulary without names. -/
def empty : Vocabulary := ⟨[], List.nodup_nil⟩

/-- Number of names. -/
def size (v : Vocabulary) : Nat := v.names.length

/-- Position of `name`, if it is there. -/
def position? (v : Vocabulary) (name : String) : Option Nat := v.names.idxOf? name

/-- Name at `position`, if it is below the size. -/
def name? (v : Vocabulary) (position : Nat) : Option String := v.names[position]?

/-- Adds `name` at the end; a known name changes nothing. -/
def insert (v : Vocabulary) (name : String) : Vocabulary :=
  if h : name ∈ v.names then v
  else
    ⟨v.names ++ [name], List.nodup_append.2
      ⟨v.nodup, by simp, fun a ha b hb hab => by simp_all⟩⟩

/-- Adds `names` one after the other. -/
def insertAll (v : Vocabulary) (names : List String) : Vocabulary := names.foldl insert v

/-- The vocabulary of `names` in this order; the first name that comes a second
time is refused. -/
def ofNames (names : List String) : Except GraphError Vocabulary :=
  names.foldlM (fun v name =>
    if name ∈ v.names then .error (.invalid (.duplicateName name)) else .ok (v.insert name)) empty

/-! ### Names and positions are inverse -/

theorem names_insert (v : Vocabulary) (name : String) :
    (v.insert name).names = if name ∈ v.names then v.names else v.names ++ [name] := by
  unfold insert; split <;> rfl

theorem position?_eq_some_iff {v : Vocabulary} {name : String} {i : Nat} :
    v.position? name = some i ↔ v.name? i = some name := by
  unfold position? name?
  rw [List.idxOf?_eq_some_iff]
  constructor
  · rintro ⟨h, rfl, -⟩
    exact List.getElem?_eq_getElem h
  · intro h
    obtain ⟨hi, rfl⟩ := List.getElem?_eq_some_iff.1 h
    refine ⟨hi, rfl, fun j hj heq => ?_⟩
    exact absurd ((List.getElem_inj v.nodup).1 heq) (by omega)

theorem position?_eq_none_iff {v : Vocabulary} {name : String} :
    v.position? name = none ↔ name ∉ v.names := by
  unfold position?; exact List.idxOf?_eq_none_iff

end Vocabulary

end MultiHop
