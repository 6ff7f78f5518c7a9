/-
MultiHop/Json/Record.lean

Values of known kinds inside JSON.  A record is an object whose known fields occur
once at most, while unknown ones are passed over, or an array of the fields in their
order.  Arrays and objects that are looked into may nest 127 deep.
-/
import MultiHop.Json.Number

namespace MultiHop.Json

/-- How deep the arrays and objects of a value may nest. -/
def depthLimit : Nat := 127

/-- A count. -/
def count? : Json → Option Nat
  | .number n => n.count?
  | _ => none

/-- A single-precision number. -/
def single? : Json → Option Float32
  | .number n => n.single?
  | _ => none

/-- A truth value. -/
def bool? : Json → Option Bool
  | .bool b => some b
  | _ => none

/-- An array of values of one kind. -/
def list? {α : Type} (read : Json → Option α) : Json → Option (List α)
  | .array items => items.mapM read
  | _ => none

/-- A value that may be missing; `null` stands for a missing one. -/
def optional? {α : Type} (read : Json → Option α) : Json → Option (Option α)
  | .null => some none
  | v => (read v).map some

/-- The name of a choice: a string, or an object with that one field, which is
`null`. -/
def choice? : Json → Option String
  | .string s => s.text?
  | .object [(k, .null)] => k.text?
  | _ => none

/-! ### Records -/

/-- Texts of the keys of an object; a key without a text spoils all of it. -/
def keyed? (fields : List (Literal × Json)) : Option (List (String × Json)) :=
  fields.mapM fun (k, v) => k.text?.map (·, v)

/-- The value of the field `name`, which must not occur twice. -/
def field? (fields : List (String × Json)) (name : String) : Option (Option Json) :=
  match fields.filter fun f => f.1 == name with
  | [] => some none
  | [(_, v)] => some (some v)
  | _ => none

/-- The fields of a record in the order of `names`, each unless it is missing. -/
def record? (names : List String) : Json → Option (List (Option Json))
  | .array items =>
    if items.length ≤ names.length then
      some (items.map some ++ List.replicate (names.length - items.length) none)
    else none
  | .object fields =>
    match keyed? fields with
    | some fields => names.mapM (field? fields)
    | none => none
  | _ => none

/-- A field that must be there. -/
def required? {α : Type} (read : Json → Option α) : Option Json → Option α
  | some v => read v
  | none => none

/-- A field that may be missing, with the value that it then has. -/
def withDefault? {α : Type} (default : α) (read : Json → Option α) : Option Json → Option α
  | some v => read v
  | none => some default

end MultiHop.Json
