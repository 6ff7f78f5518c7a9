/-
MultiHop/Json/Reader.lean

JSON texts.  The reader goes through the tokens once and holds its unfinished
containers on a stack, so texts of any depth are read; how deep a value may be is
for those to say who look into it.
-/
import MultiHop.Json.Token

namespace MultiHop.Json

/-- An unfinished container, with what it holds so far, the last one first. -/
inductive Frame where
  | array (items : List Json)
  /-- A value for `key` is to come. -/
  | object (fields : List (Literal × Json)) (key : Literal)

mutual

/-- Reads on where a value should stand. -/
def readValue (stack : List Frame) : List Token → Option Json
  | .null :: ts => readOn stack .null ts
  | .bool b :: ts => readOn stack (.bool b) ts
  | .number n :: ts => readOn stack (.number n) ts
  | .string s :: ts => readOn stack (.string s) ts
  | .openArray :: .closeArray :: ts => readOn stack (.array []) ts
  | .openArray :: ts => readValue (.array [] :: stack) ts
  | .openObject :: .closeObject :: ts => readOn stack (.object []) ts
  | .openObject :: .string key :: .colon :: ts => readValue (.object [] key :: stack) ts
  | _ => none

/-- Reads on after the value `v`. -/
def readOn (stack : List Frame) (v : Json) : List Token → Option Json
  | [] =>
    match stack with
    | [] => some v
    | _ :: _ => none
  | .comma :: ts =>
    match stack, ts with
    | .array items :: outer, ts => readValue (.array (v :: items) :: outer) ts
    | .object fields key :: outer, .string next :: .colon :: ts =>
      readValue (.object ((key, v) :: fields) next :: outer) ts
    | _, _ => none
  | .closeArray :: ts =>
    match stack with
    | .array items :: outer => readOn outer (.array (v :: items).reverse) ts
    | _ => none
  | .closeObject :: ts =>
    match stack with
    | .object fields key :: outer => readOn outer (.object ((key, v) :: fields).reverse) ts
    | _ => none
  | _ => none

end

/-- The value that a text writes. -/
def ofText? (s : String) : Option Json :=
  match tokens? [] s.toList with
  | some ts => readValue [] ts
  | none => none

end MultiHop.Json
