/-
MultiHop/Json/Basic.lean

JSON values as they are written.  Strings and numbers keep their written form, so
that a value can be read although parts of it have no meaning: a string may hold
half a surrogate pair and a number may be beyond every range.  What is never looked
at does no harm, and what is looked at is judged then.
-/

namespace MultiHop

namespace Json

/-- Part of a written string: a character, or a UTF-16 unit given by its digits. -/
inductive Piece where
  | char (c : Char)
  | unit (u : Nat)
deriving DecidableEq, Repr

/-- A written string. -/
abbrev Literal := List Piece

namespace Literal

/-- The written form of a text. -/
def ofString (s : String) : Literal := s.toList.map .char

/-- Whether a UTF-16 unit is the first half of a pair. -/
def isLead (u : Nat) : Bool := 0xD800 ≤ u && u < 0xDC00

/-- Whether a UTF-16 unit is the second half of a pair. -/
def isTrail (u : Nat) : Bool := 0xDC00 ≤ u && u < 0xE000

/-- Characters of a written string.  Two halves of a pair make one character when
one follows the other; half a pair alone is no character. -/
def chars? : Literal → Option (List Char)
  | [] => some []
  | .char c :: ps => (chars? ps).map (c :: ·)
  | [.unit u] => if isLead u || isTrail u then none else some [Char.ofNat u]
  | .unit u :: .unit v :: ps =>
    if isLead u then
      if isTrail v then
        (chars? ps).map (Char.ofNat (0x10000 + (u - 0xD800) * 0x400 + (v - 0xDC00)) :: ·)
      else none
    else if isTrail u then none
    else (chars? (.unit v :: ps)).map (Char.ofNat u :: ·)
  | .unit u :: .char c :: ps =>
    if isLead u || isTrail u then none
    else (chars? (.char c :: ps)).map (Char.ofNat u :: ·)

/-- The text of a written string. -/
def text? (l : Literal) : Option String := (chars? l).map String.ofList

end Literal

/-- A written number: digits before the point, digits after it, and an exponent with
its sign. -/
structure Number where
  negative : Bool
  whole : List Nat
  fraction : Option (List Nat)
  exponent : Option (Bool × List Nat)
deriving DecidableEq, Repr

end Json

/-- A JSON value as it is written. -/
inductive Json where
  | null
  | bool (b : Bool)
  | number (n : Json.Number)
  | string (s : Json.Literal)
  | array (items : List Json)
  | object (fields : List (Json.Literal × Json))
deriving Repr

namespace Json

mutual

/-- How deep arrays and objects are nested. -/
def depth : Json → Nat
  | .array items => depthItems items + 1
  | .object fields => depthFields fields + 1
  | .null | .bool _ | .number _ | .string _ => 0

/-- The greatest depth among some values. -/
def depthItems : List Json → Nat
  | [] => 0
  | v :: vs => max (depth v) (depthItems vs)

/-- The greatest depth among the values of some fields. -/
def depthFields : List (Literal × Json) → Nat
  | [] => 0
  | (_, v) :: fs => max (depth v) (depthFields fs)

end

/-- The text of a string value. -/
def text? : Json → Option String
  | .string s => s.text?
  | _ => none

end Json

end MultiHop
