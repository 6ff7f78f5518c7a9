/-
MultiHop/Query/Shape.lean

Shapes of queries: nested tuples over four symbols.  `e` stands for an anchor
entity, `r` for a hop through a relation, `n` for the negation of the hops before
it, and `u` for the disjunction of the branches beside it.

A shape is written `(e, (r,))`: items are separated by a comma and a blank, and a
tuple of one item keeps a comma, so that it is not a pair of plain brackets.
Reading is more lenient than writing: blanks and quotes count for nothing, and any
tuple may end in a comma.  The reader holds its unfinished tuples on a stack, so it
goes through the text once, character by character.
-/
import MultiHop.Text.Blank

namespace MultiHop

/-- Leaf of a shape. -/
inductive Symbol where
  | entity
  | relation
  | negation
  | union
deriving DecidableEq, Repr

namespace Symbol

/-- The letter of a symbol. -/
def letter : Symbol → Char
  | entity => 'e'
  | relation => 'r'
  | negation => 'n'
  | union => 'u'

/-- The symbol of a letter. -/
def ofLetter? : Char → Option Symbol
  | 'e' => some entity
  | 'r' => some relation
  | 'n' => some negation
  | 'u' => some union
  | _ => none

theorem ofLetter?_letter (s : Symbol) : ofLetter? s.letter = some s := by cases s <;> rfl

end Symbol

/-- A nested tuple of symbols. -/
inductive Shape where
  | symbol (s : Symbol)
  | tuple (items : List Shape)
deriving Repr

namespace Shape

/-! ### Equality is decidable -/

mutual

def decEq : (a b : Shape) → Decidable (a = b)
  | .symbol a, .symbol b =>
    if h : a = b then .isTrue (by rw [h]) else .isFalse (by simp [h])
  | .tuple as, .tuple bs =>
    match decEqAll as bs with
    | .isTrue h => .isTrue (by rw [h])
    | .isFalse h => .isFalse (by simp [h])
  | .symbol _, .tuple _ => .isFalse (by simp)
  | .tuple _, .symbol _ => .isFalse (by simp)

def decEqAll : (as bs : List Shape) → Decidable (as = bs)
  | [], [] => .isTrue rfl
  | a :: as, b :: bs =>
    match decEq a b, decEqAll as bs with
    | .isTrue h, .isTrue hs => .isTrue (by rw [h, hs])
    | .isFalse h, _ => .isFalse (by simp [h])
    | _, .isFalse hs => .isFalse (by simp [hs])
  | [], _ :: _ => .isFalse (by simp)
  | _ :: _, [] => .isFalse (by simp)

end

instance : DecidableEq Shape := decEq

/-! ### Building and looking inside -/

/-- A tuple of symbols. -/
def symbols (ss : List Symbol) : Shape := .tuple (ss.map .symbol)

/-- An anchor with its hops, `(e, (…))`. -/
def anchored (hops : List Symbol) : Shape := .tuple [.symbol .entity, symbols hops]

/-- The symbol with which a tuple begins, if it begins with one. -/
def firstSymbol? : Shape → Option Symbol
  | .tuple (.symbol s :: _) => some s
  | _ => none

/-! ### Writing -/

mutual

/-- Characters of a written shape. -/
def chars : Shape → List Char
  | .symbol s => [s.letter]
  | .tuple [] => ['(', ')']
  | .tuple [item] => '(' :: chars item ++ [',', ')']
  | .tuple (item :: items) => '(' :: chars item ++ charsRest items ++ [')']

/-- The items after the first one, each with the separator before it. -/
def charsRest : List Shape → List Char
  | [] => []
  | item :: items => ',' :: ' ' :: chars item ++ charsRest items

end

/-- Text of a shape. -/
def text (s : Shape) : String := String.ofList s.chars

/-! ### Reading -/

/-- What the reader expected and did not find. -/
inductive Expectation where
  /-- The text goes on after the shape. -/
  | trailingInput
  /-- An item is followed by neither a comma nor a closing bracket. -/
  | separator
  /-- A tuple was closed before its first item. -/
  | emptyTuple
  /-- A character that is no symbol stands where an item should. -/
  | unknownSymbol
  /-- The text ends where an item should stand. -/
  | unexpectedEnd
deriving DecidableEq, Repr

/-- Wording of an expectation. -/
def Expectation.message : Expectation → String
  | .trailingInput => "trailing input"
  | .separator => "expected ',' or ')'"
  | .emptyTuple => "empty tuple"
  | .unknownSymbol => "unknown symbol"
  | .unexpectedEnd => "unexpected end"

/-- Where reading failed: the expectation and the rest of the text, without blanks
and quotes. -/
structure ReadError where
  expectation : Expectation
  rest : List Char
deriving DecidableEq, Repr

/-- Wording of a read error. -/
def ReadError.message (e : ReadError) : String :=
  e.expectation.message ++ " at '" ++ String.ofList e.rest ++ "'"

/-- Whether a character counts when a shape is read. -/
def counts (c : Char) : Bool := !Text.isBlank c && c != '\'' && c != '"'

mutual

/-- Reads on where an item should stand.  `pending` holds the unfinished tuples,
the innermost first, each with the items read so far, the last one first. -/
def readItem (pending : List (List Shape)) : List Char → Except ReadError Shape
  | [] => .error ⟨.unexpectedEnd, []⟩
  | '(' :: cs => readItem ([] :: pending) cs
  | ')' :: cs =>
    match pending with
    | [] => .error ⟨.unknownSymbol, ')' :: cs⟩
    | [] :: _ => .error ⟨.emptyTuple, cs⟩
    | items :: outer => readOn outer (.tuple items.reverse) cs
  | c :: cs =>
    match Symbol.ofLetter? c with
    | some s => readOn pending (.symbol s) cs
    | none => .error ⟨.unknownSymbol, c :: cs⟩

/-- Reads on after the item `item`. -/
def readOn (pending : List (List Shape)) (item : Shape) : List Char → Except ReadError Shape
  | [] =>
    match pending with
    | [] => .ok item
    | _ :: _ => .error ⟨.separator, []⟩
  | c :: cs =>
    match pending with
    | [] => .error ⟨.trailingInput, c :: cs⟩
    | items :: outer =>
      if c = ',' then readItem ((item :: items) :: outer) cs
      else if c = ')' then readOn outer (.tuple (item :: items).reverse) cs
      else .error ⟨.separator, c :: cs⟩

end

/-- The shape that a text denotes. -/
def ofText (s : String) : Except ReadError Shape := readItem [] (s.toList.filter counts)

end Shape

end MultiHop
