/-
MultiHop/Query/Payload.lean

Payloads: names in nested tuples, laid out like the shape of the query that they
fill.  An entity name stands for `e` and a relation name for `r`; the markers for
negation and union are the literal names `n` and `u`.
-/
import MultiHop.Query.Shape
import MultiHop.Text.Quoted

namespace MultiHop

/-- Names in nested tuples. -/
inductive Payload where
  | name (s : String)
  | tuple (items : List Payload)
deriving Repr

namespace Payload

/-! ### Equality is decidable -/

mutual

def decEq : (a b : Payload) → Decidable (a = b)
  | .name a, .name b => if h : a = b then .isTrue (by rw [h]) else .isFalse (by simp [h])
  | .tuple as, .tuple bs =>
    match decEqAll as bs with
    | .isTrue h => .isTrue (by rw [h])
    | .isFalse h => .isFalse (by simp [h])
  | .name _, .tuple _ => .isFalse (by simp)
  | .tuple _, .name _ => .isFalse (by simp)

def decEqAll : (as bs : List Payload) → Decidable (as = bs)
  | [], [] => .isTrue rfl
  | a :: as, b :: bs =>
    match decEq a b, decEqAll as bs with
    | .isTrue h, .isTrue hs => .isTrue (by rw [h, hs])
    | .isFalse h, _ => .isFalse (by simp [h])
    | _, .isFalse hs => .isFalse (by simp [hs])
  | [], _ :: _ => .isFalse (by simp)
  | _ :: _, [] => .isFalse (by simp)

end

instance : DecidableEq Payload := decEq

/-! ### Text for messages -/

mutual

/-- A payload as messages show it. -/
def text : Payload → String
  | .name s => "Name(" ++ Text.quoted s ++ ")"
  | .tuple [] => "Tuple([])"
  | .tuple (item :: items) => "Tuple([" ++ text item ++ textRest items ++ "])"

/-- The items after the first one, each with the separator before it. -/
def textRest : List Payload → String
  | [] => ""
  | item :: items => ", " ++ text item ++ textRest items

end

/-! ### Fitting a shape -/

/-- How a payload departs from a shape. -/
inductive Departure where
  /-- A symbol is expected and something else is found. -/
  | symbol (expected : Symbol) (found : Payload)
  /-- A tuple has the wrong number of items. -/
  | arity (expected found : Nat)
  /-- A tuple is expected and a name is found. -/
  | notTuple (expected : Nat) (found : String)
deriving DecidableEq, Repr

/-- A departure, at the place to which `path` leads from the whole payload. -/
structure Mismatch where
  path : List Nat
  departure : Departure
deriving DecidableEq, Repr

/-- Whether a payload can stand at a symbol. -/
def standsAt : Symbol → Payload → Bool
  | .entity, .name _ | .relation, .name _ => true
  | .negation, .name s => s == "n"
  | .union, .name s => s == "u"
  | _, .tuple _ => false

mutual

/-- Refuses a payload that is not laid out like a shape; the first departure from
left to right is the error, that of a tuple before those inside it.  `path` leads
to the place under inspection, its last step first. -/
def fit (path : List Nat) : Shape → Payload → Except Mismatch Unit
  | .symbol s, p =>
    if standsAt s p then .ok () else .error ⟨path.reverse, .symbol s p⟩
  | .tuple shapes, .tuple items =>
    if shapes.length = items.length then fitAll path 0 shapes items
    else .error ⟨path.reverse, .arity shapes.length items.length⟩
  | .tuple shapes, .name s => .error ⟨path.reverse, .notTuple shapes.length s⟩

/-- The same for the items of a tuple, from the one at `position` on. -/
def fitAll (path : List Nat) (position : Nat) :
    List Shape → List Payload → Except Mismatch Unit
  | shape :: shapes, item :: items => do
    fit (position :: path) shape item
    fitAll path (position + 1) shapes items
  | _, _ => .ok ()

end

/-- What a symbol asks for, in words. -/
def wanted : Symbol → String
  | .entity => "an entity name"
  | .relation => "a relation name"
  | .negation => "the negation marker \"n\""
  | .union => "the union marker \"u\""

/-- A path in words, starting at the whole payload. -/
def pathText (path : List Nat) : String :=
  "query" ++ String.join (path.map fun i => "[" ++ toString i ++ "]")

/-- Wording of a departure at `place`. -/
def Departure.message (place : String) : Departure → String
  | .symbol expected found =>
    "expected " ++ wanted expected ++ " at " ++ place ++ ", found " ++ found.text
  | .arity expected found =>
    "expected " ++ toString expected ++ " items at " ++ place ++ ", found " ++ toString found
  | .notTuple expected found =>
    "expected a tuple of " ++ toString expected ++ " items at " ++ place ++ ", found name '" ++
      found ++ "'"

/-- Wording of a mismatch. -/
def Mismatch.message (m : Mismatch) : String := m.departure.message (pathText m.path)

end Payload

end MultiHop
