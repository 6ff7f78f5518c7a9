/-
MultiHop/Json/Token.lean

Tokens of a JSON text.  A number takes all the characters that numbers are made of
and is then judged as a whole; no other token may follow it directly in a JSON
text, so nothing is lost by taking too many.
-/
import MultiHop.Json.Basic

namespace MultiHop.Json

/-- A token. -/
inductive Token where
  | openArray
  | closeArray
  | openObject
  | closeObject
  | comma
  | colon
  | null
  | bool (b : Bool)
  | number (n : Number)
  | string (s : Literal)
deriving DecidableEq, Repr

/-! ### Numbers -/

/-- Value of a decimal digit. -/
def digit? (c : Char) : Option Nat := if c.isDigit then some (c.toNat - 48) else none

/-- Whether numbers are made of `c`. -/
def isNumberChar (c : Char) : Bool :=
  c.isDigit || c == '-' || c == '+' || c == '.' || c == 'e' || c == 'E'

/-- The digits at the beginning of a text, and the rest. -/
def digitRun : List Char → List Nat × List Char
  | [] => ([], [])
  | c :: cs =>
    match digit? c with
    | some d =>
      let (ds, rest) := digitRun cs
      (d :: ds, rest)
    | none => ([], c :: cs)

namespace Number

/-- Reads an exponent after its mark: an optional sign and at least one digit. -/
def exponent? (cs : List Char) : Option (Bool × List Nat) :=
  let (negative, cs) :=
    match cs with
    | '-' :: cs => (true, cs)
    | '+' :: cs => (false, cs)
    | cs => (false, cs)
  match digitRun cs with
  | (d :: ds, []) => some (negative, d :: ds)
  | _ => none

/-- Reads what may follow the digits after the point: nothing, or an exponent. -/
def tail? (cs : List Char) : Option (Option (Bool × List Nat)) :=
  match cs with
  | [] => some none
  | 'e' :: cs | 'E' :: cs => (exponent? cs).map some
  | _ => none

/-- Reads a number.  Zero is the only number that begins with the digit zero, and a
point stands between digits. -/
def ofChars? (cs : List Char) : Option Number :=
  let (negative, cs) :=
    match cs with
    | '-' :: cs => (true, cs)
    | cs => (false, cs)
  match digitRun cs with
  | ([], _) => none
  | (0 :: _ :: _, _) => none
  | (whole, '.' :: cs) =>
    match digitRun cs with
    | ([], _) => none
    | (fraction, cs) =>
      (tail? cs).map fun exponent => ⟨negative, whole, some fraction, exponent⟩
  | (whole, cs) => (tail? cs).map fun exponent => ⟨negative, whole, none, exponent⟩

end Number

/-! ### Strings -/

/-- Value of a hexadecimal digit. -/
def hexDigit? (c : Char) : Option Nat :=
  if c.isDigit then some (c.toNat - 48)
  else if 'a' ≤ c ∧ c ≤ 'f' then some (c.toNat - 87)
  else if 'A' ≤ c ∧ c ≤ 'F' then some (c.toNat - 55)
  else none

/-- The number that four hexadecimal digits write. -/
def hexUnit? (a b c d : Char) : Option Nat :=
  match hexDigit? a, hexDigit? b, hexDigit? c, hexDigit? d with
  | some a, some b, some c, some d => some (((a * 16 + b) * 16 + c) * 16 + d)
  | _, _, _, _ => none

/-- The character that a letter after a backslash stands for. -/
def escaped? : Char → Option Char
  | '"' => some '"'
  | '\\' => some '\\'
  | '/' => some '/'
  | 'b' => some '\x08'
  | 'f' => some '\x0c'
  | 'n' => some '\n'
  | 'r' => some '\r'
  | 't' => some '\t'
  | _ => none

/-! ### The whole text -/

/-- Whether `c` may stand between tokens. -/
def isSpace (c : Char) : Bool := c == ' ' || c == '\t' || c == '\n' || c == '\r'

/-- The token of one character. -/
def mark? : Char → Option Token
  | '[' => some .openArray
  | ']' => some .closeArray
  | '\x7b' => some .openObject
  | '\x7d' => some .closeObject
  | ',' => some .comma
  | ':' => some .colon
  | _ => none

/-- The number, if any, whose characters were taken, the last one first. -/
def pendingNumber? (taken : List Char) : Option (List Token) :=
  if taken.isEmpty then some [] else (Number.ofChars? taken.reverse).map fun n => [.number n]

/-- Puts the pending number before further tokens. -/
def pend (taken : List Char) (rest : Option (List Token)) : Option (List Token) :=
  match pendingNumber? taken, rest with
  | some before, some rest => some (before ++ rest)
  | _, _ => none

mutual

/-- Tokens of a text, after the characters `taken` of a number, the last one
first. -/
def tokens? (taken : List Char) : List Char → Option (List Token)
  | [] => pendingNumber? taken
  | 'n' :: 'u' :: 'l' :: 'l' :: cs => pend taken ((tokens? [] cs).map (.null :: ·))
  | 't' :: 'r' :: 'u' :: 'e' :: cs => pend taken ((tokens? [] cs).map (.bool true :: ·))
  | 'f' :: 'a' :: 'l' :: 's' :: 'e' :: cs =>
    pend taken ((tokens? [] cs).map (.bool false :: ·))
  | '"' :: cs => pend taken (stringTokens? [] cs)
  | c :: cs =>
    if isNumberChar c then tokens? (c :: taken) cs
    else if isSpace c then pend taken (tokens? [] cs)
    else
      match mark? c with
      | some t => pend taken ((tokens? [] cs).map (t :: ·))
      | none => none

/-- Tokens of a text that begins inside a string, after the pieces `taken` of it, the
last one first. -/
def stringTokens? (taken : List Piece) : List Char → Option (List Token)
  | [] => none
  | '"' :: cs => (tokens? [] cs).map (.string taken.reverse :: ·)
  | '\\' :: 'u' :: a :: b :: c :: d :: cs =>
    match hexUnit? a b c d with
    | some u => stringTokens? (.unit u :: taken) cs
    | none => none
  | '\\' :: e :: cs =>
    match escaped? e with
    | some c => stringTokens? (.char c :: taken) cs
    | none => none
  | c :: cs =>
    if c == '\\' || c.toNat < 0x20 then none else stringTokens? (.char c :: taken) cs

end

end MultiHop.Json
