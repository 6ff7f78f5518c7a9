/-
MultiHop/Json/Writer.lean

JSON texts without blanks.  Quotes and backslashes get a backslash before them, the
controls below the blank are escaped, five of them by a letter, and all other
characters stand for themselves.
-/
import MultiHop.Json.Basic

namespace MultiHop.Json

/-- `n` in four lower-case hexadecimal digits. -/
def hex4 (n : Nat) : List Char :=
  [n / 0x1000 % 16, n / 0x100 % 16, n / 0x10 % 16, n % 16].map Nat.digitChar

/-- The form of one character in a string. -/
def writtenChar (c : Char) : List Char :=
  match c with
  | '"' => ['\\', '"']
  | '\\' => ['\\', '\\']
  | '\x08' => ['\\', 'b']
  | '\x0c' => ['\\', 'f']
  | '\n' => ['\\', 'n']
  | '\r' => ['\\', 'r']
  | '\t' => ['\\', 't']
  | c => if c.toNat < 0x20 then '\\' :: 'u' :: hex4 c.toNat else [c]

/-- The form of one piece of a string. -/
def writtenPiece : Piece → List Char
  | .char c => writtenChar c
  | .unit u => '\\' :: 'u' :: hex4 u

/-- A string between its quotes. -/
def writtenString (s : Literal) : List Char :=
  '"' :: s.flatMap writtenPiece ++ ['"']

/-- A number. -/
def Number.written (n : Number) : List Char :=
  (if n.negative then ['-'] else []) ++ n.whole.map Nat.digitChar ++
    (match n.fraction with
      | some ds => '.' :: ds.map Nat.digitChar
      | none => []) ++
    (match n.exponent with
      | some (negative, ds) => 'e' :: (if negative then ['-'] else []) ++ ds.map Nat.digitChar
      | none => [])

mutual

/-- Characters of a written value. -/
def written : Json → List Char
  | .null => ['n', 'u', 'l', 'l']
  | .bool true => ['t', 'r', 'u', 'e']
  | .bool false => ['f', 'a', 'l', 's', 'e']
  | .number n => n.written
  | .string s => writtenString s
  | .array [] => ['[', ']']
  | .array (v :: vs) => '[' :: written v ++ writtenItems vs ++ [']']
  | .object [] => ['\x7b', '\x7d']
  | .object ((k, v) :: fs) =>
    '\x7b' :: writtenString k ++ ':' :: written v ++ writtenFields fs ++ ['\x7d']

/-- The items after the first one, each after a comma. -/
def writtenItems : List Json → List Char
  | [] => []
  | v :: vs => ',' :: written v ++ writtenItems vs

/-- The fields after the first one, each after a comma. -/
def writtenFields : List (Literal × Json) → List Char
  | [] => []
  | (k, v) :: fs => ',' :: writtenString k ++ ':' :: written v ++ writtenFields fs

end

/-- Text of a value. -/
def text (v : Json) : String := String.ofList v.written

/-- The value of a text. -/
def ofString (s : String) : Json := .string (.ofString s)

end MultiHop.Json
