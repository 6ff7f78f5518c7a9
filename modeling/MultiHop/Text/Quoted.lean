/-
MultiHop/Text/Quoted.lean

Text between double quotes, for messages.  The quote and the backslash get a
backslash before them, four controls have a letter of their own, and any other
character that cannot be shown is written by its code point.
-/
import MultiHop.Text.Unprintable

namespace MultiHop.Text

/-- The form of one character between double quotes. -/
def quotedChar (c : Char) : List Char :=
  match c with
  | '"' => ['\\', '"']
  | '\\' => ['\\', '\\']
  | '\n' => ['\\', 'n']
  | '\t' => ['\\', 't']
  | '\r' => ['\\', 'r']
  | '\x00' => ['\\', '0']
  | c =>
    if isUnprintable c then
      ['\\', 'u', '\x7b'] ++ Nat.toDigits 16 c.toNat ++ ['\x7d']
    else [c]

/-- `s` between double quotes. -/
def quoted (s : String) : String :=
  String.ofList ('"' :: s.toList.flatMap quotedChar ++ ['"'])

end MultiHop.Text
