import DecimalRounding.Text.Extending
import DecimalRounding.Text.Unprintable

/-!
# Quoted text for debugging

Text between double quotes, in which every character can be told apart by eye: a backslash
stands before the quote and the backslash, the common control characters are written as letters,
and characters that show nothing, or that would be drawn on the one before, are written by
their code point in hexadecimal.
-/

namespace DecimalRounding.Text

/-- Is the character written by its code point? -/
def isHidden (c : Char) : Bool := extending.contains c || unprintable.contains c

/-- The written form of one character. -/
def escape (c : Char) : List Char :=
  match c with
  | '"' => ['\\', '"']
  | '\\' => ['\\', '\\']
  | '\n' => ['\\', 'n']
  | '\r' => ['\\', 'r']
  | '\t' => ['\\', 't']
  | '\x00' => ['\\', '0']
  | _ =>
    if isHidden c then ['\\', 'u', '\x7b'] ++ Nat.toDigits 16 c.toNat ++ ['\x7d'] else [c]

/-- The text between quotes. -/
def quote (text : String) : String :=
  String.ofList ('"' :: text.toList.flatMap escape ++ ['"'])

end DecimalRounding.Text
