import ConstPool.Text.Unprintable
import ConstPool.Text.Extender

/-!
# Quoted texts

A text constant that is shown within another value, or as a value of its own, stands between
double quotes. The quote and the backslash are escaped, the usual control characters have
short forms, and characters that cannot be seen by themselves are written by their number in
hexadecimal.
-/

namespace ConstPool.Text

/-- The form of a character between quotes. -/
def quotedChar (c : Char) : List Char :=
  match c with
  | '"' => ['\\', '"']
  | '\\' => ['\\', '\\']
  | '\n' => ['\\', 'n']
  | '\r' => ['\\', 'r']
  | '\t' => ['\\', 't']
  | '\x00' => ['\\', '0']
  | c =>
    if isUnprintable c || isExtender c then
      ['\\', 'u', '\x7b'] ++ Nat.toDigits 16 c.toNat ++ ['\x7d']
    else [c]

/-- The text between quotes. -/
def quoted (s : String) : String :=
  String.ofList ('"' :: s.toList.flatMap quotedChar ++ ['"'])

end ConstPool.Text
