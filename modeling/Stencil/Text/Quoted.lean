/-
  Stencil/Text/Quoted.lean
  ========================
  **Texts in double quotes, as diagnostics show them.**

  A quoted text shows each character as itself, except the quote, the backslash
  and the characters that cannot be seen on their own.  Those that have a short
  name (`\n`, `\r`, `\t`, `\0`) use it, the others are written `\u{hex}` in lower
  case without padding.
-/
import Stencil.Text.Invisible

namespace Stencil.Text

/-- A number in base sixteen, upper case, no padding. -/
def hexUpper (n : Nat) : String := String.ofList ((Nat.toDigits 16 n).map Char.toUpper)

def quotedChar (c : Char) : List Char :=
  match c with
  | '"' => ['\\', '"']
  | '\\' => ['\\', '\\']
  | '\n' => ['\\', 'n']
  | '\r' => ['\\', 'r']
  | '\t' => ['\\', 't']
  | '\x00' => ['\\', '0']
  | c =>
    if isInvisible c then
      ['\\', 'u', '\x7b'] ++ Nat.toDigits 16 c.toNat ++ ['\x7d']
    else [c]

/-- A text in double quotes. -/
def quoted (s : String) : String :=
  String.ofList ('"' :: s.toList.flatMap quotedChar ++ ['"'])

end Stencil.Text
