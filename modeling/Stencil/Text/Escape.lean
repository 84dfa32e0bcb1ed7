/-
  Stencil/Text/Escape.lean
  ========================
  **Writing a text where some characters have a meaning of their own.**

  Three forms are used: `escapeContent` and `escapeAttribute` for the two places of a page in
  which a text can stand, and `report` for one-line reports, which names the usual
  control characters and numbers the others.
-/
import Stencil.Text.Quoted

namespace Stencil.Text

def contentChar : Char → List Char
  | '&' => "&amp;".toList
  | '<' => "&lt;".toList
  | '>' => "&gt;".toList
  | c => [c]

def attributeChar : Char → List Char
  | '&' => "&amp;".toList
  | '"' => "&quot;".toList
  | c => [c]

/-- A text as written between tags. -/
def escapeContent (s : String) : String := String.ofList (s.toList.flatMap contentChar)

/-- A text as written in an attribute value. -/
def escapeAttribute (s : String) : String := String.ofList (s.toList.flatMap attributeChar)

/-- A number in base sixteen, upper case, with at least two digits. -/
def hexByte (n : Nat) : List Char :=
  let ds := (Nat.toDigits 16 n).map Char.toUpper
  List.replicate (2 - ds.length) '0' ++ ds

def reportChar (c : Char) : List Char :=
  match c with
  | '\\' => ['\\', '\\']
  | '"' => ['\\', '"']
  | '\n' => ['\\', 'n']
  | '\r' => ['\\', 'r']
  | '\t' => ['\\', 't']
  | c => if c < ' ' then ['\\', 'u', '\x7b'] ++ hexByte c.toNat ++ ['\x7d'] else [c]

/-- A text on one line of a report. -/
def report (s : String) : String := String.ofList (s.toList.flatMap reportChar)

end Stencil.Text
