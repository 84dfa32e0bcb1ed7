/-
  Stencil/Inspect/Source.lean
  ===========================
  **A literal in a file: text with its holes written out.**

  In a file a hole is written as `$`, an opening brace, the code of the hole and a closing
  brace.  The code may have braces of its own as long as they balance, so the hole ends at
  the first closing brace that no opening one in its code accounts for.  A hole that does
  not end makes the file unusable.

  `Source` keeps the text in front of the first hole and, for every hole, its code and the
  text behind it, so there is always one piece of text more than there are holes.
  `Source.written` is the file again.
-/
import Stencil.Text.Blank

namespace Stencil.Inspect

/-- The pieces of a file. -/
structure Source where
  first : List Char
  rest : List (List Char × List Char)
deriving DecidableEq, Repr

/-- A hole that does not end, by the byte at which it starts. -/
structure Unterminated where
  offset : Nat
deriving DecidableEq, Repr

namespace Source

def segments (s : Source) : List String :=
  String.ofList s.first :: s.rest.map fun r => String.ofList r.2

/-- The code of the holes, without the blanks around it. -/
def holes (s : Source) : List String :=
  s.rest.map fun r => String.ofList (Text.trimChars r.1)

theorem length_segments (s : Source) : s.segments.length = s.holes.length + 1 := by
  simp [segments, holes]

def writtenHole (code : List Char) : List Char := '$' :: '{' :: (code ++ ['}'])

def written (s : Source) : List Char :=
  s.first ++ s.rest.flatMap fun r => writtenHole r.1 ++ r.2

/-! ### Reading -/

/-- One more character in front. -/
def cons (c : Char) (s : Source) : Source := { s with first := c :: s.first }

/-- One more hole in front. -/
def consHole (code : List Char) (s : Source) : Source := ⟨[], (code, s.first) :: s.rest⟩

/-- The number of open braces after one more character of a hole. -/
def openAfter (depth : Nat) (c : Char) : Nat :=
  if c = '{' then depth + 1 else if c = '}' then depth - 1 else depth

mutual

/-- The pieces of the rest of a file that begins in text, at the byte `offset`. -/
def readText (offset : Nat) : List Char → Except Unterminated Source
  | [] => .ok ⟨[], []⟩
  | '$' :: '{' :: cs => (readHole offset (offset + 2) 0 cs).map fun (code, s) => consHole code s
  | c :: cs => (readText (offset + c.utf8Size) cs).map (cons c)

/-- The pieces of the rest of a file that begins in the hole that starts at the byte
    `start`, with `depth` braces open: the rest of its code, and the pieces behind it. -/
def readHole (start offset depth : Nat) : List Char → Except Unterminated (List Char × Source)
  | [] => .error ⟨start⟩
  | c :: cs =>
    if c = '}' ∧ depth = 0 then (readText (offset + 1) cs).map fun s => ([], s)
    else
      (readHole start (offset + c.utf8Size) (openAfter depth c) cs).map fun (code, s) =>
        (c :: code, s)

end

def read (file : String) : Except Unterminated Source := readText 0 file.toList

/-! ### Balance -/

/-- Whether code may stand in a hole, with `depth` braces open: no closing brace comes
    before its opening one, and all are closed in the end. -/
def isBalanced (depth : Nat) : List Char → Bool
  | [] => depth == 0
  | c :: cs => !(c == '}' && depth == 0) && isBalanced (openAfter depth c) cs

/-- Whether a text is free of the beginning of a hole. -/
def isPlain : List Char → Bool
  | '$' :: '{' :: _ => false
  | [] => true
  | _ :: cs => isPlain cs

end Source
end Stencil.Inspect
