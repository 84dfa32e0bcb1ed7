/-
  Stencil/Markup/Reference.lean
  =============================
  **Character references.**

  A reference is a name or a number between `&` and `;`.  Six names are known:
  `amp`, `lt`, `gt`, `quot`, `apos` and `nbsp`.  A number is written in decimal
  after `#` or in base sixteen after `#x`, with up to seven characters, which may
  begin with a plus sign, and must be the number of a character.  Whatever else
  follows an `&` is left as it stands, and nothing is read twice.
-/

namespace Stencil.Markup

/-- The references with a name, each with the `;` that ends it. -/
def namedReferences : List (List Char × Char) :=
  [("amp;".toList, '&'), ("lt;".toList, '<'), ("gt;".toList, '>'), ("quot;".toList, '"'),
    ("apos;".toList, '\''), ("nbsp;".toList, '\u00A0')]

/-- The value of a digit in a base up to sixteen. -/
def digitValue? (base : Nat) (c : Char) : Option Nat :=
  let v :=
    if c.isDigit then c.toNat - '0'.toNat
    else if 'a' ≤ c && c ≤ 'f' then c.toNat - 'a'.toNat + 10
    else if 'A' ≤ c && c ≤ 'F' then c.toNat - 'A'.toNat + 10
    else base
  if v < base then some v else none

/-- The number that digits spell, if there is at least one and all are digits. -/
def number? (base : Nat) : List Char → Option Nat
  | [] => none
  | cs => cs.foldlM (fun n c => (digitValue? base c).map (n * base + ·)) 0

/-- The number of a reference, with or without a plus sign. -/
def signedNumber? (base : Nat) : List Char → Option Nat
  | '+' :: cs => number? base cs
  | cs => number? base cs

def charOfNumber? (n : Nat) : Option Char :=
  if n.isValidChar then some (Char.ofNat n) else none

/-- The digits of a numeric reference with its base, and the number of characters
    in front of them, for what follows the `&`. -/
def numericBody? : List Char → Option (Nat × Nat × List Char)
  | '#' :: 'x' :: cs => some (16, 2, cs)
  | '#' :: 'X' :: cs => some (16, 2, cs)
  | '#' :: cs => some (10, 1, cs)
  | _ => none

/-- A numeric reference in what follows an `&`: its character and its length. -/
def numericReference? (cs : List Char) : Option (Char × Nat) := do
  let (base, front, body) ← numericBody? cs
  let digits := body.takeWhile (· != ';')
  if body.length = digits.length || 7 < digits.length then none
  else
    let n ← signedNumber? base digits
    let c ← charOfNumber? n
    some (c, front + digits.length + 1)

/-- A reference in what follows an `&`: its character and its length. -/
def reference? (cs : List Char) : Option (Char × Nat) :=
  match namedReferences.find? (fun r => r.1.isPrefixOf cs) with
  | some (name, c) => some (c, name.length)
  | none => numericReference? cs

/-- The characters with all references replaced. -/
def decodeChars : List Char → List Char
  | [] => []
  | c :: cs =>
    if c = '&' then
      match reference? cs with
      | some (r, n) => r :: decodeChars (cs.drop n)
      | none => '&' :: decodeChars cs
    else c :: decodeChars cs
termination_by cs => cs.length
decreasing_by all_goals simp only [List.length_drop, List.length_cons]; omega

def decodeReferences (s : String) : String := String.ofList (decodeChars s.toList)

end Stencil.Markup
