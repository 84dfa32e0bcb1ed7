/-
  Stencil/Number/Text.lean
  ========================
  **Numbers as text, in both directions.**

  Reading takes the usual decimal notation and gives the nearest number.  There
  are two ways of writing: the *plain* text that appears in a page, which never
  uses an exponent and writes a zero without its sign, and the *diagnostic* text,
  which always shows that a number is no integer type and keeps the sign of zero.
  Both use the shortest digits that read back.
-/
import Stencil.Number.Shortest
import Stencil.Text.Case

namespace Stencil.Number

/-! ### Writing -/

/-- The decimal digits of a number with the place of the point: `(ds, p)` stands
    for `0.ds · 10^p`, and `ds` ends in no zero. -/
def pointedDigits (m : Nat) (q : Int) : List Char × Int :=
  let d := shortest m q
  let cs := Nat.toDigits 10 d.digits
  ((cs.reverse.dropWhile (· == '0')).reverse, (cs.length : Int) + d.exponent)

/-- The digits around a decimal point, with zeros where digits are missing. -/
def positional (ds : List Char) (p : Int) : List Char :=
  if p ≤ 0 then '0' :: '.' :: List.replicate (-p).toNat '0' ++ ds
  else if (ds.length : Int) ≤ p then ds ++ List.replicate (p.toNat - ds.length) '0'
  else ds.take p.toNat ++ '.' :: ds.drop p.toNat

/-- One digit, the others behind a point, and the power of ten. -/
def scientific (ds : List Char) (p : Int) : List Char :=
  ds.take 1 ++ (if ds.length ≤ 1 then [] else '.' :: ds.drop 1) ++
    'e' :: (toString (p - 1)).toList

def signText (negative : Bool) : List Char := if negative then ['-'] else []

/-- The text of a number in a page. -/
def text (x : Number) : String :=
  match x.shape with
  | .nan => "NaN"
  | .infinite negative => String.ofList (signText negative ++ "Infinity".toList)
  | .finite negative m q =>
    if m = 0 then "0"
    else
      let (ds, p) := pointedDigits m q
      String.ofList (signText negative ++ positional ds p)

/-- The text of a number in a diagnostic: positional from `10^-4` up to `10^16`,
    always with a fraction, and with a power of ten outside. -/
def diagnostic (x : Number) : String :=
  match x.shape with
  | .nan => "NaN"
  | .infinite negative => String.ofList (signText negative ++ "inf".toList)
  | .finite negative m q =>
    String.ofList <| signText negative ++
      if m = 0 then "0.0".toList
      else
        let (ds, p) := pointedDigits m q
        if -3 ≤ p && p ≤ 16 then
          positional ds p ++ (if (ds.length : Int) ≤ p then ['.', '0'] else [])
        else scientific ds p

/-! ### Reading -/

def digitsValue (cs : List Char) : Nat :=
  cs.foldl (fun n c => n * 10 + (c.toNat - '0'.toNat)) 0

def splitSign : List Char → Bool × List Char
  | '-' :: cs => (true, cs)
  | '+' :: cs => (false, cs)
  | cs => (false, cs)

/-- The exponent at the end of a decimal notation; nothing is the exponent zero. -/
def readExponent : List Char → Option Int
  | [] => some 0
  | c :: cs =>
    if c == 'e' || c == 'E' then
      let (negative, ds) := splitSign cs
      if ds.isEmpty || !ds.all Char.isDigit then none
      else some (if negative then -(digitsValue ds : Int) else digitsValue ds)
    else none

/-- The number nearest to `± n · 10^e`.  Powers far outside the range are decided
    without being computed. -/
def ofScaled (negative : Bool) (n : Nat) (e : Int) : Number :=
  let places := ((Nat.toDigits 10 n).length : Int) + e
  if n = 0 || places < -400 then ofMagnitude negative 0
  else if 400 < places then infinity negative
  else ofRatio negative (n * Nat.pow 10 e.toNat) (Nat.pow 10 (-e).toNat)

/-- A decimal notation without its sign. -/
def readMagnitude (negative : Bool) (cs : List Char) : Option Number :=
  let whole := cs.takeWhile Char.isDigit
  let rest := cs.dropWhile Char.isDigit
  let (fraction, tail) :=
    match rest with
    | '.' :: r => (r.takeWhile Char.isDigit, r.dropWhile Char.isDigit)
    | r => ([], r)
  if whole.isEmpty && fraction.isEmpty then none
  else
    (readExponent tail).map fun e =>
      ofScaled negative (digitsValue (whole ++ fraction)) (e - fraction.length)

/-- The number that a text spells, if it spells one: decimal digits with an
    optional sign, point and exponent, or the name of a value that has no digits. -/
def ofText? (s : String) : Option Number :=
  let (negative, cs) := splitSign s.toList
  let word := Text.lower (String.ofList cs)
  if word == "nan" then some nan
  else if word == "inf" || word == "infinity" then some (infinity negative)
  else readMagnitude negative cs

end Stencil.Number
