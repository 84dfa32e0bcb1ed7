/-
  Stencil/Number/Basic.lean
  =========================
  **Binary floating-point numbers as exact data.**

  A template number has the sixty-four bits of the IEEE 754 format `binary64`.
  It is held as those bits and never as a machine float, so that everything said
  about a number (whether it is true, what its digits are) is a statement about
  natural numbers.  `Number.shape` reads the bits; `Number.ofRatio` is the other
  direction, the nearest number to a given ratio, a tie going to the even
  significand.
-/

namespace Stencil

/-- A number, by its bits. -/
structure Number where
  bits : UInt64
deriving DecidableEq, Repr

/-- What the bits of a number say: no number at all, an infinity, or the value
    `m · 2^q` with a sign. -/
inductive Number.Shape where
  | nan
  | infinite (negative : Bool)
  | finite (negative : Bool) (m : Nat) (q : Int)
deriving DecidableEq, Repr

namespace Number

/-! ### Reading the bits -/

/-- The first significand with all fifty-three bits. -/
def fullSignificand : Nat := Nat.pow 2 52

/-- The bits of positive infinity, and the bound of the finite magnitudes. -/
def infinityBits : Nat := 0x7FF * Nat.pow 2 52

def isNegative (x : Number) : Bool := Nat.pow 2 63 ≤ x.bits.toNat

def magnitude (x : Number) : Nat := x.bits.toNat % Nat.pow 2 63

/-- The value that the bits stand for.  The eleven bits under the sign give the
    exponent; the lowest exponent and the next one share the smallest unit
    `2^-1074`, the former without the leading bit of the significand. -/
def shape (x : Number) : Shape :=
  let e : Nat := x.magnitude / Nat.pow 2 52
  let f : Nat := x.magnitude % Nat.pow 2 52
  if e = 0x7FF then
    if f = 0 then .infinite x.isNegative else .nan
  else if e = 0 then .finite x.isNegative f (-1074)
  else .finite x.isNegative (fullSignificand + f) ((e : Int) - 1075)

/-- A number counts as true unless it is zero, of either sign, or no number. -/
def isTruthy (x : Number) : Bool :=
  match x.shape with
  | .nan => false
  | .infinite _ => true
  | .finite _ m _ => m != 0

/-! ### Building numbers -/

def ofMagnitude (negative : Bool) (n : Nat) : Number :=
  ⟨UInt64.ofNat (n % Nat.pow 2 63 + if negative then Nat.pow 2 63 else 0)⟩

def zero : Number := ofMagnitude false 0

def nan : Number := ofMagnitude false (infinityBits + Nat.pow 2 51)

def infinity (negative : Bool) : Number := ofMagnitude negative infinityBits

/-- The quotient `a / b` to the nearest natural number, a tie to the even one. -/
def roundDiv (a b : Nat) : Nat :=
  let q := a / b
  let r := a % b
  if 2 * r < b then q
  else if b < 2 * r then q + 1
  else if q % 2 = 0 then q else q + 1

/-- The greatest `e` with `2^e ≤ a / b`, for positive `a` and `b`. -/
def floorLog2 (a b : Nat) : Int :=
  let e : Int := (a.log2 : Int) - b.log2
  if b * Nat.pow 2 e.toNat ≤ a * Nat.pow 2 (-e).toNat then e else e - 1

/-- The number nearest to `± a / b`.  The unit of the last place is `2^q` with `q`
    chosen so that the significand has fifty-three bits, or the smallest unit; a
    significand that rounds up to the next power of two carries into the exponent
    by itself. -/
def ofRatio (negative : Bool) (a b : Nat) : Number :=
  if a = 0 || b = 0 then ofMagnitude negative 0
  else
    let q := max (floorLog2 a b - 52) (-1074)
    let m := roundDiv (a * Nat.pow 2 (-q).toNat) (b * Nat.pow 2 q.toNat)
    ofMagnitude negative (min ((q + 1074).toNat * Nat.pow 2 52 + m) infinityBits)

end Number
end Stencil
