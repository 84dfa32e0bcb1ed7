/-
  Stencil/Number/Shortest.lean
  ============================
  **The fewest decimal digits that read back as the same number.**

  The reals that round to `m · 2^q` form an interval around it: half a unit to
  either side, a quarter below a power of two, and its ends belong to it exactly
  when `m` is even.  For one digit, two digits and so on the two neighbours of the
  value on that decimal grid are tested against the interval, in exact natural
  arithmetic; the first grid with a hit gives the digits.  Of two hits the nearer
  wins, and an exact tie goes to the larger.
-/
import Stencil.Number.Basic

namespace Stencil

/-- The decimal number `digits · 10^exponent`. -/
structure Decimal where
  digits : Nat
  exponent : Int
deriving DecidableEq, Repr

namespace Number

/-- How `d · 10^s` compares with `x · 2^t`. -/
def compareScaled (d : Nat) (s : Int) (x : Nat) (t : Int) : Ordering :=
  compare (d * Nat.pow 10 s.toNat * Nat.pow 2 (-t).toNat)
    (x * Nat.pow 2 t.toNat * Nat.pow 10 (-s).toNat)

/-- The greatest `d` with `d · 10^s ≤ x · 2^t`. -/
def floorScaled (x : Nat) (t s : Int) : Nat :=
  x * Nat.pow 2 t.toNat * Nat.pow 10 (-s).toNat / (Nat.pow 10 s.toNat * Nat.pow 2 (-t).toNat)

/-- The number of digits before the decimal point of `x · 2^t`, negative when
    zeros follow the point: the least `k` with `x · 2^t < 10^k`. -/
def decimalPlaces (x : Nat) (t : Int) : Int :=
  ((Nat.toDigits 10 (floorScaled x t (-400))).length : Int) - 400

/-- Whether `d · 10^s` reads back as `m · 2^q`.  Bounds are counted in quarters of
    the unit `2^q`. -/
def readsBack (m : Nat) (q : Int) (d : Nat) (s : Int) : Bool :=
  let below := compareScaled d s (4 * m - if m = fullSignificand then 1 else 2) (q - 2)
  let above := compareScaled d s (4 * m + 2) (q - 2)
  if m % 2 = 0 then below.isGE && above.isLE else below.isGT && above.isLT

/-- The neighbour of `m · 2^q` among the multiples of `10^s` that reads back, if
    one does. -/
def gridHit? (m : Nat) (q s : Int) : Option Decimal :=
  let d := floorScaled m q s
  match readsBack m q d s, readsBack m q (d + 1) s with
  | true, true =>
    if (compareScaled (2 * d + 1) s (2 * m) q).isLE then some ⟨d + 1, s⟩ else some ⟨d, s⟩
  | true, false => some ⟨d, s⟩
  | false, true => some ⟨d + 1, s⟩
  | false, false => none

/-- The first hit on the grids `10^s`, `10^(s-1)`, …, of which there are `n`. -/
def firstHit (m : Nat) (q : Int) : Nat → Int → Decimal
  | 0, s => ⟨floorScaled m q s, s⟩
  | n + 1, s =>
    match gridHit? m q s with
    | some d => d
    | none => firstHit m q n (s - 1)

/-- The shortest decimal that reads back as `m · 2^q`, for positive `m`. -/
def shortest (m : Nat) (q : Int) : Decimal :=
  firstHit m q 17 (decimalPlaces m q - 1)

end Number
end Stencil
