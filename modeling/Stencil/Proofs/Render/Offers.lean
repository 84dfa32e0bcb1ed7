/-
  Stencil/Proofs/Render/Offers.lean
  =================================
  **Which props a component gets.**

  The attributes of a component offer props one after the other, each attribute one and a
  spread any number, and the content of the element comes last.  A component gets each
  name once: in the place where it was offered first, with what was offered last
  (`invoke_offers`).

  Reading happens while the offers are made, and only for spreads.  What becomes of the
  offers then does not depend on the world any more.
-/
import Stencil.Proofs.Render.Direct

namespace Stencil

open Markup (Attr Node Tag)

/-! ### Setting props in order -/

namespace Props

/-- The names of props, in order. -/
def names (ps : Props) : List String := ps.map (·.1)

theorem names_set (ps : Props) (name : String) (e : Entry) :
    names (ps.set name e) = if name ∈ names ps then names ps else names ps ++ [name] := by
  induction ps with
  | nil => rfl
  | cons p rest ih =>
    rw [set]
    by_cases h : p.1 = name
    · have hmem : name ∈ names (p :: rest) := List.mem_cons.mpr (Or.inl h.symm)
      rw [if_pos h, if_pos hmem]
      exact congrArg (· :: names rest) h.symm
    · have hmem : name ∈ names (p :: rest) ↔ name ∈ names rest :=
        List.mem_cons.trans (or_iff_right (Ne.symm h))
      rw [if_neg h, names, List.map_cons]
      change p.1 :: names (set rest name e) = _
      rw [ih]
      simp only [hmem]
      split <;> rfl

end Props

namespace Render

variable {f : Factory} {source : Compiled} {values : List Value} {t : Tag} {children : List Node}
  {body : Script}

/-! ### What is offered -/

/-- The entry that an explicit attribute offers for a value: a reader is read when the prop is asked
    for, but a ref or what looks like an event gets the reader itself. -/
def offered (name : String) : Value → Entry
  | .reactive r =>
    if name = "ref" ∨ "on".toList <+: name.toList ∨
      "@".toList <+: name.toList then .immediate (.reactive r)
    else .reactive r
  | v => .immediate v

end Render
end Stencil
