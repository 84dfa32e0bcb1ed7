/-
  Stencil/Proofs/Attribute/Honest.lean
  ====================================
  **Setters that invent nothing.**

  An application may bring setters of its own, and a setter may do anything to an
  element.  An honest one puts nothing into the properties and the listeners that was not
  in the element or in the value.  The setters that come with the library are honest.
-/
import Stencil.Proofs.Attribute.Write
import Stencil.Proofs.Value.Within

namespace Stencil

open Document

/-- What an element holds is allowed. -/
def ElementWithin (b : Bounds) (e : ElementState) : Prop :=
  (∀ p ∈ e.properties, p.2.Within b) ∧ ∀ l ∈ e.listeners, l.handler.Within b

theorem ElementWithin.mono {b b' : Bounds} (hle : b.Le b') {e : ElementState}
    (h : ElementWithin b e) : ElementWithin b' e :=
  ⟨fun p hp => (h.1 p hp).mono hle, fun l hl => (h.2 l hl).mono hle⟩

theorem within_bare {b : Bounds} {e : ElementState} (h : e.properties = [] ∧ e.listeners = []) :
    ElementWithin b e := by
  rw [ElementWithin, h.1, h.2]
  exact ⟨fun p hp => absurd hp List.not_mem_nil, fun l hl => absurd hl List.not_mem_nil⟩

namespace Setter

/-- A setter that invents nothing: what an element holds then comes from the element or from
    the value. -/
def Honest (s : Setter) : Prop :=
  ∀ (b : Bounds) (config : Config) (name : String) (v : Value) (e : ElementState),
    v.Within b → ElementWithin b e → ElementWithin b (s.write config name v e)

theorem within_action? {b : Bounds} {v : Value} (hv : v.Within b) {a : Action}
    (h : action? v = some a) : a.Within b := by
  cases hv with
  | handler hh =>
    obtain rfl := Option.some.inj h
    exact hh
  | reactive hr =>
    obtain rfl := Option.some.inj h
    exact hr
  | func hf =>
    obtain rfl := Option.some.inj h
    exact hf
  | _ => cases h

theorem within_setPropertyIn {b : Bounds} {ps : List (String × Value)} (h : ∀ p ∈ ps, p.2.Within b)
    (name : String) {v : Value} (hv : v.Within b) :
    ∀ p ∈ setPropertyIn ps name v, p.2.Within b := by
  induction ps with
  | nil => exact List.forall_mem_singleton.mpr hv
  | cons p rest ih =>
    obtain ⟨hp, hrest⟩ := List.forall_mem_cons.mp h
    rw [setPropertyIn]
    split
    · exact List.forall_mem_cons.mpr ⟨hv, hrest⟩
    · exact List.forall_mem_cons.mpr ⟨hp, ih hrest⟩

theorem within_writeAttribute {b : Bounds} {e : ElementState} (h : ElementWithin b e)
    (space : Option String) (name : String) (v : Value) :
    ElementWithin b (writeAttribute space name v e) := by
  rw [writeAttribute]
  split <;> exact h

/-- The setters that come with the library invent nothing. -/
theorem honest_of_isBuiltIn {s : Setter} (hs : s.isBuiltIn = true) : s.Honest := by
  intro b config name v e hv he
  cases s with
  | plain => exact within_writeAttribute he _ _ _
  | event =>
    change ElementWithin b (writeListener config name v e)
    rw [writeListener]
    rcases haction : action? v with _ | a
    · exact he
    · refine ⟨he.1, List.forall_mem_append.mpr ⟨he.2, List.forall_mem_singleton.mpr ?_⟩⟩
      exact within_action? hv haction
  | property => exact ⟨within_setPropertyIn he.1 name hv, he.2⟩
  | presence => exact within_writeAttribute he _ _ _
  | ref => exact he
  | className => exact he
  | style =>
    change ElementWithin b (writeStyle name v e)
    unfold writeStyle
    split
    · exact he
    · split <;> exact he
  | xlink => exact within_writeAttribute he _ _ _
  | xml => exact within_writeAttribute he _ _ _
  | custom apply => cases hs

end Setter

end Stencil
