/-
  Stencil/Proofs/Signal/Bracket.lean
  ==================================
  **Who becomes a subscriber while an effect is running.**

  Readings count for the innermost scope only.  So an effect that is running becomes a
  subscriber only of what is read while its own scope is the innermost; whatever happens
  inside another bracket, the run of an effect or an untracked stretch, is none of its
  business.

  There are two relations of a graph before a stretch and the graph after it.  `Contained`
  spares the effect for which readings count: it may have become a subscriber.
  `Undisturbed` spares nobody.  A bracket around a stretch turns the first into the second
  (`Contained.untracked`, `Contained.run`).
-/
import Stencil.Proofs.Signal.Veil

namespace Stencil.Signal.Graph

variable {σ β : Type} {E : Nat} {g g₁ g' : Graph σ β}

/-- The scopes are those from before, what was running is running, and `E`, if it was, has only
    become a subscriber if readings count for it. -/
structure Contained (E : Nat) (g g' : Graph σ β) : Prop where
  scopes : g'.scopes = g.scopes
  running : ∀ i, g.running i = true → g'.running i = true
  subscribed : g.running E = true → g.observer? ≠ some E → ∀ x, E ∈ g'.subscribers x ↔
    E ∈ g.subscribers x

/-- The scopes are those from before, what was running is running, and `E`, if it was, has not
    become a subscriber. -/
structure Undisturbed (E : Nat) (g g' : Graph σ β) : Prop where
  scopes : g'.scopes = g.scopes
  running : ∀ i, g.running i = true → g'.running i = true
  subscribed : g.running E = true → ∀ x, E ∈ g'.subscribers x ↔ E ∈ g.subscribers x

theorem observer?_of_scopes (h : g'.scopes = g.scopes) : g'.observer? = g.observer? := by
  rw [observer?, h, observer?]

theorem subscribers_of_cells (h : g'.cells = g.cells) (x : String) :
    g'.subscribers x = g.subscribers x := by
  rw [subscribers, cell?, h, subscribers, cell?]

theorem running_of_effects (h : g'.effects = g.effects) (i : Nat) : g'.running i = g.running i := by
  rw [running, h, running]

/-- What is started was not running; all that was running still is, in an inner scope. -/
theorem start_some {id : Nat} {b : β} (h : (g.start id).1 = some b) :
    g.running id = false ∧ (g.start id).2.scopes = .effect id :: g.scopes ∧
      ∀ i, g.running i = true → (g.start id).2.running i = true := by
  rw [start] at h ⊢
  split at h
  · cases h
  · rename_i e he
    split at h
    · cases h
    · rename_i hidle
      have hrest : g.running id = false := by
        rw [running, he]
        exact Bool.not_eq_true _ ▸ hidle
      rw [if_neg hidle]
      refine ⟨hrest, rfl, fun i hi => ?_⟩
      have hne : id ≠ i := by
        rintro rfl
        rw [hrest] at hi
        cases hi
      rw [running, Array.getElem?_modify, if_neg hne, ← running, hi]

namespace Undisturbed

theorem contained (h : Undisturbed E g g') : Contained E g g' :=
  ⟨h.scopes, h.running, fun hE _ => h.subscribed hE⟩

/-- Nothing but values has changed. -/
theorem of_eq (hscopes : g'.scopes = g.scopes) (heffects : g'.effects = g.effects)
    (hcells : ∀ x, g'.subscribers x = g.subscribers x) : Undisturbed E g g' where
  scopes := hscopes
  running i hi := by rw [running_of_effects heffects, hi]
  subscribed _ x := by rw [hcells]

theorem refl (g : Graph σ β) : Undisturbed E g g := of_eq rfl rfl fun _ => rfl

theorem trans (h : Undisturbed E g g₁) (h' : Undisturbed E g₁ g') : Undisturbed E g g' where
  scopes := h'.scopes.trans h.scopes
  running i hi := h'.running i (h.running i hi)
  subscribed hE x := (h'.subscribed (h.running E hE) x).trans (h.subscribed hE x)

theorem write (g : Graph σ β) (name : String) (value : σ) :
    Undisturbed E g (g.write name value).2 :=
  of_eq rfl rfl (subscribers_write g name value)

theorem register (g : Graph σ β) (b : β) : Undisturbed E g (g.register b).2 where
  scopes := rfl
  running i hi := by
    obtain ⟨e, he, hrunning⟩ := running_iff.mp hi
    have hlt : i < g.effects.size := (Array.getElem?_eq_some_iff.mp he).1
    refine running_iff.mpr ⟨e, ?_, hrunning⟩
    rw [Graph.register, Array.getElem?_push, if_neg (Nat.ne_of_lt hlt), he]
  subscribed _ _ := Iff.rfl

end Undisturbed

namespace Contained

theorem refl (g : Graph σ β) : Contained E g g := (Undisturbed.refl g).contained

theorem trans (h : Contained E g g₁) (h' : Contained E g₁ g') : Contained E g g' where
  scopes := h'.scopes.trans h.scopes
  running i hi := h'.running i (h.running i hi)
  subscribed hE hne x := by
    have hobserver : g₁.observer? ≠ some E := by rwa [observer?_of_scopes h.scopes]
    exact (h'.subscribed (h.running E hE) hobserver x).trans (h.subscribed hE hne x)

/-- A reading makes a subscriber of the effect for which it counts, and of no other. -/
theorem read (g : Graph σ β) (name : String) : Contained E g (g.read name).2 where
  scopes := by
    rw [Graph.read]
    split <;> rfl
  running i hi := by rw [running_of_effects (effects_read g name), hi]
  subscribed _ hne x := by
    rw [Graph.read]
    split
    · rename_i id hid
      have hother : E ≠ id := fun heq => hne (heq ▸ hid)
      rw [subscribers, subscribers, cell?_updateCell]
      split
      · rcases g.cell? x with _ | c
        · exact Iff.rfl
        · exact mem_subscribe.trans (or_iff_left hother)
      · exact Iff.rfl
    · exact Iff.rfl

/-- In an untracked stretch readings count for nobody. -/
theorem untracked (h : Contained E g.openUntracked g') : Undisturbed E g g'.closeScope where
  scopes := by rw [closeScope, h.scopes, openUntracked, List.tail_cons]
  running := h.running
  subscribed hE := h.subscribed hE nofun

/-- While another effect runs, readings count for that one. -/
theorem run {id : Nat} {b : β} (hstart : (g.start id).1 = some b)
    (h : Contained E (g.start id).2 g') (next : β) : Undisturbed E g (g'.finish id next) := by
  obtain ⟨hidle, hscopes, hrunning⟩ := start_some hstart
  have hne (i : Nat) (hi : g.running i = true) : id ≠ i := by
    rintro rfl
    rw [hidle] at hi
    cases hi
  refine ⟨?_, fun i hi => ?_, fun hE x => ?_⟩
  · rw [finish, h.scopes, hscopes, List.tail_cons]
  · have hkept := h.running i (hrunning i hi)
    rw [Graph.running, effects_finish, if_neg (hne i hi).symm, ← Graph.running, hkept]
  · have hobserver : (g.start id).2.observer? ≠ some E := by
      rw [observer?, hscopes]
      exact fun heq => hne E hE (Option.some.inj heq)
    have hsame := h.subscribed (hrunning E hE) hobserver x
    rw [subscribers_of_cells (cells_start g id)] at hsame
    exact hsame

end Contained
end Stencil.Signal.Graph
