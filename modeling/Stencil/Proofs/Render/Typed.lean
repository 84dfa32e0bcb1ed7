/-
  Stencil/Proofs/Render/Typed.lean
  ================================
  **Signals with types, and code that keeps them.**

  A signal may be meant to hold scripts of one kind only, and what is said of a reader
  then depends on all code that ever writes the signal.  `Script.Keeps T` says of a piece
  of code that, however it is run, it sets signals to what `T` allows.  A world is
  `Proper` if its signals hold what they may, all code in it keeps the types, and all
  nodes that it mentions are on its page.
-/
import Stencil.Proofs.Render.Yield
import Stencil.Proofs.Template.Outcome
import Stencil.Proofs.Value.Within

namespace Stencil

/-- What the signals may hold. -/
abbrev Types := String → Script → Prop

/-- A script and all that it is made of set signals to what they may hold. -/
inductive Script.Keeps (T : Types) : Script → Prop where
  | intro {code : Script} (hparts : ∀ part ∈ code.parts, Keeps T part)
      (htyped : ∀ a ∈ code.assigns, T a.1 a.2) (hassigned : ∀ a ∈ code.assigns, Keeps T a.2) :
      Keeps T code

theorem Script.keeps_empty (T : Types) : Script.empty.Keeps T := .intro nofun nofun nofun

/-- The nodes of a page of this size, and code that keeps the types. -/
def Bounds.typed (T : Types) (size : Nat) : Bounds where
  node := fun id : Nat => id < size
  site := fun id : Nat => id < size
  signal _ := True
  code := Script.Keeps T
  write name code := T name code ∧ code.Keeps T
  source source := ∀ (slot : Nat) (root : Nat), source.skeleton? slot = some root → root < size
  content _ := True
  literal _ := True
  setter _ := True

theorem Bounds.typed_mono (T : Types) {n m : Nat} (h : n ≤ m) : (typed T n).Le (typed T m) where
  node _ hid := Nat.lt_of_lt_of_le hid h
  site _ hid := Nat.lt_of_lt_of_le hid h
  signal _ _ := trivial
  code _ hcode := hcode
  write _ _ hwrite := hwrite
  source _ hsource := fun slot root hroot => Nat.lt_of_lt_of_le (hsource slot root hroot) h
  content _ _ := trivial
  literal _ _ := trivial
  setter _ _ := trivial

theorem Script.Keeps.parts {T : Types} {code : Script} (h : code.Keeps T) :
    ∀ part ∈ code.parts, part.Keeps T := by
  cases h with
  | intro hparts _ _ => exact hparts

theorem Script.Keeps.assigns {T : Types} {code : Script} (h : code.Keeps T) :
    ∀ a ∈ code.assigns, T a.1 a.2 ∧ a.2.Keeps T := by
  cases h with
  | intro _ htyped hassigned => exact fun a ha => ⟨htyped a ha, hassigned a ha⟩

namespace Render

/-- All that a world holds is typed, and the nodes that it mentions are there. -/
structure World.Proper (T : Types) (w : World) : Prop where
  live : w.live = true
  forest : w.page.IsForest
  signals : ∀ name, T name (w.held name) ∧ (w.held name).Keeps T
  effects : ∀ (i : Nat) e, w.graph.effects[i]? = some e →
    Binding.Within (Bounds.typed T w.page.size) e.body
  stored : ∀ p ∈ w.stored, p.2.Within (Bounds.typed T w.page.size)
  containers : ∀ p ∈ w.containers, (fun id : Nat => id < w.page.size) p.2
  cached : ∀ p ∈ w.cache.entries, ∀ source, p.2 = .ok source →
    (Bounds.typed T w.page.size).source source

theorem World.held_initial (signals : List (String × Script)) (name : String) :
    (World.initial signals).held name = ((signals.find? (·.1 == name)).map (·.2)).getD .empty := by
  rw [World.held, Signal.Graph.peek?, World.initial, Signal.Graph.cell?_ofValues, Option.map_map]
  rfl

/-- Before anything has happened only the signals have to hold what they may. -/
theorem World.proper_initial {T : Types} {signals : List (String × Script)}
    (h : ∀ name, T name ((World.initial signals).held name) ∧
      ((World.initial signals).held name).Keeps T) : (World.initial signals).Proper T where
  live := rfl
  forest := Document.isForest_empty
  signals := h
  effects i e he := by simp [World.initial, Signal.Graph.ofValues] at he
  stored := nofun
  containers := nofun
  cached := nofun

end Render
end Stencil
