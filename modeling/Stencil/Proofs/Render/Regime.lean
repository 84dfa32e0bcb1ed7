/-
  Stencil/Proofs/Render/Regime.lean
  =================================
  **Regimes: what every part of the renderer keeps.**

  A regime looks at worlds through states of its own, which may know more than the world
  does.  It says for each kind of code what that code may hold in a state
  (`Regime.bounds`), and how a state may change while code of that kind runs
  (`Regime.Next`).  `Does` is the statement about an action that is proved of all parts:
  from every state, if the action has a result, the world that it leaves has a state
  again, which is reached in a permitted way.

  A regime only has to answer for the few things that are done to a world in one go: a
  node made, moved or changed, a copy, a literal compiled, a signal read (`Lawful`).
  What the parts of the renderer make of them is proved once, in
  `Stencil.Proofs.Render.Governed`.

  Statements are about two actions at a time, of which the second has the results of the
  first.  Said of a renderer and of the one a level deeper, this makes a result that
  there is once the same at all larger depths.  The second action may have a world of its
  own that goes along with the first, as long as both have the same page.
-/
import Stencil.Proofs.Markup.Elements
import Stencil.Proofs.Render.Insert
import Stencil.Proofs.Value.Within
import Stencil.Render.Machine

namespace Stencil

theorem Registry.get?_of_componentFor? {κ : Type} {r : Registry κ} {t : Markup.Tag} {body : κ}
    (h : r.componentFor? t = some body) : r.get? t.name = some body := by
  rw [componentFor?] at h
  split at h
  · exact h
  · cases h

namespace Render

/-- States for worlds, with what code of each kind may hold, and how states may change while it
    runs.  Nodes may be put below a `place`, and what stands below a `hub` may be taken.  The world
    that goes along is the same one unless something else is said. -/
structure Regime where
  Kind : Type
  State : Type
  world : State → World
  other : State → World := world
  same_page : ∀ s, (other s).page = (world s).page := by exact fun _ => rfl
  same_live : ∀ s, (other s).live = (world s).live := by exact fun _ => rfl
  bounds : Kind → State → Bounds
  place : Kind → State → NodeId → Prop
  hub : Kind → State → NodeId → Prop
  Next : Kind → State → State → Prop

namespace Regime

variable {G : Regime} {α β : Type}

/-- Whenever `act` has a result, `act'` has the same in the world that goes along, and it leads to
    a next state with `Q`. -/
def Does (G : Regime) (k : G.Kind) (s : G.State) (act act' : Run α) (Q : α → G.State → Prop) :
    Prop :=
  ∀ a w, act (G.world s) = some (a, w) → ∃ s', act' (G.other s) = some (a, G.other s') ∧
    G.world s' = w ∧ G.Next k s s' ∧ Q a s'

/-- What a regime has to answer for. -/
structure Lawful (f : Factory) (G : Regime) : Prop where
  refl : ∀ k s, G.Next k s s
  trans : ∀ k s s₁ s', G.Next k s s₁ → G.Next k s₁ s' → G.Next k s s'
  mono : ∀ k j s s', G.Next k s s' → (G.bounds j s).Le (G.bounds j s')
  place_mono : ∀ k s s' id, G.Next k s s' → G.place k s id → G.place k s' id
  hub_mono : ∀ k s s' id, G.Next k s s' → G.hub k s id → G.hub k s' id
  coherent : ∀ k s, (G.bounds k s).Coherent
  setter : ∀ k s name, (G.bounds k s).setter (f.policy.resolve name).1.setter
  content : ∀ k s source, (G.bounds k s).source source → (G.bounds k s).content source.tree.children
  component : ∀ k s nodes, (G.bounds k s).content nodes → ∀ e ∈ Markup.elementsOfAll nodes,
    (G.bounds k s).content e.2 ∧ ∀ body, f.registry.componentFor? e.1 = some body →
    (G.bounds k s).code body
  literal : ∀ k s name values, (G.bounds k s).code (.html name values) →
    (G.bounds k s).literal (f.literal name)
  site : ∀ k s id, (G.bounds k s).site id → (G.bounds k s).node id
  place : ∀ k s id, (G.bounds k s).node id → G.place k s id
  parent : ∀ k s id p, (G.bounds k s).node id → (G.world s).page.parent? id = some p → G.place k s p
  fragment : ∀ k s id, (G.bounds k s).node id → (G.world s).page.isFragment id = true → G.hub k s id
  children : ∀ k s id, G.hub k s id → ∀ c ∈ (G.world s).page.children id, (G.bounds k s).node c
  log : ∀ k s e, G.Does k s (log e) (log e) fun _ _ => True
  create : ∀ k s (c : Document.Content Value Action),
    (∀ e, c = .element e → e.properties = [] ∧ e.listeners = []) →
    G.Does k s (onPage (·.create c)) (onPage (·.create c)) fun id s' => (G.bounds k s').node id
  detach : ∀ k s id, (G.bounds k s).node id →
    G.Does k s (changePage (·.detach id)) (changePage (·.detach id)) fun _ _ => True
  setText : ∀ k s id value, (G.bounds k s).node id →
    G.Does k s (changePage (·.setText id value)) (changePage (·.setText id value)) fun _ _ => True
  insert : ∀ k s p c reference, G.place k s p → (G.bounds k s).node c →
    G.Does k s (changePage (·.insertBefore p c reference))
      (changePage (·.insertBefore p c reference))
      fun _ _ => True
  apply : ∀ k s id (setter : Setter) name v, (G.bounds k s).site id → (G.bounds k s).setter setter →
    v.Within (G.bounds k s) →
    G.Does k s (changePage (·.updateElement id (setter.write f.config name v)))
      (changePage (·.updateElement id (setter.write f.config name v))) fun _ _ => True
  copy : ∀ k s (source : Compiled) slot root, (G.bounds k s).source source →
    source.skeleton? slot = some root →
    G.Does k s (onPage (·.copy root)) (onPage (·.copy root)) fun id s' =>
      G.hub k s' id ∧ ∀ x ∈ stations (G.world s').page id,
        (G.bounds k s').node x ∧ (G.bounds k s').site x
  compile : ∀ k s l, (G.bounds k s).literal l → G.Does k s (compile f l) (compile f l) fun out s' =>
    ∀ source, out = .ok source → (G.bounds k s').source source
  read : ∀ k s name, G.Does k s (readSignal name) (readSignal name) fun code s' =>
    (G.bounds k s).signal name → (G.bounds k s').code code
  untrack : ∀ k s, G.Does k s (modify fun g : SignalGraph => g.openUntracked)
    (modify fun g : SignalGraph => g.openUntracked) fun _ _ => True
  track : ∀ k s, G.Does k s (modify fun g : SignalGraph => g.closeScope)
    (modify fun g : SignalGraph => g.closeScope) fun _ _ => True
  container : ∀ k s name, (G.bounds k s).code (.container name) →
    G.Does k s (container name) (container name) fun id s' => (G.bounds k s').node id
  stored : ∀ k s name, (G.bounds k s).code (.stored name) →
    G.Does k s (storedValue name) (storedValue name) fun v s' => v.Within (G.bounds k s')

/-- What running effects has to come to: writes and registrations are permitted. -/
structure Runs (G : Regime) (exec exec' : Nat → Run Unit) : Prop where
  write : ∀ k s name code next, (G.bounds k s).code (.write name code next) →
    G.Does k s (Signal.write (σ := Script) (β := Binding) exec name code)
      (Signal.write (σ := Script) (β := Binding) exec' name code) fun _ _ => True
  register : ∀ k s (b : Binding), b.Within (G.bounds k s) →
    G.Does k s (Signal.register (σ := Script) (β := Binding) exec b)
      (Signal.register (σ := Script) (β := Binding) exec' b) fun _ _ => True

/-- The parts of a renderer keep to the regime, and those of another one have their results. -/
structure Serves (G : Regime) (c c' : Calls) : Prop where
  build : ∀ k s env code, (∀ ps, env = some ps → Props.Within (G.bounds k s) ps) →
    (G.bounds k s).code code →
    G.Does k s (c.build env code) (c'.build env code) fun v s' => v.Within (G.bounds k s')
  read : ∀ k s r, r.Within (G.bounds k s) →
    G.Does k s (c.read r) (c'.read r) fun v s' => v.Within (G.bounds k s')
  resolve : ∀ k s v, v.Within (G.bounds k s) →
    G.Does k s (c.resolve v) (c'.resolve v) fun v s' => v.Within (G.bounds k s')
  nodes : ∀ k s v, v.Within (G.bounds k s) →
    G.Does k s (c.nodes v) (c'.nodes v) fun ns s' => ∀ n ∈ ns, (G.bounds k s').node n
  container : ∀ k s source values slot nodes, (G.bounds k s).source source →
    (G.bounds k s).content nodes → (∀ v ∈ values, v.Within (G.bounds k s)) →
    G.Does k s (c.container source values slot nodes) (c'.container source values slot nodes)
      fun v s' => v.Within (G.bounds k s')
  runs : G.Runs c.effect c'.effect

/-! ### Putting actions together -/

variable {f : Factory} {k : G.Kind} {s : G.State}

namespace Does

theorem of_run {act : Run α} {Q : α → G.State → Prop} (hsame : ∀ s, G.other s = G.world s)
    (h : ∀ a w, act (G.world s) = some (a, w) → ∃ s', G.world s' = w ∧ G.Next k s s' ∧ Q a s') :
    G.Does k s act act Q := by
  intro a w hrun
  obtain ⟨s', rfl, hnext, hQ⟩ := h a w hrun
  exact ⟨s', by rw [hsame, hsame, hrun], rfl, hnext, hQ⟩

theorem exists_next {act act' : Run α} {Q : α → G.State → Prop} {a : α} {w : World}
    (h : G.Does k s act act' Q) (hrun : act (G.world s) = some (a, w)) :
    ∃ s', G.world s' = w ∧ G.Next k s s' ∧ Q a s' := by
  obtain ⟨s', -, hnext⟩ := h a w hrun
  exact ⟨s', hnext⟩

theorem pure (law : G.Lawful f) {a : α} {Q : α → G.State → Prop} (h : Q a s) :
    G.Does k s (Pure.pure a) (Pure.pure a) Q := by
  intro a' w hrun
  obtain ⟨rfl, rfl⟩ : a = a' ∧ G.world s = w := by simpa using Option.some.inj hrun
  exact ⟨s, rfl, rfl, law.refl k s, h⟩

/-- An action that never has a result. -/
theorem failure {act : Run α} {Q : α → G.State → Prop} :
    G.Does k s (Alternative.failure : Run α) act Q := by
  intro a w hrun
  cases hrun

theorem bind (law : G.Lawful f) {x x' : Run α} {g g' : α → Run β} {Q : α → G.State → Prop}
    {R : β → G.State → Prop} (hx : G.Does k s x x' Q)
    (hg : ∀ a s', G.Next k s s' → Q a s' → G.Does k s' (g a) (g' a) R) :
    G.Does k s (x >>= g) (x' >>= g') R := by
  intro b w hrun
  obtain ⟨⟨a, w₁⟩, hfirst, hrest⟩ := Option.bind_eq_some_iff.mp hrun
  obtain ⟨s₁, hfirst', rfl, hnext, hQ⟩ := hx a w₁ hfirst
  obtain ⟨s', hrest', rfl, hnext', hR⟩ := hg a s₁ hnext hQ b w hrest
  refine ⟨s', ?_, rfl, law.trans k s s₁ s' hnext hnext', hR⟩
  rw [run_bind hfirst']
  exact hrest'

theorem weaken {x x' : Run α} {Q R : α → G.State → Prop} (hx : G.Does k s x x' Q)
    (h : ∀ a s', G.Next k s s' → Q a s' → R a s') : G.Does k s x x' R := by
  intro a w hrun
  obtain ⟨s', hrun', hworld, hnext, hQ⟩ := hx a w hrun
  exact ⟨s', hrun', hworld, hnext, h a s' hnext hQ⟩

theorem map (law : G.Lawful f) {x x' : Run α} {g : α → β} {Q : α → G.State → Prop}
    {R : β → G.State → Prop} (hx : G.Does k s x x' Q)
    (h : ∀ a s', G.Next k s s' → Q a s' → R (g a) s') :
    G.Does k s (g <$> x) (g <$> x') R := by
  rw [map_eq_pure_bind, map_eq_pure_bind]
  exact hx.bind law fun a s' hnext hQ => .pure law (h a s' hnext hQ)

theorem discard (law : G.Lawful f) {x x' : Run α} {Q : α → G.State → Prop}
    (hx : G.Does k s x x' Q) :
    G.Does k s (Functor.discard x) (Functor.discard x') fun _ _ => True :=
  hx.map law fun _ _ _ _ => trivial

/-- What is known of a result, with the run that it came of. -/
theorem record {x x' : Run α} {Q : α → G.State → Prop} (hx : G.Does k s x x' Q) :
    G.Does k s x x' fun a s' => Q a s' ∧ x (G.world s) = some (a, G.world s') := by
  intro a w hrun
  obtain ⟨s', hrun', rfl, hnext, hQ⟩ := hx a w hrun
  exact ⟨s', hrun', rfl, hnext, hQ, hrun⟩

/-- Looking at the page changes nothing. -/
theorem page {g g' : Page → Run α} {Q : α → G.State → Prop}
    (h : G.Does k s (g (G.world s).page) (g' (G.world s).page) Q) :
    G.Does k s (Render.page >>= g) (Render.page >>= g') Q := by
  intro a w hrun
  obtain ⟨s', hrun', hnext⟩ := h a w hrun
  rw [← G.same_page] at hrun'
  exact ⟨s', hrun', hnext⟩

/-- Looking at the world changes nothing. -/
theorem look {g g' : World → Run α} {Q : α → G.State → Prop}
    (h : G.Does k s (g (G.world s)) (g' (G.other s)) Q) :
    G.Does k s (getThe World >>= g) (getThe World >>= g') Q := h

theorem look_same {g g' : World → Run α} {Q : α → G.State → Prop}
    (hsame : ∀ s, G.other s = G.world s) (h : G.Does k s (g (G.world s)) (g' (G.world s)) Q) :
    G.Does k s (getThe World >>= g) (getThe World >>= g') Q :=
  look (by rw [hsame]; exact h)

/-- The page changed twice. -/
theorem change_comp (law : G.Lawful f) {p q : Page → Page}
    (hp : G.Does k s (changePage p) (changePage p) fun _ _ => True)
    (hq : ∀ s', G.Next k s s' → G.Does k s' (changePage q) (changePage q) fun _ _ => True) :
    G.Does k s (changePage fun d => q (p d)) (changePage fun d => q (p d)) fun _ _ => True :=
  hp.bind law fun _ s' hnext _ => hq s' hnext

/-- The page changed once for each of several things. -/
theorem change_foldl {ι : Type} (law : G.Lawful f) {p : Page → ι → Page} {xs : List ι}
    {P : ι → G.State → Prop} (hmono : ∀ x s s', G.Next k s s' → P x s → P x s')
    (hp : ∀ x s, P x s → G.Does k s (changePage (p · x)) (changePage (p · x)) fun _ _ => True)
    (hxs : ∀ x ∈ xs, P x s) :
    G.Does k s (changePage (xs.foldl p)) (changePage (xs.foldl p)) fun _ _ => True := by
  induction xs generalizing s with
  | nil => exact .pure law trivial
  | cons x xs ih =>
    obtain ⟨hx, hrest⟩ := List.forall_mem_cons.mp hxs
    exact (hp x s hx).change_comp law fun s' hnext => ih fun y hy => hmono y s s' hnext (hrest y hy)

end Does

end Regime
end Render
end Stencil
