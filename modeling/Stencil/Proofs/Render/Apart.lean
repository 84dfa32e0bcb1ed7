/-
  Stencil/Proofs/Render/Apart.lean
  ================================
  **Renders that have nothing in common.**

  An application may render one literal many times.  A render is *kept apart* if it gets
  no nodes that are there already: neither its values nor the code that it runs, that of
  its components included, hold or fetch one (`Script.Fresh`).  Then all nodes that ever
  come of it are its own.

  `Dealings` is what an application does with such renders: things happen on behalf of the
  application as a whole or of one of the renders, each with what this party has in hand.
  What comes of a render may be mounted in nodes of the application, next to what comes of
  another.  However it goes on, no two parties hold a node in common, and what is done for
  one render leaves the nodes of the others alone.
-/
import Stencil.Proofs.Render.Typed
import Stencil.Proofs.Render.Untouched

namespace Stencil

/-- One more node is open. -/
def Document.Colouring.opening {ι : Type} (g : Colouring ι) (id : NodeId)
    (hid : g.colour id ≠ none) : Colouring ι where
  colour := g.colour
  opened x := x = id ∨ g.opened x
  coloured x h := h.elim (fun heq => heq ▸ hid) (g.coloured x)

theorem Value.mentions_node (id : NodeId) : (Value.node id).Mentions id := by
  intro h
  cases h with
  | node hne => exact hne rfl

namespace Render

open Document

/-! ### Nodes that are held -/

/-- The nodes that somebody with the given values gets hold of by going down: a node in one of
    the values, a child, or a node in a property or in a listener.  Nobody goes on below the
    nodes `mounts`. -/
inductive World.Holds (w : World) (mounts : List NodeId) (hand : List Value) : NodeId → Prop where
  | hand {v : Value} {id : NodeId} (hv : v ∈ hand) (h : v.Mentions id) : w.Holds mounts hand id
  | child {p c : NodeId} (hp : w.Holds mounts hand p) (hshut : p ∉ mounts)
      (hc : c ∈ w.page.children p) : w.Holds mounts hand c
  | property {x id : NodeId} {e : ElementState} {p : String × Value} (hx : w.Holds mounts hand x)
      (he : w.page.element? x = some e) (hp : p ∈ e.properties) (h : p.2.Mentions id) :
      w.Holds mounts hand id
  | listener {x id : NodeId} {e : ElementState} {l : Listener Action} (hx : w.Holds mounts hand x)
      (he : w.page.element? x = some e) (hl : l ∈ e.listeners) (h : l.handler.Mentions id) :
      w.Holds mounts hand id

/-- What the application has besides what is in its hand: the values stored, and the containers. -/
def World.belongings (w : World) : List Value :=
  w.stored.map (·.2) ++ w.containers.map fun p => .node p.2

namespace Palette

variable {ι : Type} [DecidableEq ι] {f : Factory}

/-- What a party has. -/
def owned (P : Palette f ι) (w : World) (hand : ι → List Value) (i : ι) : List Value :=
  if i = P.base then w.belongings ++ hand i else hand i

/-- What a party can make values of: nodes that it holds, and code of its own. -/
def grasp (P : Palette f ι) (w : World) (mounts : List NodeId) (hand : ι → List Value) (i : ι) :
    Bounds where
  node := w.Holds mounts (P.owned w hand i)
  site := w.Holds mounts (P.owned w hand i)
  signal := P.signal i
  code := P.code i
  write name code := ∀ j, P.signal j name → P.code j code
  source source := (∃ key, (key, Except.ok source) ∈ w.cache.entries) ∧
    P.Content i source.tree.children
  content := P.Content i
  literal l := P.known l ∧ ∀ body, f.Invokes l body → P.code i body
  setter := Setter.Honest

end Palette

/-! ### Dealings -/

/-- A party with some more values in hand. -/
def dealt {ι : Type} [DecidableEq ι] (hand : ι → List Value) (i : ι) (vs : List Value) :
    ι → List Value :=
  Function.update hand i (vs ++ hand i)

/-- What happens in an application whose parties keep to their own, from the beginning.  A party
    may mount a value in a node of the application, which is from then on one of the `mounts`. -/
inductive Dealings {ι : Type} [DecidableEq ι] {f : Factory} (P : Palette f ι)
    (signals : List (String × Script)) : List NodeId → (ι → List Value) → World → Prop where
  | start : Dealings P signals [] (fun _ => []) (World.initial signals)
  | step {mounts : List NodeId} {hand : ι → List Value} {w w' : World} {n : Nat} {answer : Answer}
      (h : Dealings P signals mounts hand w) (step : Step) (hstep : P.Allows step)
      (hrun : perform f (machine f n) step w = some (answer, w')) :
        Dealings P signals mounts hand w'
  | render {mounts : List NodeId} {hand : ι → List Value} {w w' : World} {n : Nat}
      {values : List Value} {out : Except TemplateError Value}
      (h : Dealings P signals mounts hand w) (i : ι) (l : Literal)
      (hl : (P.grasp w mounts hand i).literal l)
      (hvalues : ∀ v ∈ values, v.Within (P.grasp w mounts hand i))
      (hrun : renderLiteral f (machine f n) l values w = some (out, w')) :
      Dealings P signals mounts (dealt hand i out.toOption.toList) w'
  | read {mounts : List NodeId} {hand : ι → List Value} {w w' : World} {n : Nat} {r : Reader}
      {v : Value}
      (h : Dealings P signals mounts hand w) (i : ι) (hr : r.Within (P.grasp w mounts hand i))
      (hrun : (machine f n).read r w = some (v, w')) :
      Dealings P signals mounts (dealt hand i [v]) w'
  | build {mounts : List NodeId} {hand : ι → List Value} {w w' : World} {n : Nat} {code : Script}
      {v : Value} (h : Dealings P signals mounts hand w) (i : ι) (hcode : P.code i code)
      (hrun : (machine f n).build none code w = some (v, w')) :
      Dealings P signals mounts (dealt hand i [v]) w'
  | mount {mounts : List NodeId} {hand : ι → List Value} {w w' : World} {n : Nat} {parent : NodeId}
      {v : Value} (h : Dealings P signals mounts hand w) (i : ι)
      (hparent : w.Holds mounts (P.owned w hand P.base) parent)
      (hfragment : w.page.isFragment parent = false) (hv : v.Within (P.grasp w mounts hand i))
      (hrun : Render.mount f (machine f n) parent v w = some ((), w')) :
      Dealings P signals (parent :: mounts) hand w'
  | dispatch {mounts : List NodeId} {hand : ι → List Value} {w w' : World} {n count : Nat}
      {target : NodeId} (h : Dealings P signals mounts hand w) (i : ι)
      (htarget : w.Holds mounts (P.owned w hand i) target) (event : String)
      (hrun : Render.dispatch (machine f n) target event w = some (count, w')) :
      Dealings P signals mounts hand w'
  | operate {mounts : List NodeId} {hand : ι → List Value} {w : World}
      (h : Dealings P signals mounts hand w) (i : ι) (o : Operation Value Action)
      (ho : OperationWithin (P.grasp w mounts hand i) o) :
      Dealings P signals mounts (dealt hand i (madeBy w.page o)) { w with page := o.apply w.page }

/-! ### Every party has its colour -/

variable {ι : Type} {f : Factory} {P : Palette f ι} {g : Colouring ι} {w : World}

/-- One more node is open, which is no fragment. -/
theorem Tinted.opening (h : Tinted P g w) {id : NodeId} (hid : g.colour id ≠ none)
    (hfragment : w.page.isFragment id = false) : Tinted P (g.opening id hid) w where
  forest := h.forest
  sorted x n hn := by
    have hlinks {p c : NodeId} (hpc : g.Links p c) : (g.opening id hid).Links p c :=
      hpc.imp_right fun hopen => ⟨Or.inr hopen.1, hopen.2⟩
    exact ⟨fun p hp => hlinks ((h.sorted x n hn).1 p hp),
      fun c hc => hlinks ((h.sorted x n hn).2 c hc)⟩
  made := h.made
  closed x hx := by
    rcases hx with rfl | hx
    · exact hfragment
    · exact h.closed x hx
  held := h.held
  elements := h.elements
  effects := h.effects
  stored := h.stored
  containers := h.containers
  cached := h.cached

/-- Every party holds nodes of its colour only, and the open nodes are the mounts, which belong to
    the application. -/
structure Settled (P : Palette f ι) (mounts : List NodeId) (hand : ι → List Value)
    (s : Coloured P) : Prop where
  opened : ∀ x, s.colouring.opened x ↔ x ∈ mounts
  mounts : ∀ x ∈ mounts, s.colouring.colour x = some P.base
  hand : ∀ i, ∀ v ∈ hand i, v.Within (P.bounds s.colouring s.world i)

namespace Settled

variable {mounts : List NodeId} {hand : ι → List Value} {s s' : Coloured P} {i j : ι}

/-- What is held without going on below open nodes is of one colour. -/
theorem holds (h : Settled P mounts hand s) {vs : List Value}
    (hvs : ∀ v ∈ vs, v.Within (P.bounds s.colouring s.world i)) {id : NodeId}
    (hid : s.world.Holds mounts vs id) : s.colouring.colour id = some i := by
  induction hid with
  | hand hv hm => exact colour_of_value hm (hvs _ hv)
  | child _ hshut hc ih =>
    exact s.tinted.sorted.child_some ih (fun hopen => hshut ((h.opened _).mp hopen)) hc
  | property _ he hp hm ih => exact colour_of_value hm ((s.tinted.elements _ i _ ih he).1 _ hp)
  | listener _ he hl hm ih => exact colour_of_action hm ((s.tinted.elements _ i _ ih he).2 _ hl)

theorem not_mem_mounts (h : Settled P mounts hand s) (hi : i ≠ P.base) {id : NodeId}
    (hid : s.colouring.colour id = some i) : id ∉ mounts := fun hmem =>
  hi (Option.some.inj (hid.symm.trans (h.mounts id hmem)))

/-- A render has no open node of its own, so all that it holds is of its colour. -/
theorem holds_apart (h : Settled P mounts hand s) (hi : i ≠ P.base) {id : NodeId}
    (hid : s.world.Holds [] (hand i) id) : s.colouring.colour id = some i := by
  have hdown : s.world.Holds mounts (hand i) id := by
    induction hid with
    | hand hv hm => exact .hand hv hm
    | child _ _ hc ih => exact .child ih (h.not_mem_mounts hi (h.holds (h.hand i) ih)) hc
    | property _ he hp hm ih => exact .property ih he hp hm
    | listener _ he hl hm ih => exact .listener ih he hl hm
  exact h.holds (h.hand i) hdown

/-- The nodes of a render are left alone by quiet code of another. -/
theorem spares (h : Settled P mounts hand s) (hquiet : P.quiet i) (hj : j ≠ P.base) (hij : i ≠ j)
    {id : NodeId} (hid : s.world.Holds [] (hand j) id) : P.Spares s.colouring i id := by
  have hcolour := h.holds_apart hj hid
  refine Or.inr ⟨hquiet, fun htakes => ?_⟩
  rcases htakes with hi | hopen
  · exact hij (Option.some.inj (hi.symm.trans hcolour))
  · exact h.not_mem_mounts hj hcolour ((h.opened id).mp hopen)

theorem later (h : Settled P mounts hand s) (hlater : Coloured.Later j s s') :
    Settled P mounts hand s' where
  opened x := (hlater.opened x).trans (h.opened x)
  mounts x hx := hlater.some (h.mounts x hx)
  hand i v hv := (h.hand i v hv).mono (hlater.bounds i)

/-- A node of the application opened. -/
theorem exists_opened (h : Settled P mounts hand s) {id : NodeId}
    (hid : s.colouring.colour id = some P.base) (hfragment : s.world.page.isFragment id = false) :
    ∃ s' : Coloured P, s'.world = s.world ∧ Settled P (id :: mounts) hand s' ∧
      s'.colouring.opened id ∧
      ∀ i, P.bounds s'.colouring s'.world i = P.bounds s.colouring s.world i := by
  refine ⟨⟨s.world, _, s.tinted.opening (by simp [hid]) hfragment⟩, rfl, ?_, Or.inl rfl,
    fun _ => rfl⟩
  exact {
    opened := fun x => (or_congr Iff.rfl (h.opened x)).trans List.mem_cons.symm
    mounts := List.forall_mem_cons.mpr ⟨hid, h.mounts⟩
    hand := h.hand }

variable [DecidableEq ι]

theorem owned (h : Settled P mounts hand s) (i : ι) :
    ∀ v ∈ P.owned s.world hand i, v.Within (P.bounds s.colouring s.world i) := by
  rw [Palette.owned]
  split
  · rename_i hbase
    subst hbase
    refine List.forall_mem_append.mpr ⟨List.forall_mem_append.mpr ⟨?_, ?_⟩, h.hand _⟩
    · exact List.forall_mem_map.mpr s.tinted.stored
    · exact List.forall_mem_map.mpr fun p hp => .node (s.tinted.containers p hp).1
  · exact h.hand i

theorem grasp_le (h : Settled P mounts hand s) (i : ι) :
    (P.grasp s.world mounts hand i).Le (P.bounds s.colouring s.world i) where
  node _ hid := h.holds (h.owned i) hid
  site _ hid := h.holds (h.owned i) hid
  signal _ h := h
  code _ h := h
  write _ _ h := h
  source _ h := h
  content _ h := h
  literal _ h := h
  setter _ h := h

theorem deal (h : Settled P mounts hand s) {vs : List Value}
    (hvs : ∀ v ∈ vs, v.Within (P.bounds s.colouring s.world i)) :
    Settled P mounts (dealt hand i vs) s where
  opened := h.opened
  mounts := h.mounts
  hand j := by
    by_cases hj : j = i
    · subst hj
      rw [dealt, Function.update_self]
      exact List.forall_mem_append.mpr ⟨hvs, h.hand j⟩
    · rw [dealt, Function.update_of_ne hj]
      exact h.hand j

end Settled

variable [DecidableEq ι]

/-- However the dealings go on, the world has a colour for every party. -/
theorem Dealings.exists_settled (hsetters : ∀ name, (f.policy.resolve name).1.setter.Honest)
    {signals : List (String × Script)}
    (hsignals : ∀ name i, P.signal i name → P.code i ((World.initial signals).held name))
    {mounts : List NodeId} {hand : ι → List Value} (h : Dealings P signals mounts hand w) :
    ∃ s : Coloured P, s.world = w ∧ Settled P mounts hand s := by
  have law : (Coloured.regime P).Lawful f := Coloured.lawful P hsetters
  have hserves := Coloured.serves law
  induction h with
  | start =>
    refine ⟨⟨_, _, .initial hsignals⟩, rfl, fun x => ?_, fun x hx => absurd hx List.not_mem_nil,
      fun i v hv => absurd hv List.not_mem_nil⟩
    exact ⟨fun h => h.elim, fun h => absurd h List.not_mem_nil⟩
  | @step mounts hand w w' n answer _ step hstep hrun ih =>
    obtain ⟨s, rfl, hs⟩ := ih
    obtain ⟨s', hworld, hlater, -⟩ :=
      (Coloured.perform_does law (hserves n) hstep).exists_next hrun
    exact ⟨s', hworld, hs.later hlater⟩
  | @render mounts hand w w' n values out _ i l hl hvalues hrun ih =>
    obtain ⟨s, rfl, hs⟩ := ih
    have hdoes :=
      Regime.renderLiteral_does (G := Coloured.regime P) (k := i) (s := s) law (hserves n)
      (fun v hv => (hvalues v hv).mono (hs.grasp_le i)) (l := l) hl
    obtain ⟨s', hworld, hlater, hout⟩ := hdoes.exists_next hrun
    refine ⟨s', hworld, (hs.later hlater).deal fun v hv => ?_⟩
    cases out with
    | error e => cases hv
    | ok u =>
      obtain rfl := List.mem_singleton.mp hv
      exact hout v rfl
  | @read mounts hand w w' n r v _ i hr hrun ih =>
    obtain ⟨s, rfl, hs⟩ := ih
    obtain ⟨s', hworld, hlater, hv⟩ :=
      ((hserves n).read i s r (hr.mono (hs.grasp_le i))).exists_next hrun
    exact ⟨s', hworld, (hs.later hlater).deal (List.forall_mem_singleton.mpr hv)⟩
  | @build mounts hand w w' n code v _ i hcode hrun ih =>
    obtain ⟨s, rfl, hs⟩ := ih
    have henv : ∀ ps, none = some ps → Props.Within (P.bounds s.colouring s.world i) ps :=
      fun ps h => absurd h.symm (Option.some_ne_none ps)
    obtain ⟨s', hworld, hlater, hv⟩ :=
      ((hserves n).build i s none code henv hcode).exists_next hrun
    exact ⟨s', hworld, (hs.later hlater).deal (List.forall_mem_singleton.mpr hv)⟩
  | @mount mounts hand w w' n parent v _ i hparent hfragment hv hrun ih =>
    obtain ⟨s, rfl, hs⟩ := ih
    obtain ⟨s₁, hworld₁, hs₁, hopen, hbounds⟩ :=
      hs.exists_opened (hs.holds (hs.owned P.base) hparent) hfragment
    rw [← hworld₁] at hrun
    have hv₁ : v.Within (P.bounds s₁.colouring s₁.world i) := by
      rw [hbounds i]
      exact hv.mono (hs.grasp_le i)
    have hdoes := Regime.mount_does (G := Coloured.regime P) (k := i) (s := s₁) law (hserves n)
      (Or.inr hopen) hv₁
    obtain ⟨s', hworld, hlater, -⟩ := hdoes.exists_next hrun
    exact ⟨s', hworld, hs₁.later hlater⟩
  | @dispatch mounts hand w w' n count target _ i htarget event hrun ih =>
    obtain ⟨s, rfl, hs⟩ := ih
    have htarget' : s.colouring.colour target ≠ none := by
      simp [hs.holds (hs.owned i) htarget]
    obtain ⟨s', hworld, hlater, -⟩ :=
      (Coloured.dispatch_does law (hserves n) htarget' event).exists_next hrun
    exact ⟨s', hworld, hs.later hlater⟩
  | @operate mounts hand w _ i o ho ih =>
    obtain ⟨s, rfl, hs⟩ := ih
    obtain ⟨s', hworld, hlater, hmade⟩ := Coloured.operate_does (i := i) (ho.mono (hs.grasp_le i))
    exact ⟨s', hworld, (hs.later hlater).deal hmade⟩

section

variable {signals : List (String × Script)} {mounts : List NodeId} {hand : ι → List Value} {i j : ι}

/-- No two renders hold a node in common. -/
theorem Dealings.disjoint (hsetters : ∀ name, (f.policy.resolve name).1.setter.Honest)
    (hsignals : ∀ name i, P.signal i name → P.code i ((World.initial signals).held name))
    (h : Dealings P signals mounts hand w) (hi : i ≠ P.base) (hj : j ≠ P.base) (hij : i ≠ j)
    {x : NodeId} (hx : w.Holds [] (hand i) x) : ¬ w.Holds [] (hand j) x := by
  obtain ⟨s, rfl, hs⟩ := h.exists_settled hsetters hsignals
  intro hx'
  exact hij (Option.some.inj ((hs.holds_apart hi hx).symm.trans (hs.holds_apart hj hx')))

/-- An effect that holds a node of a quiet render leaves the nodes of the others alone. -/
theorem Dealings.effect_apart (hsetters : ∀ name, (f.policy.resolve name).1.setter.Honest)
    (hsignals : ∀ name i, P.signal i name → P.code i ((World.initial signals).held name))
    (h : Dealings P signals mounts hand w) (hquiet : P.quiet i) (hj : j ≠ P.base) (hij : i ≠ j)
    {k n : Nat} {e : Signal.Effect Binding} (he : w.graph.effects[k]? = some e) {x : NodeId}
    (hx : w.Holds [] (hand i) x) (hm : e.body.Mentions x) {w' : World}
    (hrun : runEffect f (machine f n) k w = some ((), w')) {y : NodeId}
    (hy : w.Holds [] (hand j) y) : w'.page.node? y = w.page.node? y := by
  obtain ⟨s, rfl, hs⟩ := h.exists_settled hsetters hsignals
  have law : (Coloured.regime P).Lawful f := Coloured.lawful P hsetters
  have hbase : i ≠ P.base := fun hbase => P.loud (hbase ▸ hquiet)
  obtain ⟨k', hk'⟩ := s.tinted.effects k e he
  obtain rfl : k' = i :=
    Option.some.inj ((colour_of_binding hm hk').symm.trans (hs.holds_apart hbase hx))
  have howned : ∀ e', s.world.graph.effects[k]? = some e' →
      e'.body.Within (P.bounds s.colouring s.world k') := fun e' he' =>
    Option.some.inj (he.symm.trans he') ▸ hk'
  have hdoes := Coloured.effect_does law (Coloured.serves law n) howned
  obtain ⟨s', rfl, hlater, -⟩ := hdoes.exists_next hrun
  have hlt := s.tinted.made y (by simp [hs.holds_apart hj hy])
  exact hlater.same y hlt (hs.spares hquiet hj hij hy)

/-- What is done to the nodes of a quiet render leaves the nodes of the others alone. -/
theorem Dealings.operate_apart (hsetters : ∀ name, (f.policy.resolve name).1.setter.Honest)
    (hsignals : ∀ name i, P.signal i name → P.code i ((World.initial signals).held name))
    (h : Dealings P signals mounts hand w) (hquiet : P.quiet i) (hj : j ≠ P.base) (hij : i ≠ j)
    {o : Operation Value Action} (ho : OperationWithin (P.grasp w mounts hand i) o) {y : NodeId}
    (hy : w.Holds [] (hand j) y) : (o.apply w.page).node? y = w.page.node? y := by
  obtain ⟨s, rfl, hs⟩ := h.exists_settled hsetters hsignals
  obtain ⟨s', hworld, hlater, -⟩ := Coloured.operate_does (ho.mono (hs.grasp_le i))
  have hlt := s.tinted.made y (by simp [hs.holds_apart hj hy])
  have hsame := hlater.same y hlt (hs.spares hquiet hj hij hy)
  rwa [hworld] at hsame

end

end Render

/-! ### Renders that get no nodes -/

/-- What an application keeps to for its renders: the signals that these build from, the literals
    that they render, and whether they are silent, that is, set no signal by themselves. -/
structure Terms where
  signals : String → Prop
  literals : String → Prop
  silent : Prop

/-- A script that neither has a node nor fetches one that is there already: whatever nodes it gives,
    it has made. -/
inductive Script.Fresh (t : Terms) : Script → Prop where
  | intro {code : Script} (hparts : ∀ part ∈ code.parts, Fresh t part)
      (hbuilds : ∀ name ∈ code.builds, t.signals name)
      (hliteral : ∀ name values, code = .html name values → t.literals name)
      (hstored : ∀ name, code ≠ .stored name) (hcontainer : ∀ name, code ≠ .container name)
      (hsilent : t.silent → ∀ name value next, code ≠ .write name value next) : Fresh t code

/-- The signals that renders build from hold nothing but such scripts. -/
def Terms.types (t : Terms) : Types := fun name code => t.signals name → code.Fresh t

/-- An application that keeps to the terms: its components set signals as they should, and so do
    the signals at the start; the components that renders invoke give nodes of their own making. -/
structure Terms.Kept (t : Terms) (f : Factory) (signals : List (String × Script)) : Prop where
  components : ∀ name body, f.registry.get? name = some body → body.Keeps t.types
  literals : ∀ name, t.literals name → ∀ body, f.Invokes (f.literal name) body → body.Fresh t
  signals : ∀ name, t.types name ((Render.World.initial signals).held name) ∧
    ((Render.World.initial signals).held name).Keeps t.types

namespace Factory

variable {f : Factory}

/-- Literals of an application that are stored under one key are invoked alike. -/
theorem Invokes.of_key {l l' : Literal} (hl : f.literal l.name = l) (hl' : f.literal l'.name = l')
    (hkey : l.key = l'.key) {body : Script} (h : f.Invokes l' body) : f.Invokes l body := by
  rw [Literal.key, Literal.key] at hkey
  by_cases hempty : l'.segments.isEmpty = true
  · -- a literal without segments has no elements
    obtain ⟨tree, hparse, e, he, -⟩ := h
    have hnil : Markup.parse f.config.void f.config.rawText [] = .ok ⟨[], 1⟩ := by
      simp [Markup.parse, Markup.tokenize, Markup.scanSegments, Markup.parseTokens, Markup.pieces,
        Markup.readPieces, Markup.Build.addAll, Markup.Build.finish, Markup.Build.start,
        Markup.rootSlot]
    rw [Literal.parse, List.isEmpty_iff.mp hempty, hnil] at hparse
    obtain rfl := Except.ok.inj hparse
    exact absurd he List.not_mem_nil
  · rw [if_neg hempty] at hkey
    split at hkey
    · cases hkey
    · rw [← hl, Option.some.inj hkey, hl']
      exact h

theorem name_literal (name : String) : (f.literal name).name = name := by
  rw [Factory.literal]
  rcases hfind : f.literals.find? (·.name == name) with _ | l
  · rw [hfind, Option.getD_none]
  · rw [hfind, Option.getD_some]
    simpa using List.find?_some hfind

end Factory

namespace Render

/-- The application, and any number of renders that are kept apart. -/
def Palette.apart (t : Terms) {f : Factory} {signals : List (String × Script)}
    (h : t.Kept f signals) : Palette f (Option Nat) where
  base := none
  code i c := (i ≠ none → c.Fresh t) ∧ c.Keeps t.types
  signal i name := i ≠ none → t.signals name
  quiet i := i ≠ none ∧ t.silent
  known l := f.literal l.name = l
  parts i c hc part hpart := by
    refine ⟨fun hi => ?_, hc.2.parts part hpart⟩
    cases hc.1 hi with
    | intro hparts => exact hparts part hpart
  builds i c hc name hname hi := by
    cases hc.1 hi with
    | intro _ hbuilds => exact hbuilds name hname
  assigns i c hc a ha j hj := by
    obtain ⟨htyped, hkeeps⟩ := hc.2.assigns a ha
    exact ⟨fun hne => htyped (hj hne), hkeeps⟩
  loud hquiet := hquiet.1 rfl
  silent i name c next hquiet hcode := by
    cases hcode.1 hquiet.1 with
    | intro _ _ _ _ _ hsilent => exact hsilent hquiet.2 name c next rfl
  sets name c hc := by
    refine ⟨fun hne => absurd rfl hne, .intro ?_ ?_ ?_⟩
    · exact List.forall_mem_singleton.mpr (.intro nofun nofun nofun)
    · exact List.forall_mem_singleton.mpr fun hname => (hc (some 0) fun _ => hname).1 nofun
    · exact List.forall_mem_singleton.mpr (hc none fun hne => absurd rfl hne).2
  container i name hcode := by
    by_contra hi
    cases hcode.1 hi with
    | intro _ _ _ _ hcontainer => exact hcontainer name rfl
  stored i name hcode := by
    by_contra hi
    cases hcode.1 hi with
    | intro _ _ _ hstored => exact hstored name rfl
  components name body hbody := ⟨fun hne => absurd rfl hne, h.components name body hbody⟩
  named name := by rw [f.name_literal]
  literal i name values hcode body hbody := by
    refine ⟨fun hi => ?_, ?_⟩
    · cases hcode.1 hi with
      | intro _ _ hliteral => exact h.literals name (hliteral name values rfl) body hbody
    · obtain ⟨_, _, _, _, hbody⟩ := hbody
      exact h.components _ body (Registry.get?_of_componentFor? hbody)
  keyed i l l' hl hl' hkey hbodies body hbody := hbodies body (hbody.of_key hl hl' hkey)

/-- However an application goes on, no node of a skeleton is in reach, and its tree is the one that
    compiling made.  Renders that are kept apart hold no node in common; if they set no signals,
    what is done for the one leaves all nodes of the others as they are. -/
theorem skeletons_untouched_renders_apart {f : Factory} {signals : List (String × Script)}
    (hsetters : ∀ name, (f.policy.resolve name).1.setter.Honest) :
    (∀ {hand : List Value} {w : World}, Course f signals hand w →
      ∀ {key : Option String} {source : Compiled}, (key, .ok source) ∈ w.cache.entries →
      ∀ {slot root : Nat}, source.skeleton? slot = some root →
        (∀ x ∈ w.page.subtree root, ¬ w.Reaches hand x) ∧
          ∃ l page, l.key = key ∧ (f.compile l page).1 = .ok source ∧
            w.page.tree root = (f.compile l page).2.tree root) ∧
    ∀ {t : Terms} (hkept : t.Kept f signals) {mounts : List NodeId} {hand : Option Nat → List Value}
      {w : World}, Dealings (Palette.apart t hkept) signals mounts hand w →
      ∀ {i j : Nat}, i ≠ j →
        (∀ x, w.Holds [] (hand (some i)) x → ¬ w.Holds [] (hand (some j)) x) ∧
        (t.silent → ∀ y, w.Holds [] (hand (some j)) y →
          (∀ (k n : Nat) e x w', w.graph.effects[k]? = some e → w.Holds [] (hand (some i)) x →
            e.body.Mentions x → runEffect f (machine f n) k w = some ((), w') →
            w'.page.node? y = w.page.node? y) ∧
          ∀ o, OperationWithin ((Palette.apart t hkept).grasp w mounts hand (some i)) o →
            (o.apply w.page).node? y = w.page.node? y) := by
  refine ⟨fun h _ _ hcached _ _ hroot => h.skeleton hsetters hcached hroot, ?_⟩
  intro t hkept mounts hand w h i j hij
  have hsignals : ∀ name k, (Palette.apart t hkept).signal k name →
      (Palette.apart t hkept).code k ((World.initial signals).held name) :=
    fun name k hname => ⟨fun hk => (hkept.signals name).1 (hname hk), (hkept.signals name).2⟩
  have hbase (k : Nat) : some k ≠ (Palette.apart t hkept).base := Option.some_ne_none k
  have hne : some i ≠ some j := fun heq => hij (Option.some.inj heq)
  refine ⟨fun x hx => h.disjoint hsetters hsignals (hbase i) (hbase j) hne hx,
    fun hsilent y hy => ?_⟩
  have hquiet : (Palette.apart t hkept).quiet (some i) := ⟨hbase i, hsilent⟩
  refine ⟨fun k n e x w' he hx hm hrun => ?_, fun o ho => ?_⟩
  · exact h.effect_apart hsetters hsignals hquiet (hbase j) hne he hx hm hrun hy
  · exact h.operate_apart hsetters hsignals hquiet (hbase j) hne ho hy

/-! ### One literal rendered twice -/

def rowFactory : Factory := { tallyFactory with literals := [⟨"row", ["<p>", "</p>"]⟩] }

def rowSignals : List (String × Script) := [("s", .text "a")]

/-- The content of the paragraph is read. -/
def rowValues : List Value := [.reactive (.signal "s")]

/-- The literal rendered; the answer is the paragraph. -/
def rowRender (w : World) : Option (NodeId × World) :=
  match renderLiteral rowFactory (machine rowFactory 9) (rowFactory.literal "row") rowValues w with
  | some (.ok (.node id), w') => some (id, w')
  | _ => none

theorem of_rowRender {w w' : World} {id : NodeId} (h : rowRender w = some (id, w')) :
    renderLiteral rowFactory (machine rowFactory 9) (rowFactory.literal "row") rowValues w =
      some (.ok (.node id), w') := by
  rw [rowRender] at h
  split at h
  · rename_i hrun
    obtain ⟨rfl, rfl⟩ := Prod.mk.inj (Option.some.inj h)
    exact hrun
  · cases h

/-- The marker of a binding to content. -/
def Binding.marker? : Binding → Option NodeId
  | .content marker _ _ => some marker
  | _ => none

theorem mentions_of_marker? {b : Binding} {id : NodeId} (h : b.marker? = some id) :
    b.Mentions id := by
  intro hwithin
  cases b with
  | content marker reader current => exact hwithin.1 (Option.some.inj h)
  | _ => cases h

/-- Two renders and then a run of the first effect. -/
def rowTwice : Option (NodeId × NodeId × World × World) :=
  (rowRender (.initial rowSignals)).bind fun r => (rowRender r.2).bind fun r' =>
    (runEffect rowFactory (machine rowFactory 9) 0 r'.2).map fun q => (r.1, r'.1, r'.2, q.2)

/-- What can be seen of that: the two paragraphs, what stands in them, the marker of the first
    effect, and the skeletons that are cached. -/
structure RowFacts where
  paragraphs : List NodeId
  contents : List (List NodeId)
  marker : Option NodeId
  skeletons : List (Option String × Option (List (Option NodeId)))
deriving DecidableEq

def rowFacts (r : NodeId × NodeId × World × World) : RowFacts where
  paragraphs := [r.1, r.2.1]
  contents := [r.2.2.1.page.children r.1, r.2.2.1.page.children r.2.1]
  marker := (r.2.2.1.graph.effects[0]?).bind (·.body.marker?)
  skeletons := r.2.2.1.cache.entries.map fun p => (p.1, p.2.toOption.map (·.skeletons))

theorem rowFacts_twice : rowTwice.map rowFacts =
    some ⟨[4, 8], [[6, 5], [10, 9]], some 5, [(some "row", some [some 0])]⟩ := by
  decide +kernel

/-- The renders build from the one signal there is, and set none. -/
def rowTerms : Terms := ⟨fun _ => True, fun _ => True, True⟩

theorem kept_row : rowTerms.Kept rowFactory rowSignals where
  components name body h := by cases h
  literals name _ body h := by
    obtain ⟨_, _, e, _, he⟩ := h
    rw [Registry.componentFor?] at he
    split at he <;> cases he
  signals name := by
    rw [World.held_initial]
    by_cases hname : "s" = name
    · subst hname
      exact ⟨fun _ => .intro nofun nofun nofun nofun nofun nofun, .intro nofun nofun nofun⟩
    · simp only [rowSignals, List.find?_cons_of_neg, List.find?_nil, beq_iff_eq, hname,
        not_false_eq_true, Option.map_none, Option.getD_none]
      exact ⟨fun _ => .intro nofun nofun nofun nofun nofun nofun, .intro nofun nofun nofun⟩

theorem skeletons_untouched_renders_apart_row :
    ∃ w₁ w₂ w₃, rowRender (.initial rowSignals) = some (4, w₁) ∧
    rowRender w₁ = some (8, w₂) ∧
    runEffect rowFactory (machine rowFactory 9) 0 w₂ = some ((), w₃) ∧
    (∀ x ∈ w₂.page.subtree 0, ¬ w₂.Reaches [.node 8, .node 4] x) ∧
    (∀ x, w₂.Holds [] [.node 4] x → ¬ w₂.Holds [] [.node 8] x) ∧
    w₃.page.node? 10 = w₂.page.node? 10 := by
  obtain ⟨r, hrun, hfacts⟩ := Option.map_eq_some_iff.mp rowFacts_twice
  obtain ⟨⟨_, w₁⟩, hfirst, hrun⟩ := Option.bind_eq_some_iff.mp hrun
  obtain ⟨⟨_, w₂⟩, hsecond, hrun⟩ := Option.bind_eq_some_iff.mp hrun
  obtain ⟨⟨⟨⟩, w₃⟩, heffect, rfl⟩ := Option.map_eq_some_iff.mp hrun
  simp only [rowFacts, RowFacts.mk.injEq, List.cons.injEq, and_true] at hfacts
  obtain ⟨⟨rfl, rfl⟩, ⟨hchildren, hchildren'⟩, hmarker, hcached⟩ := hfacts
  refine ⟨w₁, w₂, w₃, hfirst, hsecond, heffect, ?_⟩
  have hsetters : ∀ name, (rowFactory.policy.resolve name).1.setter.Honest := fun name =>
    Setter.honest_of_isBuiltIn (Setter.isBuiltIn_usual name)
  obtain ⟨huntouched, hapart⟩ :=
    @skeletons_untouched_renders_apart rowFactory rowSignals hsetters
  have hfirst' := of_rowRender hfirst
  have hsecond' := of_rowRender hsecond
  refine ⟨?_, ?_⟩
  · have hcourse : Course rowFactory rowSignals [.node 8, .node 4] w₂ := by
      refine .render (.render .start _ ?_ hfirst') _ ?_ hsecond'
      · exact List.forall_mem_singleton.mpr (.reactive (.signal trivial))
      · exact List.forall_mem_singleton.mpr (.reactive (.signal trivial))
    obtain ⟨⟨key, out⟩, hmem, hout⟩ := List.mem_map.mp (hcached ▸ List.mem_singleton_self _)
    obtain ⟨-, hskeletons⟩ := Prod.mk.inj hout
    obtain ⟨source, rfl, hsource⟩ : ∃ source, out = .ok source ∧ source.skeletons = [some 0] := by
      cases out with
      | error e => cases hskeletons
      | ok source => exact ⟨source, rfl, Option.some.inj hskeletons⟩
    have hroot : source.skeleton? 0 = some 0 := by rw [Compiled.skeleton?, hsource]; rfl
    exact (huntouched hcourse hmem hroot).1
  · have hwithin (i : Nat) (w : World) (hand : Option Nat → List Value) :
        ∀ v ∈ rowValues, v.Within ((Palette.apart rowTerms kept_row).grasp w [] hand (some i)) :=
      List.forall_mem_singleton.mpr (.reactive (.signal fun _ => trivial))
    have hliteral (i : Nat) (w : World) (hand : Option Nat → List Value) :
        ((Palette.apart rowTerms kept_row).grasp w [] hand (some i)).literal
          (rowFactory.literal "row") := by
      refine ⟨rfl, fun body hbody => ?_⟩
      obtain ⟨_, _, _, _, hbody⟩ := hbody
      cases Registry.get?_of_componentFor? hbody
    have hdealings := Dealings.render
      (Dealings.render .start (some 0) _ (hliteral 0 _ _) (hwithin 0 _ _) hfirst')
      (some 1) _ (hliteral 1 _ _) (hwithin 1 _ _) hsecond'
    obtain ⟨hdisjoint, hleft⟩ := hapart kept_row hdealings (i := 0) (j := 1) (by decide)
    refine ⟨hdisjoint, ?_⟩
    obtain ⟨e, he, hbody⟩ := Option.bind_eq_some_iff.mp hmarker
    have hmine : w₂.Holds []
        (dealt (dealt (fun _ => []) (some 0) [.node 4]) (some 1) [.node 8] (some 0)) 5 :=
      .child (.hand List.mem_cons_self (Value.mentions_node 4)) List.not_mem_nil
        (by simp [hchildren])
    have hyours : w₂.Holds []
        (dealt (dealt (fun _ => []) (some 0) [.node 4]) (some 1) [.node 8] (some 1)) 10 :=
      .child (.hand List.mem_cons_self (Value.mentions_node 8)) List.not_mem_nil
        (by simp [hchildren'])
    exact (hleft trivial 10 hyours).1 0 9 e 5 w₃ he hmine (mentions_of_marker? hbody) heffect

end Render
end Stencil
