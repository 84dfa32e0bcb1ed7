/-
  Stencil/Proofs/Render/Guard.lean
  ================================
  **One attribute of one element, whatever else goes on.**

  A guard keeps an eye on one attribute of one element while the application runs: other
  parts of the page are bound, readers are read, signals are written.  Something is known
  of the world (`good`), and at most one effect, the owner, may have to do with the
  attribute.  Bindings to other elements leave the attribute alone, and so do those
  bindings to this element that go to other attributes (`Spares`).

  `Lasting` is what it takes for `good` to be true for good: it depends on the attribute
  and on the signals only, a write of a signal that the owner does not read leaves it
  true, and a run of the owner makes it true.  Then everything the renderer does keeps it
  true (`Guard.serves`), and so does a write, when all effects that it sets off have run.
-/
import Stencil.Proofs.Render.Bound
import Stencil.Proofs.Render.Deeper
import Stencil.Proofs.Render.Incremental
import Stencil.Proofs.Render.Ward

namespace Stencil.Render

open Document Markup

/-! ### Spreads that leave an attribute alone -/

/-- The attribute that a value is applied to under a name. -/
def nameTarget (f : Factory) (name : String) : Option String :=
  (f.policy.resolve name).1.setter.target? (f.policy.resolve name).2

/-- No entry of a spread goes to the attribute `n`, but for those that are shadowed. -/
def SparesEntries (f : Factory) (n : String) (shadowed : List String) (entries : Props) : Prop :=
  ∀ e ∈ entries, isShadowed shadowed e.1 = true ∨ nameTarget f e.1 ≠ some n

/-- The same of whatever spread a reader gives, while the signals hold what they may. -/
def SparesReader (f : Factory) (T : Types) (stored : List (String × Value)) (n : String)
    (shadowed : List String) (r : Reader) : Prop :=
  ∀ m w w' entries, (∀ x, T x (World.held w x)) → w.stored = stored →
    (machine f m).resolve (.reactive r) w = some (.spread entries, w') →
    SparesEntries f n shadowed entries

/-! ### Guards -/

/-- What is known of one attribute of one element. -/
structure Guard where
  types : Types
  stored : List (String × Value)
  node : NodeId
  name : String
  owner : Option (Nat × Binding)
  good : World → Prop

namespace Guard

variable {f : Factory} {g : Guard} {w w₁ w' : World}

/-- What bindings may hold: they go to other elements. -/
def bounds (g : Guard) (w : World) : Bounds :=
  .around g.node (Script.Keeps g.types) (fun name code => g.types name code ∧ code.Keeps g.types)
    w.page.size

theorem bounds_mono (g : Guard) (h : w.page.size ≤ w'.page.size) :
    (g.bounds w).Le (g.bounds w') := Bounds.around_mono _ _ _ h

/-- A binding to the element that goes to another attribute. -/
def Spares (f : Factory) (g : Guard) (w : World) : Binding → Prop
  | .attribute node setter name reader => node = g.node ∧ setter.isBuiltIn = true ∧
      setter.target? name ≠ some g.name ∧ reader.Within (g.bounds w)
  | .spread node shadowed reader => node = g.node ∧ reader.Within (g.bounds w) ∧
      SparesReader f g.types g.stored g.name shadowed reader
  | .content _ _ _ => False

/-- A binding that the attribute has nothing to fear from. -/
def Admits (f : Factory) (g : Guard) (w : World) (b : Binding) : Prop :=
  b.Within (g.bounds w) ∨ g.Spares f w b

theorem Admits.mono {b : Binding} (h : g.Admits f w b) (hsize : w.page.size ≤ w'.page.size) :
    g.Admits f w' b := by
  have hle := g.bounds_mono hsize
  refine h.imp (Binding.Within.mono hle) fun h => ?_
  match b, h with
  | .attribute _ _ _ _, ⟨hnode, hbuiltin, htarget, hreader⟩ =>
    exact ⟨hnode, hbuiltin, htarget, hreader.mono hle⟩
  | .spread _ _ _, ⟨hnode, hreader, hspares⟩ => exact ⟨hnode, hreader.mono hle, hspares⟩

/-- The attribute as it is. -/
def value (g : Guard) (w : World) : Option Attribute :=
  findAttribute (w.page.attributes g.node) g.name

/-- What is true of the world besides what is on its page. -/
structure Apt (f : Factory) (g : Guard) (w : World) : Prop where
  live : w.live = true
  signals : ∀ name, g.types name (w.held name) ∧ (w.held name).Keeps g.types
  owned : ∀ i b, g.owner = some (i, b) → w.graph.effects[i]? = some ⟨b, false⟩
  effects : ∀ (i : Nat) e, w.graph.effects[i]? = some e →
    (∃ b, g.owner = some (i, b)) ∨ g.Admits f w e.body
  stored : w.stored = g.stored

/-- The element as a ward, with what is good kept. -/
abbrev ward (f : Factory) (g : Guard) : Ward where
  node := g.node
  code := Script.Keeps g.types
  write name code := g.types name code ∧ code.Keeps g.types
  Apt := g.Apt f
  Keeps w w' := g.good w → g.good w'

/-- What is true of the world between any two things that happen to it. -/
abbrev Holds (f : Factory) (g : Guard) (w : World) : Prop := (g.ward f).Holds w

/-- Worlds in which the guard holds, with what is good about them kept. -/
abbrev regime (f : Factory) (g : Guard) : Regime := (g.ward f).regime

/-- All that `good` may depend on is as it was. -/
structure Alike (g : Guard) (w w' : World) : Prop where
  value : g.value w' = g.value w
  held : w'.held = w.held
  cell : ∀ x, (w'.graph.cell? x).isSome = (w.graph.cell? x).isSome
  subscribers : ∀ (x : String) (j : Nat), j ∈ w.graph.subscribers x → j ∈ w'.graph.subscribers x

/-- What makes `good` last. -/
structure Lasting (f : Factory) (g : Guard) : Prop where
  alike : ∀ w w', g.Alike w w' → g.good w → g.good w'
  unread : ∀ w name code, (∀ i b, g.owner = some (i, b) → i ∉ w.graph.subscribers name) →
    g.good w → g.good { w with graph := (w.graph.write name code).2 }
  reruns : ∀ i b n w w', g.owner = some (i, b) → g.Holds f w →
    (machine f n).effect i w = some ((), w') →
    g.Holds f w' ∧ w.page.size ≤ w'.page.size ∧ g.good w'

/-! ### What does not matter -/

/-- Something happened elsewhere. -/
theorem Apt.elsewhere (h : g.Apt f w) (helsewhere : Ward.Elsewhere g.node w w') : g.Apt f w' where
  live := helsewhere.live.trans h.live
  signals name := by
    rw [World.held, helsewhere.graph]
    exact h.signals name
  owned i b hi := helsewhere.graph ▸ h.owned i b hi
  effects i e he := by
    rw [helsewhere.graph] at he
    exact (h.effects i e he).imp_right fun hb => hb.mono helsewhere.size
  stored := helsewhere.stored.trans h.stored

/-- The page changed. -/
theorem Apt.onPage (h : g.Apt f w) {d : Page} (hsize : w.page.size ≤ d.size) :
    g.Apt f { w with page := d } where
  live := h.live
  signals := h.signals
  owned := h.owned
  effects i e he := (h.effects i e he).imp_right fun hb => hb.mono hsize
  stored := h.stored

/-- The signals changed in a way that nobody sees but who reads them. -/
theorem Apt.onGraph (h : g.Apt f w) {graph : SignalGraph}
    (hpeek : ∀ x, graph.peek? x = w.graph.peek? x)
    (howned : ∀ i b, g.owner = some (i, b) → graph.effects[i]? = w.graph.effects[i]?)
    (heffects : ∀ (i : Nat) e, graph.effects[i]? = some e →
      (∃ b, g.owner = some (i, b)) ∨ g.Admits f w e.body) :
    g.Apt f { w with graph := graph } where
  live := h.live
  signals name := by
    rw [World.held, hpeek]
    exact h.signals name
  owned i b hi := (howned i b hi).trans (h.owned i b hi)
  effects := heffects
  stored := h.stored

theorem Alike.onPage {d : Page} {w : World}
    (h : findAttribute (d.attributes g.node) g.name = g.value w) : g.Alike w { w with page := d } :=
  ⟨h, rfl, fun _ => rfl, fun _ _ hj => hj⟩

theorem Alike.onGraph {graph : SignalGraph} (hpeek : ∀ x, graph.peek? x = w.graph.peek? x)
    (hcell : ∀ x, (graph.cell? x).isSome = (w.graph.cell? x).isSome)
    (hsubscribers : ∀ (x : String) (j : Nat), j ∈ w.graph.subscribers x → j ∈ graph.subscribers x) :
    g.Alike w { w with graph := graph } := by
  refine ⟨rfl, ?_, hcell, hsubscribers⟩
  funext x
  rw [World.held, World.held, hpeek]

theorem Alike.elsewhere (h : Ward.Elsewhere g.node w w') : g.Alike w w' := by
  refine ⟨?_, ?_, ?_, ?_⟩
  · rw [Guard.value, Guard.value, attributes, attributes, h.element]
  · funext x
    rw [World.held, World.held, h.graph]
  · intro x
    rw [h.graph]
  · intro x j hj
    rwa [h.graph]

/-- The guard as a ward answers for what it has to. -/
theorem lawful_ward (law : g.Lasting f)
    (hregistry : ∀ name body, f.registry.get? name = some body → body.Keeps g.types) :
    (g.ward f).Lawful f where
  refl _ := id
  trans _ _ _ h h' hgood := h' (h hgood)
  elsewhere w w' h hapt := ⟨Apt.elsewhere hapt h, law.alike w w' (.elsewhere h)⟩
  silent w graph h hapt := by
    refine ⟨Apt.onGraph hapt h.peek (fun i _ _ => by rw [h.effects]) fun i e he => ?_,
      law.alike w _ (.onGraph h.peek h.cell h.subscribers)⟩
    rw [h.effects] at he
    exact Apt.effects hapt i e he
  coherent _ := ⟨fun _ h => h.parts, fun _ _ _ _ => trivial, fun _ h => h.assigns⟩
  registry := hregistry
  held _ name hapt := (Apt.signals hapt name).2

theorem lawful (law : g.Lasting f)
    (hregistry : ∀ name body, f.registry.get? name = some body → body.Keeps g.types) :
    (g.regime f).Lawful f := Ward.lawful (lawful_ward law hregistry)

/-! ### Runs of effects -/

section

variable {s : (g.regime f).State}

/-- A change of the signals or the effects that nobody sees but who reads them, with all effects
    being what effects may be. -/
theorem does_graph {α : Type} (law : g.Lasting f) (act : SignalGraph → α × SignalGraph)
    {Q : α → World → Prop} (hpeek : ∀ x, (act s.1.graph).2.peek? x = s.1.graph.peek? x)
    (hcell : ∀ x, ((act s.1.graph).2.cell? x).isSome = (s.1.graph.cell? x).isSome)
    (hsubscribers : ∀ (x : String) (j : Nat), j ∈ s.1.graph.subscribers x →
      j ∈ (act s.1.graph).2.subscribers x)
    (howned : ∀ i b, g.owner = some (i, b) →
      (act s.1.graph).2.effects[i]? = s.1.graph.effects[i]?)
    (heffects : ∀ (i : Nat) e, (act s.1.graph).2.effects[i]? = some e →
      (∃ b, g.owner = some (i, b)) ∨ g.Admits f s.1 e.body)
    (hQ : Q (act s.1.graph).1 { s.1 with graph := (act s.1.graph).2 }) :
    (g.regime f).Does () s (modifyGet act) (modifyGet act) fun a s' => Q a s'.1 :=
  Ward.does_graph act (s.2.apt.onGraph hpeek howned heffects)
    (law.alike _ _ (.onGraph hpeek hcell hsubscribers)) hQ

/-- A setter may be applied to the element if that keeps what is good. -/
theorem writable_of_good {setter : Setter} {name : String}
    (hgood : ∀ (s : (g.regime f).State) v, g.good s.1 → g.good { s.1 with
      page := s.1.page.updateElement g.node (setter.write f.config name v) }) :
    Regime.Writable f (g.regime f) () s g.node setter name := by
  intro s' _ v _
  obtain ⟨e, he⟩ := s'.2.element
  have hsize : s'.1.page.size ≤
      (s'.1.page.updateElement g.node (setter.write f.config name v)).size :=
    Nat.le_of_eq (size_updateElement _ _ _).symm
  have hholds := s'.2.onPage (s'.2.forest.updateElement g.node _) hsize
    ⟨_, element?_updateElement he _⟩ (s'.2.apt.onPage hsize)
  exact Ward.does_of_run (Q := fun _ _ => True) (run_changePage _ s'.1) hholds hsize (hgood s' v)
    trivial

/-- An attribute may be written to the element if it is another one. -/
theorem writable_other (law : g.Lasting f) {setter : Setter} {name : String}
    (hbuiltin : setter.isBuiltIn = true) (htarget : setter.target? name ≠ some g.name) :
    Regime.Writable f (g.regime f) () s g.node setter name := by
  refine writable_of_good fun s' v => law.alike _ _ (.onPage ?_)
  obtain ⟨e, he⟩ := s'.2.element
  rw [value, attributes, attributes, element?_updateElement he, he]
  exact Write.apply_other (w := ⟨setter, name, v⟩) hbuiltin htarget

/-- The run of a binding that the attribute has nothing to fear from. -/
theorem runBinding_does (law : g.Lasting f) (hpolicy : f.policy = .usual)
    (hlawful : (g.regime f).Lawful f) {n m : Nat}
    (hc : (g.regime f).Serves (machine f n) (machine f m)) {b : Binding} (hb : g.Admits f s.1 b) :
    (g.regime f).Does () s (runBinding f (machine f n) b) (runBinding f (machine f m) b)
      fun b' s' => g.Admits f s'.1 b' := by
  rcases hb with hb | hb
  · exact (Regime.runBinding_does hlawful hc hb).weaken fun _ _ _ hb' => Or.inl hb'
  have hself : g.Admits f s.1 b := Or.inr hb
  have hnode : ((g.regime f).bounds () s).node g.node := s.2.lt_size
  refine .look_same (fun _ => rfl) ?_
  split
  · exact .pure hlawful hself
  · match b, hb with
    | .attribute node setter name reader, ⟨hid, hbuiltin, htarget, hreader⟩ =>
      subst hid
      refine (hc.resolve () s _ (.reactive hreader)).bind hlawful fun v s₁ hnext hv => ?_
      have hle := hlawful.mono () () s s₁ hnext
      refine (Regime.applySetter_does hlawful hc (hle.node _ hnode)
        (writable_other law hbuiltin htarget) hv).bind hlawful fun _ s' hnext' _ => .pure hlawful ?_
      exact (hself.mono hnext.1).mono hnext'.1
    | .spread node shadowed reader, ⟨hid, hreader, hspares⟩ =>
      subst hid
      refine (hc.resolve () s _ (.reactive hreader)).record.bind hlawful fun v s₁ hnext hv => ?_
      obtain ⟨hv, hrun⟩ := hv
      have hle := hlawful.mono () () s s₁ hnext
      have hself₁ := hself.mono hnext.1
      cases hv with
      | @spread entries hentries =>
        have hall : SparesEntries f g.name shadowed entries :=
          hspares n _ _ entries (fun x => (s.2.apt.signals x).1) s.2.apt.stored hrun
        refine (Regime.applyEntries_does hlawful hc (hle.node _ hnode) hentries
          fun e he => (hall e he).imp_right fun htarget => ?_).bind hlawful
          fun _ s' hnext' _ => .pure hlawful (hself₁.mono hnext'.1)
        refine writable_other law ?_ htarget
        rw [hpolicy]
        exact Setter.isBuiltIn_usual e.1
      | _ => exact .pure hlawful hself₁

/-- The run of an effect, the owner or not. -/
theorem effect_does (law : g.Lasting f) (hpolicy : f.policy = .usual)
    (hlawful : (g.regime f).Lawful f) {n : Nat}
    (hc : (g.regime f).Serves (machine f n) (machine f (n + 1))) (id : Nat) :
    (g.regime f).Does () s (runEffect f (machine f n) id) (runEffect f (machine f (n + 1)) id)
      fun _ _ => True := by
  by_cases hself : ∃ b, g.owner = some (id, b)
  · obtain ⟨b, howner⟩ := hself
    refine Ward.does (Q := fun _ _ => True) fun a w' hrun => ?_
    have hdeeper := effect_le (n := n + 1) (m := n + 2) (Nat.le_succ _) hrun
    obtain ⟨hholds, hsize, hgood⟩ := law.reruns id b (n + 1) s.1 w' howner s.2 hrun
    exact ⟨hdeeper, hholds, hsize, fun _ => hgood, trivial⟩
  · have hother {i : Nat} {b : Binding} (howner : g.owner = some (i, b)) : i ≠ id := by
      rintro rfl
      exact hself ⟨b, howner⟩
    refine Regime.runEffect_does (P := fun b s => g.Admits f s.1 b) hlawful
      (fun s' b hb => runBinding_does law hpolicy hlawful hc hb) ?_ fun s' b hb => ?_
    · have hcell := Signal.Graph.cell?_start s.1.graph id
      apply does_graph law (fun g : SignalGraph => g.start id)
        (Q := fun o w => ∀ b, o = some b → g.Admits f w b) (Signal.Graph.peek?_start s.1.graph id)
      · intro x
        rw [hcell]
      · intro x j hj
        rwa [Signal.Graph.subscribers, hcell, ← Signal.Graph.subscribers]
      · intro i b howner
        exact Signal.Graph.effects_start_of_ne _ (hother howner)
      · intro i e he
        obtain ⟨e', he', hbody⟩ := Signal.Graph.body_start he
        exact hbody ▸ s.2.apt.effects i e' he'
      · intro b hb
        obtain ⟨e, he, rfl⟩ := Signal.Graph.start_body hb
        exact (s.2.apt.effects id e he).resolve_left hself
    · apply does_graph law (fun g : SignalGraph => ((), g.finish id b))
        (Q := fun _ _ => True) (fun _ => rfl) (fun _ => rfl) (fun _ _ hj => hj)
      · intro i b' howner
        rw [Signal.Graph.effects_finish, if_neg (hother howner)]
      · intro i e he
        rw [Signal.Graph.effects_finish] at he
        split at he
        · obtain ⟨e', -, rfl⟩ := Option.map_eq_some_iff.mp he
          exact Or.inr hb
        · exact s'.2.apt.effects i e he
      · trivial

/-! ### Writes and registrations -/

variable {exec exec' : Nat → Run Unit}

/-- What running effects comes to: others keep what is good, the owner makes it good. -/
structure Executes (f : Factory) (g : Guard) (exec exec' : Nat → Run Unit) : Prop where
  does : ∀ (s : (g.regime f).State) id,
    (g.regime f).Does () s (exec id) (exec' id) fun _ _ => True
  owner : ∀ i b w w', g.owner = some (i, b) → g.Holds f w → exec i w = some ((), w') → g.good w'

/-- When the owner is among the effects that have run, all is good. -/
theorem Executes.executeAll (h : g.Executes f exec exec') {i : Nat} {b : Binding}
    (howner : g.owner = some (i, b)) {ids : List Nat} (hmem : i ∈ ids) {w'' : World}
    (hw : g.Holds f w) (hlawful : (g.regime f).Lawful f)
    (hrun : Signal.executeAll exec ids w = some ((), w'')) : g.good w'' := by
  induction ids generalizing w with
  | nil => cases hmem
  | cons id ids ih =>
    obtain ⟨⟨⟨⟩, w₁⟩, hfirst, hrest⟩ := Option.bind_eq_some_iff.mp hrun
    obtain ⟨s₁, rfl, -, -⟩ := (h.does ⟨w, hw⟩ id).exists_next hfirst
    by_cases hid : i ∈ ids
    · exact ih hid s₁.2 hrest
    · obtain rfl : i = id := (List.mem_cons.mp hmem).resolve_right hid
      have hgood := h.owner i b w s₁.1 howner hw hfirst
      obtain ⟨s', rfl, hnext, -⟩ := (Regime.executeAll_does hlawful (fun s id => h.does s id) ids
        (s := s₁)).exists_next hrest
      exact hnext.2 hgood

theorem register_does (law : g.Lasting f) (hlawful : (g.regime f).Lawful f)
    (h : g.Executes f exec exec') {b : Binding} (hb : g.Admits f s.1 b) :
    (g.regime f).Does () s (Signal.register (σ := Script) (β := Binding) exec b)
      (Signal.register (σ := Script) (β := Binding) exec' b) fun _ _ => True := by
  refine Regime.Does.bind (Q := fun _ _ => True) hlawful ?_ fun id s' _ _ => h.does s' id
  have hpush := Signal.Graph.effects_register s.1.graph b
  apply does_graph law (fun g : SignalGraph => g.register b) (Q := fun _ _ => True)
    (fun _ => rfl) (fun _ => rfl) (fun _ _ hj => hj)
  · intro i b' howner
    rw [hpush, if_neg]
    rintro rfl
    have hold := s.2.apt.owned _ b' howner
    simp at hold
  · intro i e he
    rw [hpush] at he
    split at he
    · obtain rfl := Option.some.inj he
      exact Or.inr hb
    · exact s.2.apt.effects i e he
  · trivial

/-- A write, with all that it sets off. -/
theorem write_does (law : g.Lasting f) (hlawful : (g.regime f).Lawful f)
    (h : g.Executes f exec exec') {name : String} {code : Script} (htyped : g.types name code)
    (hcode : code.Keeps g.types) :
    (g.regime f).Does () s (Signal.write (σ := Script) (β := Binding) exec name code)
      (Signal.write (σ := Script) (β := Binding) exec' name code) fun _ _ => True := by
  have hheld (x : String) : g.types x (({ s.1 with graph := (s.1.graph.write name code).2 } :
      World).held x) ∧ (({ s.1 with graph := (s.1.graph.write name code).2 } :
      World).held x).Keeps g.types := by
    rw [held_write, holding]
    split
    · rename_i hx
      exact hx.1 ▸ ⟨htyped, hcode⟩
    · exact s.2.apt.signals x
  have hwritten : g.Holds f { s.1 with graph := (s.1.graph.write name code).2 } :=
    have hs := s.2.apt
    s.2.onGraph ⟨hs.live, hheld, hs.owned, hs.effects, hs.stored⟩
  intro a w' hrun
  have hrest : Signal.executeAll exec (s.1.graph.subscribers name)
      { s.1 with graph := (s.1.graph.write name code).2 } = some (a, w') := hrun
  obtain ⟨s', hrest', rfl, hnext, -⟩ := Regime.executeAll_does hlawful (fun s id => h.does s id)
    (G := g.regime f) (s.1.graph.subscribers name) (s := ⟨_, hwritten⟩) a w' hrest
  have hnext' : s.1.page.size ≤ s'.1.page.size ∧
      (g.good { s.1 with graph := (s.1.graph.write name code).2 } → g.good s'.1) := hnext
  refine ⟨s', hrest', rfl, ⟨hnext'.1, fun hgood => ?_⟩, trivial⟩
  by_cases hmem : ∃ i b, g.owner = some (i, b) ∧ i ∈ s.1.graph.subscribers name
  · obtain ⟨i, b, howner, hmem⟩ := hmem
    exact h.executeAll howner hmem hwritten hlawful hrest
  · exact hnext'.2 (law.unread _ name code (fun i b howner hi => hmem ⟨i, b, howner, hi⟩) hgood)

end

/-! ### The renderer -/

theorem runs (law : g.Lasting f) (hlawful : (g.regime f).Lawful f) {exec exec' : Nat → Run Unit}
    (h : g.Executes f exec exec') : (g.regime f).Runs exec exec' where
  write _ _ name code _ hcode := by
    obtain ⟨htyped, hkeeps⟩ := hcode.assigns (name, code) List.mem_cons_self
    exact write_does law hlawful h htyped hkeeps
  register _ _ _ hb := register_does law hlawful h (Or.inl hb)

theorem executes (law : g.Lasting f) (hpolicy : f.policy = .usual)
    (hlawful : (g.regime f).Lawful f) {n : Nat}
    (hc : (g.regime f).Serves (machine f n) (machine f (n + 1))) :
    g.Executes f (runEffect f (machine f n)) (runEffect f (machine f (n + 1))) where
  does _ id := effect_does law hpolicy hlawful hc id
  owner i b w w' howner hw hrun := (law.reruns i b (n + 1) w w' howner hw hrun).2.2

/-- Whatever the renderer does, the guard holds and what is good stays good. -/
theorem serves (law : g.Lasting f) (hpolicy : f.policy = .usual)
    (hregistry : ∀ name body, f.registry.get? name = some body → body.Keeps g.types) (n : Nat) :
    (g.regime f).Serves (machine f n) (machine f (n + 1)) := by
  have hlawful := lawful law hregistry
  refine Regime.machine_serves hlawful (runs law hlawful ⟨fun _ _ => .failure, nofun⟩)
    (fun n hc => ?_) n
  exact runs law hlawful (executes law hpolicy hlawful hc)

end Guard
end Stencil.Render
