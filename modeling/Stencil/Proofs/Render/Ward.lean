/-
  Stencil/Proofs/Render/Ward.lean
  ===============================
  **An element that worlds keep.**

  A ward is an element that stands on the page of every world in question.  Nothing is
  bound to it by anybody who does not know it, all nodes that a world mentions are on its
  page, and all code is of a kind that the ward allows.  What else is true of a world
  (`Apt`), and what of one world is kept in another (`Keeps`), is left open.

  `Ward.Lawful` asks little of these two.  They depend on the element, the signals and the
  effects only, and no more than reading a signal may change about a signal is to matter.
  That is enough for all that is done to a world in one go (`Ward.lawful`).  Effects are not
  mentioned here: what they do to the element is what wards differ in.
-/
import Stencil.Proofs.Document.Moves
import Stencil.Proofs.Document.Unpack
import Stencil.Proofs.Render.Lockstep
import Stencil.Proofs.Render.Primitive
import Stencil.Proofs.Render.Regime
import Stencil.Proofs.Render.Typed

namespace Stencil

/-- All nodes of a page of this size, with bindings to one element left out, and code of a kind. -/
def Bounds.around (id : NodeId) (code : Script → Prop) (write : String → Script → Prop)
    (size : Nat) : Bounds where
  node := fun x : Nat => x < size
  site := fun x : Nat => x < size ∧ x ≠ id
  signal _ := True
  code := code
  write := write
  source source := ∀ (slot : Nat) (root : Nat), source.skeleton? slot = some root → root < size
  content _ := True
  literal _ := True
  setter _ := True

theorem Bounds.around_mono (id : NodeId) (code : Script → Prop) (write : String → Script → Prop)
    {n m : Nat} (h : n ≤ m) : (around id code write n).Le (around id code write m) where
  node _ hx := Nat.lt_of_lt_of_le hx h
  site _ hx := ⟨Nat.lt_of_lt_of_le hx.1 h, hx.2⟩
  signal _ _ := trivial
  code _ hcode := hcode
  write _ _ hwrite := hwrite
  source _ hsource := fun slot root hroot => Nat.lt_of_lt_of_le (hsource slot root hroot) h
  content _ _ := trivial
  literal _ _ := trivial
  setter _ _ := trivial

/-- What was there before the element does not go to it. -/
theorem Bounds.typed_le_around {T : Types} {id : NodeId} {code : Script → Prop}
    {write : String → Script → Prop} {size size' : Nat} (hcode : ∀ c, c.Keeps T → code c)
    (hwrite : ∀ name c, T name c → c.Keeps T → write name c) (hsize : size ≤ size')
    (hnew : (fun id : Nat => size ≤ id) id) : (typed T size).Le (around id code write size') where
  node _ hx := Nat.lt_of_lt_of_le hx hsize
  site x hx := by
    refine ⟨Nat.lt_of_lt_of_le hx hsize, ?_⟩
    rintro rfl
    exact absurd hx (Nat.not_lt.mpr hnew)
  signal _ _ := trivial
  code c hc := hcode c hc
  write name c hc := hwrite name c hc.1 hc.2
  source _ hsource := fun slot root hroot => Nat.lt_of_lt_of_le (hsource slot root hroot) hsize
  content _ _ := trivial
  literal _ _ := trivial
  setter _ _ := trivial

namespace Render

open Document

/-- An element, the code that there may be, and what is said of worlds with that element. -/
structure Ward where
  node : NodeId
  code : Script → Prop
  write : String → Script → Prop
  Apt : World → Prop
  Keeps : World → World → Prop

namespace Ward

/-- Nothing happened but on the page, and there not to the element. -/
structure Elsewhere (id : NodeId) (w w' : World) : Prop where
  live : w'.live = w.live
  graph : w'.graph = w.graph
  stored : w'.stored = w.stored
  size : w.page.size ≤ w'.page.size
  element : w'.page.element? id = w.page.element? id

/-- The signals hold what they held, and nobody who has read one is forgotten. -/
structure Silent (g g' : SignalGraph) : Prop where
  effects : g'.effects = g.effects
  peek : ∀ x, g'.peek? x = g.peek? x
  cell : ∀ x, (g'.cell? x).isSome = (g.cell? x).isSome
  subscribers : ∀ (x : String) (j : Nat), j ∈ g.subscribers x → j ∈ g'.subscribers x

theorem silent_read (g : SignalGraph) (name : String) : Silent g (g.read name).2 where
  effects := Signal.Graph.effects_read g name
  peek := Signal.Graph.peek?_read g name
  cell _ := Signal.Graph.isSome_cell?_read _ _ _
  subscribers _ _ hj := Signal.Graph.subscribers_read hj name

variable {W : Ward} {f : Factory} {w : World}

def bounds (W : Ward) (w : World) : Bounds := .around W.node W.code W.write w.page.size

theorem bounds_mono (W : Ward) {w w' : World} (h : w.page.size ≤ w'.page.size) :
    (W.bounds w).Le (W.bounds w') := Bounds.around_mono _ _ _ h

/-- What is true of a world between any two things that happen to it. -/
structure Holds (W : Ward) (w : World) : Prop where
  forest : w.page.IsForest
  element : ∃ e, w.page.element? W.node = some e
  stored : ∀ p ∈ w.stored, p.2.Within (W.bounds w)
  containers : ∀ p ∈ w.containers, (W.bounds w).node p.2
  cached : ∀ p ∈ w.cache.entries, ∀ source, p.2 = .ok source → (W.bounds w).source source
  apt : W.Apt w

/-- What a ward has to answer for. -/
structure Lawful (f : Factory) (W : Ward) : Prop where
  refl : ∀ w, W.Keeps w w
  trans : ∀ w w₁ w', W.Keeps w w₁ → W.Keeps w₁ w' → W.Keeps w w'
  elsewhere : ∀ w w', Elsewhere W.node w w' → W.Apt w → W.Apt w' ∧ W.Keeps w w'
  silent : ∀ w graph, Silent w.graph graph → W.Apt w →
    W.Apt { w with graph := graph } ∧ W.Keeps w { w with graph := graph }
  coherent : ∀ w, (W.bounds w).Coherent
  registry : ∀ name body, f.registry.get? name = some body → W.code body
  held : ∀ w name, W.Apt w → W.code (w.held name)

theorem Holds.lt_size (h : W.Holds w) : (fun id : Nat => id < w.page.size) W.node := by
  obtain ⟨e, he⟩ := h.element
  obtain ⟨n, hn, -⟩ := Option.map_eq_some_iff.mp (element?_eq_some.mp he)
  exact lt_size_of_node? hn

/-- The page changed, the element still being one. -/
theorem Holds.onPage (h : W.Holds w) {d : Page} (hforest : d.IsForest)
    (hsize : w.page.size ≤ d.size) (helement : ∃ e, d.element? W.node = some e)
    (hapt : W.Apt { w with page := d }) : W.Holds { w with page := d } := by
  have hle : (W.bounds w).Le (W.bounds { w with page := d }) := W.bounds_mono hsize
  exact {
    forest := hforest
    element := helement
    stored := fun p hp => (h.stored p hp).mono hle
    containers := fun p hp => hle.node _ (h.containers p hp)
    cached := fun p hp source hok => hle.source source (h.cached p hp source hok)
    apt := hapt }

/-- The signals or the effects changed. -/
theorem Holds.onGraph (h : W.Holds w) {graph : SignalGraph}
    (hapt : W.Apt { w with graph := graph }) : W.Holds { w with graph := graph } :=
  ⟨h.forest, h.element, h.stored, h.containers, h.cached, hapt⟩

/-! ### The regime -/

/-- Worlds for which the ward is in order. -/
def regime (W : Ward) : Regime where
  Kind := Unit
  State := { w : World // W.Holds w }
  world s := s.1
  bounds _ s := W.bounds s.1
  place _ s := (W.bounds s.1).node
  hub _ s := (W.bounds s.1).node
  Next _ s s' := s.1.page.size ≤ s'.1.page.size ∧ W.Keeps s.1 s'.1

section

variable {α : Type} {s : W.regime.State} {a : α} {Q : α → World → Prop}

theorem does {act act' : Run α}
    (h : ∀ a w', act s.1 = some (a, w') → act' s.1 = some (a, w') ∧ W.Holds w' ∧
      s.1.page.size ≤ w'.page.size ∧ W.Keeps s.1 w' ∧ Q a w') :
    W.regime.Does () s act act' fun a s' => Q a s'.1 := by
  intro a w' hrun
  obtain ⟨hrun', hholds, hsize, hkeeps, hQ⟩ := h a w' hrun
  exact ⟨⟨w', hholds⟩, hrun', rfl, ⟨hsize, hkeeps⟩, hQ⟩

/-- An action of which the result is known. -/
theorem does_of_run {act : Run α} {w' : World} (hrun : act s.1 = some (a, w'))
    (hholds : W.Holds w') (hsize : s.1.page.size ≤ w'.page.size) (hkeeps : W.Keeps s.1 w')
    (hQ : Q a w') : W.regime.Does () s act act fun a s' => Q a s'.1 := by
  apply does
  intro b w₁ hrun₁
  obtain ⟨rfl, rfl⟩ := by simpa using hrun.symm.trans hrun₁
  exact ⟨hrun, hholds, hsize, hkeeps, hQ⟩

/-- An action that happens elsewhere, where new containers and compiled literals are in order. -/
theorem does_elsewhere (law : W.Lawful f) {act : Run α}
    (h : ∀ a w', act s.1 = some (a, w') → Elsewhere W.node s.1 w' ∧ w'.page.IsForest ∧
      (∀ p ∈ w'.containers, p ∈ s.1.containers ∨ (W.bounds w').node p.2) ∧
      (∀ p ∈ w'.cache.entries, p ∈ s.1.cache.entries ∨
        ∀ source, p.2 = .ok source → (W.bounds w').source source) ∧ Q a w') :
    W.regime.Does () s act act fun a s' => Q a s'.1 := by
  apply does
  intro a w' hrun
  obtain ⟨helsewhere, hforest, hcontainers, hcached, hQ⟩ := h a w' hrun
  have hle := W.bounds_mono helsewhere.size
  obtain ⟨hapt, hkeeps⟩ := law.elsewhere s.1 w' helsewhere s.2.apt
  refine ⟨hrun, ⟨hforest, helsewhere.element ▸ s.2.element, ?_, ?_, ?_, hapt⟩, helsewhere.size,
    hkeeps, hQ⟩
  · intro p hp
    rw [helsewhere.stored] at hp
    exact (s.2.stored p hp).mono hle
  · intro p hp
    exact (hcontainers p hp).elim (fun hold => hle.node _ (s.2.containers p hold)) id
  · intro p hp source hok
    rcases hcached p hp with hold | hnew
    · exact hle.source source (s.2.cached p hold source hok)
    · exact hnew source hok

/-- A change of the page that leaves the element as it is. -/
theorem does_page (law : W.Lawful f) {act : Run α} {d : Page}
    (hrun : act s.1 = some (a, { s.1 with page := d })) (hforest : d.IsForest)
    (hsize : s.1.page.size ≤ d.size) (hsame : d.element? W.node = s.1.page.element? W.node)
    (hQ : Q a { s.1 with page := d }) : W.regime.Does () s act act fun a s' => Q a s'.1 := by
  apply does_elsewhere law
  intro b w' hrun'
  obtain ⟨rfl, rfl⟩ := by simpa using hrun.symm.trans hrun'
  exact ⟨⟨rfl, rfl, rfl, hsize, hsame⟩, hforest, fun _ hp => Or.inl hp, fun _ hp => Or.inl hp, hQ⟩

theorem does_changePage (law : W.Lawful f) {act : Page → Page}
    (hforest : (act s.1.page).IsForest) (hsize : s.1.page.size ≤ (act s.1.page).size)
    (hsame : (act s.1.page).element? W.node = s.1.page.element? W.node) :
    W.regime.Does () s (changePage act) (changePage act) fun _ _ => True :=
  does_page law (Q := fun _ _ => True) (run_changePage act s.1) hforest hsize hsame trivial

/-- A change of the signals or the effects. -/
theorem does_graph (act : SignalGraph → α × SignalGraph)
    (hapt : W.Apt { s.1 with graph := (act s.1.graph).2 })
    (hkeeps : W.Keeps s.1 { s.1 with graph := (act s.1.graph).2 })
    (hQ : Q (act s.1.graph).1 { s.1 with graph := (act s.1.graph).2 }) :
    W.regime.Does () s (modifyGet act) (modifyGet act) fun a s' => Q a s'.1 :=
  does_of_run rfl (s.2.onGraph hapt) (Nat.le_refl _) hkeeps hQ

theorem does_silent (law : W.Lawful f) (act : SignalGraph → α × SignalGraph)
    (hsilent : Silent s.1.graph (act s.1.graph).2)
    (hQ : Q (act s.1.graph).1 { s.1 with graph := (act s.1.graph).2 }) :
    W.regime.Does () s (modifyGet act) (modifyGet act) fun a s' => Q a s'.1 := by
  obtain ⟨hapt, hkeeps⟩ := law.silent s.1 _ hsilent s.2.apt
  exact does_graph act hapt hkeeps hQ

end

/-! ### What is done to a world in one go -/

theorem compile_does (law : W.Lawful f) (s : W.regime.State) (l : Literal) :
    W.regime.Does () s (compile f l) (compile f l)
      fun out s' => ∀ source, out = .ok source → (W.bounds s'.1).source source := by
  apply does_elsewhere law (Q := fun (out : Except TemplateError Compiled) w =>
    ∀ source, out = .ok source → (W.bounds w).source source)
  intro out w' hrun
  have h := s.2
  rcases compile_cases hrun with ⟨-, rfl, rfl⟩ | ⟨hlookup, rfl⟩
  · obtain ⟨hext, hskeletons⟩ := Setup.compile_extends f.toSetup l h.forest
    have hnew (source : Compiled) (hok : (f.compile l s.1.page).1 = .ok source) :
        (Bounds.around W.node W.code W.write (f.compile l s.1.page).2.size).source source :=
      fun slot root hroot => (hskeletons source hok slot root hroot).2
    refine ⟨⟨rfl, rfl, rfl, hext.size_le, element?_extends hext h.element⟩, hext.forest,
      fun _ hp => Or.inl hp, fun p hp => ?_, hnew⟩
    rcases List.mem_cons.mp hp with rfl | hp
    · exact Or.inr hnew
    · exact Or.inl hp
  · obtain ⟨p, hp, hfound⟩ := Option.map_eq_some_iff.mp hlookup
    refine ⟨⟨rfl, rfl, rfl, Nat.le_refl _, rfl⟩, h.forest, fun _ hp => Or.inl hp,
      fun _ hp => Or.inl hp, fun source hok => ?_⟩
    exact h.cached p (List.mem_of_find?_eq_some hp) source (hfound.trans hok)

theorem container_does (law : W.Lawful f) (s : W.regime.State) (name : String) :
    W.regime.Does () s (container name) (container name)
      fun id s' => (W.bounds s'.1).node id := by
  apply does_elsewhere law (Q := fun id w => (W.bounds w).node id)
  intro id w' hrun
  have h := s.2
  rcases hfind : s.1.containers.find? (·.1 == name) with _ | p
  · obtain ⟨rfl, rfl⟩ := by simpa using (run_container_new hfind).symm.trans hrun
    have hext : s.1.page.Extends (s.1.page.createElement "root" .html).2 :=
      Extends.create h.forest _
    have hnew : s.1.page.size < (s.1.page.createElement "root" .html).2.size := by
      rw [createElement, size_create]
      exact Nat.lt_succ_self _
    refine ⟨⟨rfl, rfl, rfl, hext.size_le, element?_extends hext h.element⟩, hext.forest,
      fun p hp => ?_, fun _ hp => Or.inl hp, hnew⟩
    rcases List.mem_append.mp hp with hp | hp
    · exact Or.inl hp
    · obtain rfl := List.mem_singleton.mp hp
      exact Or.inr hnew
  · obtain ⟨rfl, rfl⟩ := by simpa using (run_container_old hfind).symm.trans hrun
    exact ⟨⟨rfl, rfl, rfl, Nat.le_refl _, rfl⟩, h.forest, fun _ hp => Or.inl hp,
      fun _ hp => Or.inl hp, h.containers p (List.mem_of_find?_eq_some hfind)⟩

theorem lawful (law : W.Lawful f) : W.regime.Lawful f where
  refl _ s := ⟨Nat.le_refl _, law.refl s.1⟩
  trans _ _ _ _ h h' := ⟨Nat.le_trans h.1 h'.1, law.trans _ _ _ h.2 h'.2⟩
  mono _ _ _ _ h := W.bounds_mono h.1
  place_mono _ _ _ x h := (W.bounds_mono h.1).node x
  hub_mono _ _ _ x h := (W.bounds_mono h.1).node x
  coherent _ s := law.coherent s.1
  setter _ _ _ := trivial
  content _ _ _ _ := trivial
  component _ _ _ _ e _ :=
    ⟨trivial, fun body h => law.registry _ body (Registry.get?_of_componentFor? h)⟩
  literal _ _ _ _ _ := trivial
  site _ _ _ h := h.1
  place _ _ _ h := h
  parent _ s x p _ hp := s.2.forest.parent_lt_size hp
  fragment _ _ _ h _ := h
  children _ s x _ c hc := lt_size_of_parent? (s.2.forest.parent?_of_mem hc)
  log _ s e := by
    apply does_elsewhere law (Q := fun _ _ => True)
    intro a w' hrun
    obtain ⟨-, rfl⟩ : () = a ∧ { s.1 with log := s.1.log.push e } = w' := by
      simpa using Option.some.inj hrun
    exact ⟨⟨rfl, rfl, rfl, Nat.le_refl _, rfl⟩, s.2.forest, fun _ hp => Or.inl hp,
      fun _ hp => Or.inl hp, trivial⟩
  create _ s c _ := by
    have hext : s.1.page.Extends (s.1.page.create c).2 := Extends.create s.2.forest c
    apply does_page law (Q := fun x w => (W.bounds w).node x) (run_onPage _ s.1) hext.forest
      hext.size_le (element?_extends hext s.2.element)
    change s.1.page.size < (s.1.page.create c).2.size
    simp
  detach _ s x _ := does_changePage law (s.2.forest.detach x) (Nat.le_of_eq (size_detach x).symm)
    (element?_congr (content?_detach _ _ _))
  setText _ s x value _ := by
    apply does_changePage law (s.2.forest.setText x value)
      (Nat.le_of_eq (size_setText _ _ _).symm)
    obtain ⟨e, he⟩ := s.2.element
    rw [he, element?_eq_some, content?, node?_setText, ← element?_eq_some.mp he, content?]
    obtain ⟨⟨c, q, cs⟩, hn, hcontent⟩ := Option.map_eq_some_iff.mp (element?_eq_some.mp he)
    obtain rfl : c = .element e := hcontent
    rw [hn]
    by_cases hx : x = W.node <;> simp [hx]
  insert _ s p c reference hp hc :=
    does_changePage law (s.2.forest.insert hp hc reference)
      (Nat.le_of_eq (size_moved _ _ _ _).symm) (element?_congr (content?_insertBefore _ _ _ _ _))
  apply _ s x setter name v hsite _ _ := by
    apply does_changePage law (s.2.forest.updateElement x _)
      (Nat.le_of_eq (size_updateElement _ _ _).symm)
    apply element?_congr
    rw [content?, Document.updateElement, node?_update, if_neg hsite.2, content?]
  copy _ s source slot root hsource hroot := by
    have hlt : (fun root : Nat => root < s.1.page.size) root := hsource slot root hroot
    obtain ⟨t, hid, hext, hnew, -⟩ := exists_copy s.2.forest hlt
    obtain ⟨-, hstations⟩ := stations_copy s.2.forest hlt
    apply does_page law (Q := fun y w => (W.bounds w).node y ∧ ∀ x ∈ stations w.page y,
      (W.bounds w).node x ∧ (W.bounds w).site x) (run_onPage _ s.1) hext.forest hext.size_le
      (element?_extends hext s.2.element)
    constructor
    · rw [hid]
      exact hnew
    · intro x hx
      obtain ⟨hlow, hhigh⟩ := hstations x hx
      refine ⟨hhigh, hhigh, ?_⟩
      rintro rfl
      exact absurd s.2.lt_size (Nat.not_lt.mpr hlow)
  compile _ s l _ := compile_does law s l
  read _ s name := by
    obtain ⟨hapt, hkeeps⟩ := law.silent s.1 _ (silent_read s.1.graph name) s.2.apt
    exact does_of_run (Q := fun code w => True → W.code code) (run_readSignal name s.1)
      (s.2.onGraph hapt) (Nat.le_refl _) hkeeps fun _ => law.held s.1 name s.2.apt
  untrack _ s := does_silent law (fun g : SignalGraph => ((), g.openUntracked))
    (Q := fun _ _ => True) ⟨rfl, fun _ => rfl, fun _ => rfl, fun _ _ h => h⟩ trivial
  track _ s := does_silent law (fun g : SignalGraph => ((), g.closeScope))
    (Q := fun _ _ => True) ⟨rfl, fun _ => rfl, fun _ => rfl, fun _ _ h => h⟩ trivial
  container _ s name _ := container_does law s name
  stored _ s name _ :=
    does_of_run (Q := fun v w => Value.Within (W.bounds w) v) (run_storedValue name s.1) s.2
      (Nat.le_refl _) (law.refl s.1)
      (within_storedAt fun p hp => s.2.stored p (List.mem_of_find?_eq_some hp))

end Ward
end Render
end Stencil
