/-
  Stencil/Proofs/Render/Palette.lean
  ==================================
  **Nodes that are kept apart.**

  The nodes that an application can get hold of have a colour, and the skeletons have
  none.  A palette says which code belongs to a colour.  Code of a colour works on nodes
  of this colour only, and what it makes gets the colour; a copy of a skeleton does, the
  skeleton itself does not.

  `Tinted` is what is true of a world between any two things that happen to it: all that
  nodes of a colour hold, and all that was stored or bound, is of one colour, and every
  cached skeleton stands as its compilation left it.  The renderer keeps this, whatever
  it does (`Coloured.serves`).

  Code of any colour may set a signal, and then effects of other colours run.  A colour is
  quiet if its code sets none; while such code runs, nodes of other colours are left alone.
-/
import Stencil.Proofs.Attribute.Honest
import Stencil.Proofs.Document.Coloured
import Stencil.Proofs.Document.Unpack
import Stencil.Proofs.Render.Governed
import Stencil.Proofs.Render.Incremental
import Stencil.Proofs.Render.Primitive
import Stencil.Proofs.Template.Outcome

namespace Stencil

/-- The code of the component of some element of the literal. -/
def Factory.Invokes (f : Factory) (l : Literal) (body : Script) : Prop :=
  ∃ tree, l.parse f.config = .ok tree ∧
    ∃ e ∈ Markup.elementsOfAll tree.children, f.registry.componentFor? e.1 = some body

namespace Render

open Document

/-! ### Palettes -/

/-- Which code belongs to a colour, which signals it may build, and which colours are quiet.  What
    happens from outside is of the colour `base`, and so are the containers and what is stored.
    The literals that may be rendered at all are known. -/
structure Palette (f : Factory) (ι : Type) where
  base : ι
  code : ι → Script → Prop
  signal : ι → String → Prop
  quiet : ι → Prop
  known : Literal → Prop
  parts : ∀ i c, code i c → ∀ part ∈ c.parts, code i part
  builds : ∀ i c, code i c → ∀ name ∈ c.builds, signal i name
  assigns : ∀ i c, code i c → ∀ a ∈ c.assigns, ∀ j, signal j a.1 → code j a.2
  loud : ¬ quiet base
  silent : ∀ i name c next, quiet i → ¬ code i (.write name c next)
  sets : ∀ name c, (∀ j, signal j name → code j c) → code base (.write name c .empty)
  container : ∀ i name, code i (.container name) → i = base
  stored : ∀ i name, code i (.stored name) → i = base
  components : ∀ name body, f.registry.get? name = some body → code base body
  named : ∀ name, known (f.literal name)
  literal : ∀ i name values, code i (.html name values) → ∀ body, f.Invokes (f.literal name) body →
    code i body
  keyed : ∀ i l l', known l → known l' → l.key = l'.key → (∀ body, f.Invokes l body → code i body) →
    ∀ body, f.Invokes l' body → code i body

variable {ι : Type} {f : Factory}

/-- Content in which all components are of the colour. -/
def Palette.Content (P : Palette f ι) (i : ι) (nodes : List Markup.Node) : Prop :=
  ∀ e ∈ Markup.elementsOfAll nodes, ∀ body, f.registry.componentFor? e.1 = some body → P.code i body

/-- What something of a colour may hold: nodes and code of this colour, and the literals that
    have been compiled. -/
def Palette.bounds (P : Palette f ι) (g : Colouring ι) (w : World) (i : ι) : Bounds where
  node id := g.colour id = some i
  site id := g.colour id = some i
  signal := P.signal i
  code := P.code i
  write name code := ∀ j, P.signal j name → P.code j code
  source source := (∃ key, (key, Except.ok source) ∈ w.cache.entries) ∧
    P.Content i source.tree.children
  content := P.Content i
  literal l := P.known l ∧ ∀ body, f.Invokes l body → P.code i body
  setter := Setter.Honest

/-- The skeletons of a compiled literal are out of reach, and stand as their compilation left
    them. -/
def Unspoilt (P : Palette f ι) (g : Colouring ι) (d : Page) (key : Option String)
    (source : Compiled) : Prop :=
  ∃ l page, P.known l ∧ l.key = key ∧ l.parse f.config = .ok source.tree ∧
    (f.compile l page).1 = .ok source ∧ ∀ slot (root : Nat), source.skeleton? slot = some root →
      g.colour root = none ∧ root < d.size ∧ d.tree root = (f.compile l page).2.tree root

/-- What is true of a world between any two things that happen to it. -/
structure Tinted (P : Palette f ι) (g : Colouring ι) (w : World) : Prop where
  forest : w.page.IsForest
  sorted : g.Sorted w.page
  made : ∀ id : Nat, g.colour id ≠ none → id < w.page.size
  closed : ∀ id, g.opened id → w.page.isFragment id = false
  held : ∀ name i, P.signal i name → P.code i (w.held name)
  elements : ∀ id i e, g.colour id = some i → w.page.element? id = some e →
    ElementWithin (P.bounds g w i) e
  effects : ∀ (j : Nat) e, w.graph.effects[j]? = some e → ∃ i, e.body.Within (P.bounds g w i)
  stored : ∀ p ∈ w.stored, p.2.Within (P.bounds g w P.base)
  containers : ∀ p ∈ w.containers, g.colour p.2 = some P.base ∧ w.page.isFragment p.2 = false
  cached : ∀ key source, (key, .ok source) ∈ w.cache.entries → Unspoilt P g w.page key source

variable {P : Palette f ι} {g g' : Colouring ι} {w w' : World}

theorem Palette.bounds_mono (P : Palette f ι)
    (hcolour : ∀ id i, g.colour id = some i → g'.colour id = some i)
    (hcache : ∀ p ∈ w.cache.entries, p ∈ w'.cache.entries) (i : ι) :
    (P.bounds g w i).Le (P.bounds g' w' i) where
  node id := hcolour id i
  site id := hcolour id i
  signal _ h := h
  code _ h := h
  write _ _ h := h
  source _ h := ⟨h.1.imp fun _ hmem => hcache _ hmem, h.2⟩
  content _ h := h
  literal _ h := h
  setter _ h := h

theorem Palette.literal_base (name : String) : (P.bounds g w P.base).literal (f.literal name) :=
  ⟨P.named name, fun body ⟨_, _, _, _, hbody⟩ =>
    P.components _ body (Registry.get?_of_componentFor? hbody)⟩

/-- Nothing out of reach is lost or touched. -/
theorem Unspoilt.mono {d d' : Page} {key : Option String} {source : Compiled}
    (h : Unspoilt P g d key source) (hsorted : g.Sorted d) (hforest : d.IsForest)
    (hforest' : d'.IsForest) (hsize : d.size ≤ d'.size)
    (hcolour : ∀ id : Nat, id < d.size → g'.colour id = g.colour id)
    (hsame : ∀ id : Nat, id < d.size → g.colour id = none → d'.node? id = d.node? id) :
    Unspoilt P g' d' key source := by
  obtain ⟨l, page, hknown, hkey, hparse, hcompile, hroots⟩ := h
  refine ⟨l, page, hknown, hkey, hparse, hcompile, fun slot root hroot => ?_⟩
  obtain ⟨hnone, hlt, htree⟩ := hroots slot root hroot
  refine ⟨(hcolour root hlt).trans hnone, Nat.lt_of_lt_of_le hlt hsize, ?_⟩
  exact (hsorted.tree_eq hforest hforest' hsame hlt hnone).trans htree

/-! ### Changes of the page -/

namespace Tinted

/-- Nodes of one colour moved or changed. -/
theorem move (h : Tinted P g w) {i : ι} {d : Page} (hstays : Stays g i w.page d)
    (hforest : d.IsForest) (hfragment : ∀ id, d.isFragment id = w.page.isFragment id)
    (helements : ∀ id j e, g.colour id = some j → d.element? id = some e →
      ElementWithin (P.bounds g w j) e) : Tinted P g { w with page := d } where
  forest := hforest
  sorted := hstays.sorted
  made id hid := hstays.size.symm ▸ h.made id hid
  closed id hid := (hfragment id).trans (h.closed id hid)
  held := h.held
  elements := helements
  effects := h.effects
  stored := h.stored
  containers p hp := ⟨(h.containers p hp).1, (hfragment p.2).trans (h.containers p hp).2⟩
  cached key source hp := by
    refine (h.cached key source hp).mono h.sorted h.forest hforest (Nat.le_of_eq hstays.size.symm)
      (fun _ _ => rfl) fun id _ hid => hstays.same id fun htakes => htakes.ne_none hid

/-- Nodes moved that hold what they held. -/
theorem move_alike (h : Tinted P g w) {i : ι} {d : Page} (hstays : Stays g i w.page d)
    (hforest : d.IsForest) (hcontent : ∀ id, d.content? id = w.page.content? id) :
    Tinted P g { w with page := d } := by
  refine h.move hstays hforest (fun id => isFragment_congr (hcontent id)) fun id j e hid he => ?_
  rw [element?_congr (hcontent id)] at he
  exact h.elements id j e hid he

/-- New nodes of one colour, or of none. -/
theorem grow (h : Tinted P g w) {d : Page} (hext : w.page.Extends d) (c : Option ι)
    (hbare : c ≠ none → ∀ id : Nat, w.page.size ≤ id → ∀ e, d.element? id = some e →
      e.properties = [] ∧ e.listeners = []) :
    Tinted P (g.extend w.page.size d.size c) { w with page := d } := by
  have hcolour (id : Nat) (hid : id < w.page.size) :
      (g.extend w.page.size d.size c).colour id = g.colour id := Colouring.extend_old hid
  have hle (i : ι) : (P.bounds g w i).Le
      (P.bounds (g.extend w.page.size d.size c) { w with page := d } i) :=
    P.bounds_mono (fun id i hid => (hcolour id (h.made id (by simp [hid]))).trans hid)
      (fun _ hp => hp) i
  have hold (id : Nat) (hid : id < w.page.size) : d.element? id = w.page.element? id := by
    rw [element?, hext.same id hid, element?]
  have hfragment (id : Nat) (hid : id < w.page.size) : d.isFragment id = w.page.isFragment id := by
    rw [isFragment, Document.kind, hext.same id hid, isFragment, Document.kind]
  exact {
    forest := hext.forest
    sorted := h.sorted.extend h.forest hext c
    made := by
      intro id hid
      by_contra hlt
      have hnew : ¬ id < w.page.size := fun hlt' => hlt (Nat.lt_of_lt_of_le hlt' hext.size_le)
      exact hid (by simp [Colouring.extend, hnew, show ¬ id < d.size from hlt])
    closed := fun id hid => (hfragment id hid.1).trans (h.closed id hid.2)
    held := h.held
    elements := by
      intro id i e hid he
      by_cases hlt : (fun id : Nat => id < w.page.size) id
      · rw [hold id hlt] at he
        rw [hcolour id hlt] at hid
        exact (h.elements id i e hid he).mono (hle i)
      · have hlt' : (fun id : Nat => id < d.size) id := by
          by_contra hge
          have hnone : d.node? id = none := node?_of_size_le (Nat.not_lt.mp hge)
          rw [element?, hnone] at he
          cases he
        rw [Colouring.extend_new (Nat.not_lt.mp hlt) hlt'] at hid
        exact within_bare (hbare (by simp [hid]) id (Nat.not_lt.mp hlt) e he)
    effects := fun j e he => (h.effects j e he).imp fun i hb => Binding.Within.mono (hle i) hb
    stored := fun p hp => (h.stored p hp).mono (hle _)
    containers := by
      intro p hp
      obtain ⟨hp, hno⟩ := h.containers p hp
      have hlt := h.made p.2 (by simp [hp])
      exact ⟨(hcolour p.2 hlt).trans hp, (hfragment p.2 hlt).trans hno⟩
    cached := fun key source hp => (h.cached key source hp).mono h.sorted h.forest hext.forest
      hext.size_le hcolour fun id hid _ => hext.same id hid }

/-- The signals changed. -/
theorem onGraph (h : Tinted P g w) {graph : SignalGraph}
    (hheld : ∀ name i, P.signal i name → P.code i (({ w with graph := graph } : World).held name))
    (heffects : ∀ (j : Nat) e, graph.effects[j]? = some e → ∃ i, e.body.Within (P.bounds g w i)) :
    Tinted P g { w with graph := graph } :=
  ⟨h.forest, h.sorted, h.made, h.closed, hheld, h.elements, heffects, h.stored, h.containers,
    h.cached⟩

/-- The signals changed, but not what they hold. -/
theorem onGraph_alike (h : Tinted P g w) {graph : SignalGraph}
    (hpeek : ∀ x, graph.peek? x = w.graph.peek? x)
    (heffects : ∀ (j : Nat) e, graph.effects[j]? = some e → ∃ i, e.body.Within (P.bounds g w i)) :
    Tinted P g { w with graph := graph } := by
  refine h.onGraph (fun name i hname => ?_) heffects
  rw [World.held, hpeek, ← World.held]
  exact h.held name i hname

theorem onLog (h : Tinted P g w) (log : Array LogEntry) : Tinted P g { w with log := log } :=
  ⟨h.forest, h.sorted, h.made, h.closed, h.held, h.elements, h.effects, h.stored, h.containers,
    h.cached⟩

/-- One more literal compiled, or the outcome of one asked for again. -/
theorem onCache (h : Tinted P g w) (cache : Cache Compiled)
    (hkept : ∀ p ∈ w.cache.entries, p ∈ cache.entries)
    (hcached : ∀ key source, (key, .ok source) ∈ cache.entries → Unspoilt P g w.page key source) :
    Tinted P g { w with cache := cache } := by
  have hle (i : ι) : (P.bounds g w i).Le (P.bounds g { w with cache := cache } i) :=
    P.bounds_mono (fun _ _ hid => hid) hkept i
  exact {
    forest := h.forest
    sorted := h.sorted
    made := h.made
    closed := h.closed
    held := h.held
    elements := fun id i e hid he => (h.elements id i e hid he).mono (hle i)
    effects := fun j e he => (h.effects j e he).imp fun i hb => Binding.Within.mono (hle i) hb
    stored := fun p hp => (h.stored p hp).mono (hle _)
    containers := h.containers
    cached := hcached }

/-- One more container. -/
theorem onContainer (h : Tinted P g w) (name : String) {id : NodeId}
    (hid : g.colour id = some P.base) (hfragment : w.page.isFragment id = false) :
    Tinted P g { w with containers := w.containers ++ [(name, id)] } := by
  refine ⟨h.forest, h.sorted, h.made, h.closed, h.held, h.elements, h.effects, h.stored,
    fun p hp => ?_, h.cached⟩
  rcases List.mem_append.mp hp with hp | hp
  · exact h.containers p hp
  · obtain rfl := List.mem_singleton.mp hp
    exact ⟨hid, hfragment⟩

theorem ne_none_of_parent (h : Tinted P g w) {x p : NodeId} (hx : g.colour x ≠ none)
    (hp : w.page.parent? x = some p) : g.colour p ≠ none := by
  obtain ⟨i, hi⟩ := Option.ne_none_iff_exists'.mp hx
  exact ((h.sorted.parent hp).takes hi).ne_none

theorem ne_none_of_child (h : Tinted P g w) {x c : NodeId} (hx : g.colour x ≠ none)
    (hc : c ∈ w.page.children x) : g.colour c ≠ none := by
  rcases h.sorted.child hc with heq | ⟨-, hne⟩
  · exact heq ▸ hx
  · exact hne

end Tinted

/-! ### The regime -/

/-- A node that code of the colour leaves alone. -/
def Palette.Spares (P : Palette f ι) (g : Colouring ι) (i : ι) (id : NodeId) : Prop :=
  g.colour id = none ∨ P.quiet i ∧ ¬ g.Takes i id

theorem Palette.Spares.not_takes {i : ι} {id : NodeId} (h : P.Spares g i id) : ¬ g.Takes i id :=
  h.elim (fun hnone htakes => htakes.ne_none hnone) fun h => h.2

/-- A world with colours for its nodes. -/
structure Coloured (P : Palette f ι) where
  world : World
  colouring : Colouring ι
  tinted : Tinted P colouring world

namespace Coloured

/-- Colours stay, what is spared is not touched, and what is compiled is kept. -/
structure Later (i : ι) (s s' : Coloured P) : Prop where
  size : s.world.page.size ≤ s'.world.page.size
  colour : ∀ id : Nat, id < s.world.page.size → s'.colouring.colour id = s.colouring.colour id
  opened : ∀ id, s'.colouring.opened id ↔ s.colouring.opened id
  same : ∀ id : Nat, id < s.world.page.size → P.Spares s.colouring i id →
    s'.world.page.node? id = s.world.page.node? id
  cache : ∀ p ∈ s.world.cache.entries, p ∈ s'.world.cache.entries

variable {i j : ι} {s s₁ s' : Coloured P}

theorem Later.refl (i : ι) (s : Coloured P) : Later i s s :=
  ⟨Nat.le_refl _, fun _ _ => rfl, fun _ => Iff.rfl, fun _ _ _ => rfl, fun _ hp => hp⟩

theorem Later.spares (h : Later j s s') {id : Nat} (hid : id < s.world.page.size)
    (hspared : P.Spares s.colouring i id) : P.Spares s'.colouring i id := by
  refine hspared.imp (fun hnone => (h.colour id hid).trans hnone) fun ⟨hquiet, hno⟩ => ⟨hquiet, ?_⟩
  rwa [Colouring.Takes, h.colour id hid, h.opened id]

theorem Later.trans (h : Later i s s₁) (h' : Later i s₁ s') : Later i s s' where
  size := Nat.le_trans h.size h'.size
  colour id hid := (h'.colour id (Nat.lt_of_lt_of_le hid h.size)).trans (h.colour id hid)
  opened id := (h'.opened id).trans (h.opened id)
  same id hid hspared := (h'.same id (Nat.lt_of_lt_of_le hid h.size) (h.spares hid hspared)).trans
    (h.same id hid hspared)
  cache p hp := h'.cache p (h.cache p hp)

/-- A colour that is not quiet answers for all. -/
theorem Later.shift (h : Later j s s') (hloud : ¬ P.quiet i) : Later i s s' where
  size := h.size
  colour := h.colour
  opened := h.opened
  same id hid hspared := h.same id hid (Or.inl (hspared.resolve_right fun h => hloud h.1))
  cache := h.cache

theorem Later.some (h : Later j s s') {id : NodeId} (hid : s.colouring.colour id = some i) :
    s'.colouring.colour id = some i :=
  (h.colour id (s.tinted.made id (by simp [hid]))).trans hid

theorem Later.bounds (h : Later j s s') (i : ι) :
    (P.bounds s.colouring s.world i).Le (P.bounds s'.colouring s'.world i) :=
  P.bounds_mono (fun _ _ hid => h.some hid) h.cache i

/-- The worlds with colours for their nodes. -/
def regime (P : Palette f ι) : Regime where
  Kind := ι
  State := Coloured P
  world s := s.world
  bounds i s := P.bounds s.colouring s.world i
  place i s := s.colouring.Takes i
  hub i s id := s.colouring.colour id = some i ∧ ¬ s.colouring.opened id
  Next := Later

/-! ### What is done to a world in one go -/

section

variable {α : Type}

theorem Does.shift {act act' : Run α} {Q : α → Coloured P → Prop}
    (h : (regime P).Does j s act act' Q) (hloud : ¬ P.quiet i) :
    (regime P).Does i s act act' Q := by
  intro a w hrun
  obtain ⟨s', hrun', hworld, hlater, hQ⟩ := h a w hrun
  exact ⟨s', hrun', hworld, Later.shift hlater hloud, hQ⟩

/-- Nodes of one colour moved or changed. -/
theorem exists_moved {d : Page} (hstays : Stays s.colouring i s.world.page d)
    (htinted : Tinted P s.colouring { s.world with page := d }) :
    ∃ s' : Coloured P, s'.world = { s.world with page := d } ∧ Later i s s' := by
  refine ⟨⟨_, _, htinted⟩, rfl, ?_⟩
  exact ⟨Nat.le_of_eq hstays.size.symm, fun _ _ => rfl, fun _ => Iff.rfl,
    fun id _ hid => hstays.same id hid.not_takes, fun _ hp => hp⟩

/-- New nodes of one colour, or of none. -/
theorem exists_grown {d : Page} (hext : s.world.page.Extends d) (c : Option ι)
    (hbare : c ≠ none → ∀ id : Nat, s.world.page.size ≤ id → ∀ e, d.element? id = some e →
      e.properties = [] ∧ e.listeners = []) :
    ∃ s' : Coloured P, s'.world = { s.world with page := d } ∧ Later i s s' ∧
      (∀ id : Nat, s.world.page.size ≤ id → id < d.size → s'.colouring.colour id = c) ∧
      ∀ id : Nat, s.world.page.size ≤ id → ¬ s'.colouring.opened id := by
  refine ⟨⟨_, _, s.tinted.grow hext c hbare⟩, rfl, ?_,
    fun id hn hm => Colouring.extend_new hn hm, ?_⟩
  · refine ⟨hext.size_le, fun id hid => Colouring.extend_old hid,
      fun id => ⟨fun h => h.2, fun h => ?_⟩, fun id hid _ => hext.same id hid, fun _ hp => hp⟩
    exact ⟨s.tinted.made id (s.colouring.coloured id h), h⟩
  · intro id hid hopen
    exact absurd hopen.1 (Nat.not_lt.mpr hid)

/-- The signals changed. -/
theorem exists_onGraph {graph : SignalGraph}
    (htinted : Tinted P s.colouring { s.world with graph := graph }) :
    ∃ s' : Coloured P, s'.world = { s.world with graph := graph } ∧ Later i s s' :=
  ⟨⟨_, _, htinted⟩, rfl, Nat.le_refl _, fun _ _ => rfl, fun _ => Iff.rfl, fun _ _ _ => rfl,
    fun _ hp => hp⟩

theorem does_move {act : Page → Page} (hstays : Stays s.colouring i s.world.page (act s.world.page))
    (htinted : Tinted P s.colouring { s.world with page := act s.world.page }) :
    (regime P).Does i s (changePage act) (changePage act) fun _ _ => True := by
  refine .of_run (fun _ => rfl) fun a w' hrun => ?_
  obtain ⟨-, rfl⟩ := by simpa using (run_changePage act s.world).symm.trans hrun
  obtain ⟨s', hworld, hlater⟩ := exists_moved hstays htinted
  exact ⟨s', hworld, hlater, trivial⟩

theorem does_graph (act : SignalGraph → α × SignalGraph) {Q : α → Coloured P → Prop}
    (htinted : Tinted P s.colouring { s.world with graph := (act s.world.graph).2 })
    (hQ : ∀ s' : Coloured P, s'.world = { s.world with graph := (act s.world.graph).2 } →
      Later i s s' →
      Q (act s.world.graph).1 s') :
    (regime P).Does i s (modifyGet act) (modifyGet act) Q := by
  refine .of_run (fun _ => rfl) fun a w' hrun => ?_
  have heq : (modifyGet act : Run α) s.world =
      some ((act s.world.graph).1, { s.world with graph := (act s.world.graph).2 }) := rfl
  obtain ⟨rfl, rfl⟩ := by simpa using heq.symm.trans hrun
  obtain ⟨s', hworld, hlater⟩ := exists_onGraph htinted
  exact ⟨s', hworld, hlater, hQ s' hworld hlater⟩

theorem does_log (e : LogEntry) :
    (regime P).Does i s (log e) (log e) fun _ _ => True := by
  refine .of_run (fun _ => rfl) fun a w' hrun => ?_
  have heq : log e s.world = some ((), { s.world with log := s.world.log.push e }) := rfl
  obtain ⟨-, rfl⟩ := by simpa using heq.symm.trans hrun
  refine ⟨⟨_, _, s.tinted.onLog (s.world.log.push e)⟩, rfl, ?_, trivial⟩
  exact ⟨Nat.le_refl _, fun _ _ => rfl, fun _ => Iff.rfl, fun _ _ _ => rfl, fun _ hp => hp⟩

theorem does_create (c : Content Value Action)
    (hbare : ∀ e, c = .element e → e.properties = [] ∧ e.listeners = []) :
    (regime P).Does i s (onPage (·.create c)) (onPage (·.create c))
      fun id s' => s'.colouring.colour id = some i := by
  refine .of_run (fun _ => rfl) fun a w' hrun => ?_
  obtain ⟨rfl, rfl⟩ := by simpa using (run_onPage (·.create c) s.world).symm.trans hrun
  have hext : s.world.page.Extends (s.world.page.create c).2 := .create s.tinted.forest c
  obtain ⟨s', hworld, hlater, hcolour, -⟩ := exists_grown hext (some i) fun _ id hid e he =>
    hbare e (of_element?_create hid he)
  refine ⟨s', hworld, hlater, hcolour s.world.page.size (Nat.le_refl _) ?_⟩
  rw [size_create]
  exact Nat.lt_succ_self _

theorem does_insert {p c : NodeId} (reference : Option NodeId) (hp : s.colouring.Takes i p)
    (hc : s.colouring.colour c = some i) :
    (regime P).Does i s (changePage (·.insertBefore p c reference))
      (changePage (·.insertBefore p c reference)) fun _ _ => True := by
  have hstays : Stays s.colouring i s.world.page (s.world.page.insertBefore p c reference) :=
    .insertBefore s.tinted.sorted hp hc (fun hfragment hopen => by
      simp [s.tinted.closed c hopen] at hfragment) reference
  refine does_move hstays (s.tinted.move_alike hstays ?_ fun id => content?_insertBefore _ _ _ _ _)
  exact s.tinted.forest.insert (s.tinted.made p hp.ne_none)
    (s.tinted.made c (by simp [hc])) reference

theorem does_detach {id : NodeId} (hid : s.colouring.colour id = some i) :
    (regime P).Does i s (changePage (·.detach id)) (changePage (·.detach id)) fun _ _ => True := by
  have hstays : Stays s.colouring i s.world.page (s.world.page.detach id) :=
    .detach s.tinted.sorted hid
  exact does_move hstays (s.tinted.move_alike hstays (s.tinted.forest.detach id) fun _ =>
    content?_detach _ _ _)

theorem does_setText {id : NodeId} (hid : s.colouring.colour id = some i) (value : String) :
    (regime P).Does i s (changePage (·.setText id value)) (changePage (·.setText id value))
      fun _ _ => True := by
  have hstays : Stays s.colouring i s.world.page (s.world.page.setText id value) :=
    .setText s.tinted.sorted hid value
  refine does_move hstays (s.tinted.move hstays (s.tinted.forest.setText id value)
    (fun _ => isFragment_setText _ _ _ _) fun x j e hx he => ?_)
  rw [element?_setText] at he
  exact s.tinted.elements x j e hx he

theorem does_updateElement {id : NodeId} (hid : s.colouring.colour id = some i)
    (change : ElementState → ElementState)
    (hchange : ∀ e, ElementWithin (P.bounds s.colouring s.world i) e →
      ElementWithin (P.bounds s.colouring s.world i) (change e)) :
    (regime P).Does i s (changePage (·.updateElement id change))
      (changePage (·.updateElement id change)) fun _ _ => True := by
  have hstays : Stays s.colouring i s.world.page (s.world.page.updateElement id change) :=
    .updateElement s.tinted.sorted hid change
  refine does_move hstays (s.tinted.move hstays (s.tinted.forest.updateElement id change)
    (fun _ => isFragment_updateElement _ _ _ _) fun x j e hx he => ?_)
  obtain ⟨e', he', hsame⟩ := of_element?_updateElement he
  have hwithin := s.tinted.elements x j e' hx he'
  rcases hsame with rfl | ⟨rfl, rfl⟩
  · exact hwithin
  · obtain rfl : i = j := Option.some.inj (hid.symm.trans hx)
    exact hchange e' hwithin

/-- A copy has the colour of the code that makes it, whatever is copied. -/
theorem does_copy {root : Nat} (hroot : root < s.world.page.size) :
    (regime P).Does i s (onPage (·.copy root)) (onPage (·.copy root)) fun id s' =>
      (s'.colouring.colour id = some i ∧ ¬ s'.colouring.opened id) ∧
        ∀ x ∈ stations s'.world.page id, s'.colouring.colour x = some i := by
  refine .of_run (fun _ => rfl) fun a w' hrun => ?_
  obtain ⟨rfl, rfl⟩ := by simpa using (run_onPage (·.copy root) s.world).symm.trans hrun
  obtain ⟨t, hid, hext, hnew, -⟩ := exists_copy s.tinted.forest hroot
  obtain ⟨-, hstations⟩ := stations_copy s.tinted.forest hroot
  obtain ⟨s', hworld, hlater, hcolour, hclosed⟩ := exists_grown hext (some i) fun _ x hx e he =>
    bare_copy s.tinted.forest hroot hx he
  refine ⟨s', hworld, hlater, ⟨?_, ?_⟩, fun x hx => ?_⟩
  · rw [hid]
    exact hcolour _ (Nat.le_refl _) hnew
  · rw [hid]
    exact hclosed _ (Nat.le_refl _)
  · rw [hworld] at hx
    obtain ⟨hlow, hhigh⟩ := hstations x hx
    exact hcolour x hlow hhigh

/-- Compiling makes skeletons, which have no colour. -/
theorem does_compile {l : Literal} (hl : (P.bounds s.colouring s.world i).literal l) :
    (regime P).Does i s (compile f l) (compile f l) fun out s' => ∀ source, out = .ok source →
      (P.bounds s'.colouring s'.world i).source source := by
  obtain ⟨hknown, hbodies⟩ := hl
  refine .of_run (fun _ => rfl) fun a w' hrun => ?_
  have h := s.tinted
  have hcontent (l' : Literal) {source : Compiled} (hknown' : P.known l') (hkey : l.key = l'.key)
      (hparse : l'.parse f.config = .ok source.tree) : P.Content i source.tree.children :=
    fun e he body hbody => P.keyed i l l' hknown hknown' hkey hbodies body ⟨_, hparse, e, he, hbody⟩
  rcases compile_cases hrun with ⟨-, rfl, rfl⟩ | ⟨hlookup, rfl⟩
  · obtain ⟨hext, hsource⟩ := Setup.compile_extends f.toSetup l h.forest
    have hparse {source : Compiled} (hok : (f.compile l s.world.page).1 = .ok source) :
        l.parse f.config = .ok source.tree := (Setup.compile_spec (Prod.ext hok rfl) h.forest).1
    have hgrown := h.grow hext none fun hne => absurd rfl hne
    have hnew := hgrown.onCache ⟨(l.key, (f.compile l s.world.page).1) :: s.world.cache.entries,
      s.world.cache.parses + 1, s.world.cache.hits⟩ (fun _ hp => List.mem_cons_of_mem _ hp)
      fun key source hp => by
        rcases List.mem_cons.mp hp with heq | hp
        · obtain ⟨rfl, hok⟩ := Prod.mk.inj heq
          refine ⟨l, s.world.page, hknown, rfl, hparse hok.symm, hok.symm,
            fun slot root hroot => ?_⟩
          obtain ⟨hlow, hhigh⟩ := hsource source hok.symm slot root hroot
          exact ⟨Colouring.extend_new hlow hhigh, hhigh, rfl⟩
        · exact hgrown.cached key source hp
    refine ⟨⟨_, _, hnew⟩, rfl, ?_, fun source hok => ⟨⟨l.key, hok ▸ List.mem_cons_self⟩,
      hcontent l hknown rfl (hparse hok)⟩⟩
    refine ⟨hext.size_le, fun id hid => Colouring.extend_old hid,
      fun id => ⟨fun h => h.2, fun hid => ?_⟩, fun id hid _ => hext.same id hid,
        fun _ hp => List.mem_cons_of_mem _ hp⟩
    exact ⟨h.made id (s.colouring.coloured id hid), hid⟩
  · refine ⟨⟨_, _, h.onCache { s.world.cache with hits := s.world.cache.hits + 1 } (fun _ hp => hp)
      h.cached⟩, rfl, ?_, fun source hok => ?_⟩
    · exact ⟨Nat.le_refl _, fun _ _ => rfl, fun _ => Iff.rfl, fun _ _ _ => rfl, fun _ hp => hp⟩
    · obtain ⟨⟨key, outcome⟩, hfind, rfl⟩ := Option.map_eq_some_iff.mp hlookup
      obtain rfl : outcome = .ok source := hok
      have hp := List.mem_of_find?_eq_some hfind
      obtain rfl : key = l.key := by simpa using List.find?_some hfind
      obtain ⟨l', page, hknown', hkey, hparse, -⟩ := h.cached _ source hp
      exact ⟨⟨_, hp⟩, hcontent l' hknown' hkey.symm hparse⟩

/-- A container is of the colour `base`. -/
theorem does_container (name : String) :
    (regime P).Does i s (container name) (container name)
      fun id s' => s'.colouring.colour id = some P.base := by
  refine .of_run (fun _ => rfl) fun a w' hrun => ?_
  rcases hfind : s.world.containers.find? (·.1 == name) with _ | p
  · obtain ⟨rfl, rfl⟩ := by simpa using (run_container_new hfind).symm.trans hrun
    have hext : s.world.page.Extends (s.world.page.createElement "root" .html).2 :=
      .create s.tinted.forest _
    have hlt : s.world.page.size < (s.world.page.createElement "root" .html).2.size := by
      rw [createElement, size_create]
      exact Nat.lt_succ_self _
    have hgrown := s.tinted.grow hext (some P.base) fun _ id hid e he => by
      obtain rfl := Content.element.inj (of_element?_create hid he)
      exact ⟨rfl, rfl⟩
    have hcolour := Colouring.extend_new (g := s.colouring) (c := some P.base)
      (Nat.le_refl s.world.page.size) hlt
    have hfragment :
        (s.world.page.createElement "root" .html).2.isFragment s.world.page.size = false := by
      rw [isFragment, Document.kind, createElement, node?_create, if_pos rfl]
      rfl
    refine ⟨⟨_, _, hgrown.onContainer name hcolour hfragment⟩, rfl, ?_, hcolour⟩
    refine ⟨hext.size_le, fun id hid => Colouring.extend_old hid,
      fun id => ⟨fun h => h.2, fun hid => ?_⟩, fun id hid _ => hext.same id hid, fun _ hp => hp⟩
    exact ⟨s.tinted.made id (s.colouring.coloured id hid), hid⟩
  · obtain ⟨rfl, rfl⟩ := by simpa using (run_container_old hfind).symm.trans hrun
    exact ⟨s, rfl, .refl i s, (s.tinted.containers p (List.mem_of_find?_eq_some hfind)).1⟩

end

theorem lawful (P : Palette f ι) (hsetters : ∀ name, (f.policy.resolve name).1.setter.Honest) :
    (regime P).Lawful f where
  refl := Later.refl
  trans _ _ _ _ h h' := h.trans h'
  mono _ j _ _ h := h.bounds j
  place_mono _ s s' id h := Or.imp h.some (h.opened id).mpr
  hub_mono _ s s' id h hid := ⟨h.some hid.1, fun hopen => hid.2 ((h.opened id).mp hopen)⟩
  coherent i _ := ⟨P.parts i, P.builds i, P.assigns i⟩
  setter _ _ := hsetters
  content _ _ _ h := h.2
  component i _ nodes h e he :=
    ⟨fun e' he' body hbody => h e' (Markup.mem_elementsOfAll he he') body hbody, h e he⟩
  literal i s name values hcode := ⟨P.named name, P.literal i name values hcode⟩
  site _ _ _ h := h
  place _ _ _ h := Or.inl h
  parent _ s id p hid hp := (s.tinted.sorted.parent hp).takes hid
  fragment _ s id hid hfragment := ⟨hid, fun hopen =>
    Bool.false_ne_true ((s.tinted.closed id hopen).symm.trans hfragment)⟩
  children _ s id hid c hc := s.tinted.sorted.child_some hid.1 hid.2 hc
  log _ _ := does_log
  create _ _ := does_create
  detach _ _ _ hid := does_detach hid
  setText _ _ id value hid := does_setText hid value
  insert _ _ p c reference hp hc := does_insert reference hp hc
  apply _ _ id setter name v hsite hsetter hv :=
    does_updateElement hsite _ fun e he => hsetter _ f.config name v e hv he
  copy i s source slot root hsource hroot := by
    obtain ⟨⟨key, hcached⟩, -⟩ := hsource
    obtain ⟨l, page, -, -, -, -, hroots⟩ := s.tinted.cached key source hcached
    obtain ⟨-, hlt, -⟩ := hroots slot root hroot
    exact (does_copy hlt).weaken fun id s' _ h => ⟨h.1, fun x hx => ⟨h.2 x hx, h.2 x hx⟩⟩
  compile _ _ l hl := does_compile hl
  read i s name := by
    refine .of_run (fun _ => rfl) fun a w' hrun => ?_
    obtain ⟨rfl, rfl⟩ := by simpa using (run_readSignal name s.world).symm.trans hrun
    obtain ⟨s', hworld, hlater⟩ := exists_onGraph (s := s) (s.tinted.onGraph_alike
      (Signal.Graph.peek?_read s.world.graph name) fun j e he => s.tinted.effects j e
        (Signal.Graph.effects_read s.world.graph name ▸ he))
    exact ⟨s', hworld, hlater, s.tinted.held name i⟩
  untrack _ s := does_graph (fun g : SignalGraph => ((), g.openUntracked))
    (s.tinted.onGraph_alike (fun _ => rfl) s.tinted.effects) fun _ _ _ => trivial
  track _ s := does_graph (fun g : SignalGraph => ((), g.closeScope))
    (s.tinted.onGraph_alike (fun _ => rfl) s.tinted.effects) fun _ _ _ => trivial
  container i s name hcode := by
    obtain rfl := P.container i name hcode
    exact does_container name
  stored i s name hcode := by
    refine .of_run (fun _ => rfl) fun a w' hrun => ?_
    obtain ⟨rfl, rfl⟩ := by simpa using (run_storedValue name s.world).symm.trans hrun
    obtain rfl := P.stored i name hcode
    exact ⟨s, rfl, .refl _ s, within_storedAt fun p hfind =>
      s.tinted.stored p (List.mem_of_find?_eq_some hfind)⟩

/-! ### Runs of effects -/

section

variable {i : ι} {s : Coloured P}

/-- An effect runs in its own colour. -/
theorem effect_does (law : (regime P).Lawful f) {n : Nat}
    (hc : (regime P).Serves (machine f n) (machine f (n + 1))) {id : Nat}
    (hbody : ∀ e, s.world.graph.effects[id]? = some e →
      e.body.Within (P.bounds s.colouring s.world i)) :
    (regime P).Does i s (runEffect f (machine f n) id) (runEffect f (machine f (n + 1)) id)
      fun _ _ => True := by
  refine Regime.runEffect_does (P := fun b s =>
    b.Within (P.bounds s.colouring s.world i)) law ?_ ?_ ?_
  · exact fun s' b hb => Regime.runBinding_does law hc hb
  · refine does_graph (fun g : SignalGraph => g.start id) ?_ fun s' hworld hlater b hb => ?_
    · refine s.tinted.onGraph_alike (Signal.Graph.peek?_start s.world.graph id) fun j e he => ?_
      obtain ⟨e', he', heq⟩ := Signal.Graph.body_start he
      exact heq ▸ s.tinted.effects j e' he'
    · obtain ⟨e, he, rfl⟩ := Signal.Graph.start_body hb
      exact Binding.Within.mono (hlater.bounds i) (hbody e he)
  · intro s' b hb
    refine does_graph (fun g : SignalGraph => ((), g.finish id b)) ?_ fun _ _ _ => trivial
    refine s'.tinted.onGraph_alike (fun _ => rfl) fun j e he => ?_
    rw [Signal.Graph.effects_finish] at he
    split at he
    · obtain ⟨e', -, rfl⟩ := Option.map_eq_some_iff.mp he
      exact ⟨i, hb⟩
    · exact s'.tinted.effects j e he

/-- Writes and registrations, if effects run as they should.  What a write runs may be of any
    colour. -/
theorem runs (law : (regime P).Lawful f) {exec exec' : Nat → Run Unit}
    (h : ∀ i (s : Coloured P) id, (∀ e, s.world.graph.effects[id]? = some e →
      e.body.Within (P.bounds s.colouring s.world i)) →
      (regime P).Does i s (exec id) (exec' id) fun _ _ => True) :
    (regime P).Runs exec exec' where
  write i s name code next hcode := by
    have hloud : ¬ P.quiet i := fun hquiet => P.silent i name code next hquiet hcode
    have heffect (s : Coloured P) (id : Nat) :
        (regime P).Does i s (exec id) (exec' id) fun _ _ => True := by
      rcases he : s.world.graph.effects[id]? with _ | e
      · exact h i s id fun e he' => by simp [he] at he'
      · obtain ⟨j, hj⟩ := s.tinted.effects id e he
        refine Does.shift (h j s id fun e' he' => ?_) hloud
        exact Option.some.inj (he.symm.trans he') ▸ hj
    refine (does_graph (i := i) (fun g : SignalGraph => g.write name code) (s := s)
      (Q := fun _ _ => True) ?_ fun _ _ _ => trivial).bind law fun ids s' _ _ =>
        Regime.executeAll_does law heffect ids
    refine s.tinted.onGraph (fun x j hx => ?_) s.tinted.effects
    rw [held_write, holding]
    split
    · rename_i heq
      exact P.assigns i _ hcode (name, code) List.mem_cons_self j (heq.1 ▸ hx)
    · exact s.tinted.held x j hx
  register i s b hb := by
    refine (does_graph (i := i) (fun g : SignalGraph => g.register b) (s := s)
      (Q := fun id s' => ∀ e, s'.world.graph.effects[id]? = some e →
        e.body.Within (P.bounds s'.colouring s'.world i)) ?_ ?_).bind law fun id s' _ hid =>
          h i s' id hid
    · refine s.tinted.onGraph_alike (fun _ => rfl) fun j e he => ?_
      rw [Signal.Graph.effects_register] at he
      split at he
      · obtain rfl := Option.some.inj he
        exact ⟨i, hb⟩
      · exact s.tinted.effects j e he
    · intro s' hworld hlater e he
      obtain rfl : ⟨b, false⟩ = e := by
        rw [hworld, Signal.Graph.effects_register] at he
        exact Option.some.inj ((if_pos rfl).symm.trans he)
      exact Binding.Within.mono (hlater.bounds i) hb

/-- Whatever the renderer does, the colours are kept apart. -/
theorem serves (law : (regime P).Lawful f) (n : Nat) :
    (regime P).Serves (machine f n) (machine f (n + 1)) := by
  refine Regime.machine_serves law (runs law fun _ _ _ _ => .failure) (fun n hc => ?_) n
  exact runs law fun _ _ _ hbody => effect_does law hc hbody

end

end Coloured
end Render
end Stencil
