/-
  Stencil/Proofs/Render/Untouched.lean
  ====================================
  **Skeletons are never touched.**

  An application gets hold of nodes in many ways: they come out of a render, they are
  stored or mounted, they are held by readers, props and listeners, and from one node it
  goes on to the children and to the parent.  `World.Reaches` is all of that, the effects
  of the renderer included.  `Course` is what an application can do, one thing after the
  other.

  However it goes on, no node of a skeleton is reached.  One colour is enough to see it:
  what is reached has it, and the skeletons have not.
-/
import Stencil.Proofs.Render.Deeper
import Stencil.Proofs.Render.Sessions

namespace Stencil

open Document

/-! ### Nodes in reach -/

/-- Everything is allowed but one node. -/
def Bounds.except (id : NodeId) : Bounds :=
  { Render.Bounds.free with node := (· ≠ id), site := (· ≠ id) }

/-- The node is somewhere in the value, however deep inside. -/
def Value.Mentions (v : Value) (id : NodeId) : Prop := ¬ v.Within (.except id)

def Action.Mentions (a : Action) (id : NodeId) : Prop := ¬ a.Within (.except id)

def Render.Binding.Mentions (b : Render.Binding) (id : NodeId) : Prop := ¬ b.Within (.except id)

theorem Bounds.le_except {b : Bounds} {id : NodeId} (hnode : ¬ b.node id) (hsite : ¬ b.site id) :
    b.Le (.except id) where
  node x hx := by
    rintro rfl
    exact hnode hx
  site x hx := by
    rintro rfl
    exact hsite hx
  signal _ _ := trivial
  code _ _ := trivial
  write _ _ _ := trivial
  source _ _ := trivial
  content _ _ := trivial
  literal _ _ := trivial
  setter _ _ := trivial

namespace Render

/-- The nodes that the application, with the given values in hand, or the renderer can get hold
    of. -/
inductive World.Reaches (w : World) (hand : List Value) : NodeId → Prop where
  | hand {v : Value} {id : NodeId} (hv : v ∈ hand) (h : v.Mentions id) : w.Reaches hand id
  | stored {p : String × Value} {id : NodeId} (hp : p ∈ w.stored) (h : p.2.Mentions id) :
      w.Reaches hand id
  | container {p : String × NodeId} (hp : p ∈ w.containers) : w.Reaches hand p.2
  | effect {j : Nat} {e : Signal.Effect Binding} {id : NodeId} (he : w.graph.effects[j]? = some e)
      (h : e.body.Mentions id) : w.Reaches hand id
  | child {p c : NodeId} (hp : w.Reaches hand p) (hc : c ∈ w.page.children p) : w.Reaches hand c
  | parent {p c : NodeId} (hc : w.Reaches hand c) (hp : w.page.parent? c = some p) :
      w.Reaches hand p
  | property {x id : NodeId} {e : ElementState} {p : String × Value} (hx : w.Reaches hand x)
      (he : w.page.element? x = some e) (hp : p ∈ e.properties) (h : p.2.Mentions id) :
      w.Reaches hand id
  | listener {x id : NodeId} {e : ElementState} {l : Listener Action} (hx : w.Reaches hand x)
      (he : w.page.element? x = some e) (hl : l ∈ e.listeners) (h : l.handler.Mentions id) :
      w.Reaches hand id

/-- What the application can make values of: the nodes in reach and what has been compiled. -/
def World.grasp (w : World) (hand : List Value) : Bounds where
  node := w.Reaches hand
  site := w.Reaches hand
  signal _ := True
  code _ := True
  write _ _ := True
  source source := ∃ key, (key, Except.ok source) ∈ w.cache.entries
  content _ := True
  literal _ := True
  setter := Setter.Honest

/-- What an application does with a factory, from the beginning: it takes steps of a session,
    renders literals, reads readers and builds scripts, and has the results in hand; it mounts
    values, brings events to nodes, and works on nodes by itself. -/
inductive Course (f : Factory) (signals : List (String × Script)) : List Value → World → Prop where
  | start : Course f signals [] (World.initial signals)
  | step {hand : List Value} {w w' : World} {n : Nat} {answer : Answer}
      (h : Course f signals hand w)
      (step : Step) (hrun : perform f (machine f n) step w = some (answer, w')) :
        Course f signals hand w'
  | render {hand values : List Value} {w w' : World} {n : Nat} {out : Except TemplateError Value}
      (h : Course f signals hand w) (l : Literal) (hvalues : ∀ v ∈ values, v.Within (w.grasp hand))
      (hrun : renderLiteral f (machine f n) l values w = some (out, w')) :
      Course f signals (out.toOption.toList ++ hand) w'
  | read {hand : List Value} {w w' : World} {n : Nat} {r : Reader} {v : Value}
      (h : Course f signals hand w) (hr : r.Within (w.grasp hand))
      (hrun : (machine f n).read r w = some (v, w')) : Course f signals (v :: hand) w'
  | build {hand : List Value} {w w' : World} {n : Nat} {v : Value} (h : Course f signals hand w)
      (code : Script) (hrun : (machine f n).build none code w = some (v, w')) :
      Course f signals (v :: hand) w'
  | mount {hand : List Value} {w w' : World} {n : Nat} {parent : NodeId} {v : Value}
      (h : Course f signals hand w) (hparent : w.Reaches hand parent) (hv : v.Within (w.grasp hand))
      (hrun : Render.mount f (machine f n) parent v w = some ((), w')) : Course f signals hand w'
  | dispatch {hand : List Value} {w w' : World} {n count : Nat} {target : NodeId}
      (h : Course f signals hand w) (htarget : w.Reaches hand target) (event : String)
      (hrun : Render.dispatch (machine f n) target event w = some (count, w')) :
        Course f signals hand w'
  | operate {hand : List Value} {w : World} (h : Course f signals hand w)
      (o : Operation Value Action)
      (ho : OperationWithin (w.grasp hand) o) :
      Course f signals (madeBy w.page o ++ hand) { w with page := o.apply w.page }

/-! ### What is reached has a colour -/

section

variable {ι : Type} {f : Factory} {P : Palette f ι} {g : Colouring ι} {w : World} {i : ι}
  {id : NodeId}

theorem colour_of_value {v : Value} (h : v.Mentions id) (hv : v.Within (P.bounds g w i)) :
    g.colour id = some i := by
  by_contra hno
  exact h (hv.mono (Bounds.le_except hno hno))

theorem colour_of_action {a : Action} (h : a.Mentions id) (ha : a.Within (P.bounds g w i)) :
    g.colour id = some i := by
  by_contra hno
  exact h (ha.mono (Bounds.le_except hno hno))

theorem colour_of_binding {b : Binding} (h : b.Mentions id) (hb : b.Within (P.bounds g w i)) :
    g.colour id = some i := by
  by_contra hno
  exact h (Binding.Within.mono (Bounds.le_except hno hno) hb)

theorem Tinted.reaches (h : Tinted P g w) {hand : List Value}
    (hhand : ∀ v ∈ hand, ∃ i, v.Within (P.bounds g w i)) (hid : w.Reaches hand id) :
    g.colour id ≠ none := by
  have hsome {id : NodeId} {i : ι} (h : g.colour id = some i) : g.colour id ≠ none := by simp [h]
  induction hid with
  | hand hv hm =>
    obtain ⟨i, hwithin⟩ := hhand _ hv
    exact hsome (colour_of_value hm hwithin)
  | stored hp hm => exact hsome (colour_of_value hm (h.stored _ hp))
  | container hp => exact hsome (h.containers _ hp).1
  | effect he hm =>
    obtain ⟨i, hwithin⟩ := h.effects _ _ he
    exact hsome (colour_of_binding hm hwithin)
  | child _ hc ih => exact h.ne_none_of_child ih hc
  | parent _ hp ih => exact h.ne_none_of_parent ih hp
  | property _ he hp hm ih =>
    obtain ⟨j, hj⟩ := Option.ne_none_iff_exists'.mp ih
    exact hsome (colour_of_value hm ((h.elements _ j _ hj he).1 _ hp))
  | listener _ he hl hm ih =>
    obtain ⟨j, hj⟩ := Option.ne_none_iff_exists'.mp ih
    exact hsome (colour_of_action hm ((h.elements _ j _ hj he).2 _ hl))

/-- Nothing has a colour when there are no nodes. -/
theorem Tinted.initial {signals : List (String × Script)}
    (h : ∀ name i, P.signal i name → P.code i ((World.initial signals).held name)) :
    Tinted P ⟨fun _ => none, fun _ => False, fun _ h => h.elim⟩ (World.initial signals) where
  forest := isForest_empty
  sorted x n hn := by simp [World.initial, node?, Document.empty] at hn
  made _ hid := absurd rfl hid
  closed _ hid := hid.elim
  held := h
  elements _ _ _ hid := by cases hid
  effects j e he := by simp [World.initial, Signal.Graph.ofValues] at he
  stored p hp := absurd hp List.not_mem_nil
  containers p hp := absurd hp List.not_mem_nil
  cached key source hp := absurd hp List.not_mem_nil

/-- A skeleton of a compiled literal has no colour, down to its last node. -/
theorem Tinted.skeleton (h : Tinted P g w) {key : Option String} {source : Compiled}
    (hcached : (key, .ok source) ∈ w.cache.entries) {slot : Nat} {root : Nat}
    (hroot : source.skeleton? slot = some root) : ∀ x ∈ w.page.subtree root, g.colour x = none := by
  obtain ⟨l, page, -, -, -, -, hroots⟩ := h.cached key source hcached
  obtain ⟨hnone, hlt, -⟩ := hroots slot root hroot
  obtain ⟨t, rfl, hstand⟩ := h.forest.exists_stands hlt
  have hids := hstand.alone.colour_none h.sorted (List.forall_mem_singleton.mpr hnone)
  rw [hstand.subtree_eq h.forest]
  rwa [Plant.idsAll_single] at hids

end

/-! ### One colour -/

/-- One colour for everything. -/
def Palette.whole (f : Factory) : Palette f Unit where
  base := ()
  code _ _ := True
  signal _ _ := True
  quiet _ := False
  known _ := True
  parts _ _ _ _ _ := trivial
  builds _ _ _ _ _ := trivial
  assigns _ _ _ _ _ _ _ := trivial
  loud h := h
  silent _ _ _ _ h := h.elim
  sets _ _ _ := trivial
  container _ _ _ := rfl
  stored _ _ _ := rfl
  components _ _ _ := trivial
  named _ := trivial
  literal _ _ _ _ _ _ := trivial
  keyed _ _ _ _ _ _ _ _ _ := trivial

section

variable {f : Factory} {signals : List (String × Script)} {hand : List Value} {w w' : World}

/-- What is in reach has the one colour. -/
theorem grasp_le {s : Coloured (Palette.whole f)}
    (hhand : ∀ v ∈ hand, v.Within ((Palette.whole f).bounds s.colouring s.world ())) :
    (s.world.grasp hand).Le ((Palette.whole f).bounds s.colouring s.world ()) := by
  have hnode (id : NodeId) (hid : s.world.Reaches hand id) : s.colouring.colour id = some () := by
    obtain ⟨⟨⟩, hsome⟩ := Option.ne_none_iff_exists'.mp
      (s.tinted.reaches (fun v hv => ⟨(), hhand v hv⟩) hid)
    exact hsome
  exact {
    node := hnode
    site := hnode
    signal := fun _ h => h
    code := fun _ h => h
    write := fun _ _ _ _ _ => trivial
    source := fun _ h => ⟨h, fun _ _ _ _ => trivial⟩
    content := fun _ _ _ _ _ _ => trivial
    literal := fun _ _ => ⟨trivial, fun _ _ => trivial⟩
    setter := fun _ h => h }

/-- However an application goes on, its world has a colour for all that is in reach. -/
theorem Course.exists_coloured (hsetters : ∀ name, (f.policy.resolve name).1.setter.Honest)
    (h : Course f signals hand w) :
    ∃ s : Coloured (Palette.whole f), s.world = w ∧
      ∀ v ∈ hand, v.Within ((Palette.whole f).bounds s.colouring s.world ()) := by
  have law : (Coloured.regime (Palette.whole f)).Lawful f :=
    Coloured.lawful _ hsetters
  have hserves := Coloured.serves law
  -- what is in hand stays in hand
  have hkeep {s s' : Coloured (Palette.whole f)} {hand : List Value}
      (hlater : Coloured.Later () s s')
      (hhand : ∀ v ∈ hand, v.Within ((Palette.whole f).bounds s.colouring s.world ())) :
      ∀ v ∈ hand, v.Within ((Palette.whole f).bounds s'.colouring s'.world ()) :=
    fun v hv => (hhand v hv).mono (hlater.bounds ())
  induction h with
  | start =>
    exact ⟨⟨_, _, .initial fun _ _ _ => trivial⟩, rfl, fun v hv => absurd hv List.not_mem_nil⟩
  | @step hand w w' n answer _ step hrun ih =>
    obtain ⟨s, rfl, hhand⟩ := ih
    have hstep : (Palette.whole f).Allows step := by
      cases step <;> simp [Palette.Allows, Palette.whole]
    obtain ⟨s', hworld, hlater, -⟩ :=
      (Coloured.perform_does law (hserves n) hstep).exists_next hrun
    exact ⟨s', hworld, hkeep hlater hhand⟩
  | @render hand values w w' n out _ l hvalues hrun ih =>
    obtain ⟨s, rfl, hhand⟩ := ih
    have hdoes :=
      Regime.renderLiteral_does (G := Coloured.regime (Palette.whole f)) (k := ()) (s := s) law
      (hserves n) (fun v hv => (hvalues v hv).mono (grasp_le hhand)) (l := l) ⟨trivial,
        fun _ _ => trivial⟩
    obtain ⟨s', hworld, hlater, hout⟩ := hdoes.exists_next hrun
    refine ⟨s', hworld, List.forall_mem_append.mpr ⟨fun v hv => ?_, hkeep hlater hhand⟩⟩
    cases out with
    | error e => cases hv
    | ok u =>
      obtain rfl := List.mem_singleton.mp hv
      exact hout v rfl
  | @read hand w w' n r v _ hr hrun ih =>
    obtain ⟨s, rfl, hhand⟩ := ih
    obtain ⟨s', hworld, hlater, hv⟩ :=
      ((hserves n).read () s r (hr.mono (grasp_le hhand))).exists_next hrun
    exact ⟨s', hworld, List.forall_mem_cons.mpr ⟨hv, hkeep hlater hhand⟩⟩
  | @build hand w w' n v _ code hrun ih =>
    obtain ⟨s, rfl, hhand⟩ := ih
    obtain ⟨s', hworld, hlater, hv⟩ :=
      ((hserves n).build () s none code (fun ps hps => by cases hps) trivial).exists_next hrun
    exact ⟨s', hworld, List.forall_mem_cons.mpr ⟨hv, hkeep hlater hhand⟩⟩
  | @mount hand w w' n parent v _ hparent hv hrun ih =>
    obtain ⟨s, rfl, hhand⟩ := ih
    have hle := grasp_le hhand
    have hdoes := Regime.mount_does (G := Coloured.regime (Palette.whole f)) (k := ()) (s := s) law
      (hserves n) (Or.inl (hle.node _ hparent)) (hv.mono hle)
    obtain ⟨s', hworld, hlater, -⟩ := hdoes.exists_next hrun
    exact ⟨s', hworld, hkeep hlater hhand⟩
  | @dispatch hand w w' n count target _ htarget event hrun ih =>
    obtain ⟨s, rfl, hhand⟩ := ih
    have htarget' := s.tinted.reaches (fun v hv => ⟨(), hhand v hv⟩) htarget
    obtain ⟨s', hworld, hlater, -⟩ :=
      (Coloured.dispatch_does law (hserves n) htarget' event).exists_next hrun
    exact ⟨s', hworld, hkeep hlater hhand⟩
  | @operate hand w _ o ho ih =>
    obtain ⟨s, rfl, hhand⟩ := ih
    obtain ⟨s', hworld, hlater, hmade⟩ := Coloured.operate_does (i := ()) (ho.mono (grasp_le hhand))
    exact ⟨s', hworld, List.forall_mem_append.mpr ⟨hmade, hkeep hlater hhand⟩⟩

/-- No node of a skeleton is ever in reach, and its tree is the one that compiling made. -/
theorem Course.skeleton (hsetters : ∀ name, (f.policy.resolve name).1.setter.Honest)
    (h : Course f signals hand w) {key : Option String} {source : Compiled}
    (hcached : (key, .ok source) ∈ w.cache.entries) {slot root : Nat}
    (hroot : source.skeleton? slot = some root) :
    (∀ x ∈ w.page.subtree root, ¬ w.Reaches hand x) ∧
      ∃ l page, l.key = key ∧ (f.compile l page).1 = .ok source ∧
        w.page.tree root = (f.compile l page).2.tree root := by
  obtain ⟨s, rfl, hhand⟩ := h.exists_coloured hsetters
  refine ⟨fun x hx hreach => ?_, ?_⟩
  · exact s.tinted.reaches (fun v hv => ⟨(), hhand v hv⟩) hreach
      (s.tinted.skeleton hcached hroot x hx)
  · obtain ⟨l, page, -, hkey, -, hcompile, hroots⟩ := s.tinted.cached key source hcached
    exact ⟨l, page, hkey, hcompile, (hroots slot root hroot).2.2⟩

end

end Render
end Stencil
