/-
  Stencil/Proofs/Render/Supplied.lean
  ===================================
  **Three ways to supply an attribute.**

  The value of an attribute may be written at the attribute, it may come with a spread, and
  it may come with a spread that is a reader.  The first two are the same at any time.  The
  third applies the value in the run of an effect, and reads it before: there is no test
  whether the rule for the name wants the reader itself.

  So the third way leads to what the others lead to, unless the value is a reader that the rule
  wants to have (`renderContainer_supplied`).  Such a reader is kept by the first two and read by
  the third.

  That an effect is running, or that there are two of them, does not show on the page or in the
  log; this is what `Stencil.Proofs.Render.Veiled` is for.
-/
import Stencil.Render.Session
import Stencil.Proofs.Render.Around
import Stencil.Proofs.Render.Replace
import Stencil.Proofs.Render.Veiled

namespace Stencil.Render

open Markup (Attr Node Tag)

variable {α β : Type} {f : Factory} {w w' w₁ : World}

/-! ### The same outcome -/

/-- The worlds are the same but for the effects, and for who watches the signals. -/
structure World.Resembles (w w' : World) : Prop where
  rest : w' = { w with graph := w'.graph }
  signals : ∀ x, w'.graph.peek? x = w.graph.peek? x

namespace World.Resembles

theorem refl (w : World) : w.Resembles w := ⟨rfl, fun _ => rfl⟩

theorem symm (h : w.Resembles w') : w'.Resembles w where
  rest := by rw [h.rest]
  signals x := (h.signals x).symm

theorem trans (h : w.Resembles w₁) (h' : w₁.Resembles w') : w.Resembles w' where
  rest := by rw [h'.rest, h.rest]
  signals x := (h'.signals x).trans (h.signals x)

theorem page (h : w.Resembles w') : w'.page = w.page := by rw [h.rest]

end World.Resembles

theorem World.Alike.resembles {v v' : Signal.Veil} (h : w.Alike v v' w') : w.Resembles w' where
  rest := h.rest
  signals x := (h.graph.peek? x).symm

/-- Whatever the first way leads to from `w`, the second leads to from `w'`, if it may go deep
    enough: the answers are equal, and the worlds resemble each other. -/
def Leads (f : Factory) (w w' : World) (way way' : Calls → Run α) : Prop :=
  ∀ n a w₁, way (machine f n) w = some (a, w₁) →
    ∃ m w₂, way' (machine f m) w' = some (a, w₂) ∧ w₁.Resembles w₂

/-- A result at one depth is the result at the next. -/
def Deepens (f : Factory) (way : Calls → Run α) : Prop :=
  ∀ n w, Regime.free.Does () w (way (machine f n)) (way (machine f (n + 1))) fun _ _ => True

/-- Both ways lead to the same, or to nothing at any depth. -/
structure Agree (f : Factory) (w w' : World) (way way' : Calls → Run α) : Prop where
  forth : Leads f w w' way way'
  back : Leads f w' w way' way

section

variable {way way' way₁ : Calls → Run α}

theorem Leads.trans (h : Leads f w w₁ way way₁) (h' : Leads f w₁ w' way₁ way') :
    Leads f w w' way way' := by
  intro n a u hrun
  obtain ⟨m, u₁, hrun₁, hu₁⟩ := h n a u hrun
  obtain ⟨k, u₂, hrun₂, hu₂⟩ := h' m a u₁ hrun₁
  exact ⟨k, u₂, hrun₂, hu₁.trans hu₂⟩

theorem Leads.of_eq (h : ∀ c, way c w = way' c w') : Leads f w w' way way' :=
  fun n _ u hrun => ⟨n, u, (h (machine f n)).symm.trans hrun, .refl u⟩

namespace Agree

theorem symm (h : Agree f w w' way way') : Agree f w' w way' way := ⟨h.back, h.forth⟩

theorem trans (h : Agree f w w₁ way way₁) (h' : Agree f w₁ w' way₁ way') : Agree f w w' way way' :=
  ⟨h.forth.trans h'.forth, h'.back.trans h.back⟩

theorem of_eq (h : ∀ c, way c w = way' c w') : Agree f w w' way way' :=
  ⟨.of_eq h, .of_eq fun c => (h c).symm⟩

/-- It is enough that the ways are the same from some depth on. -/
theorem of_late {m : Nat} (hway : Deepens f way) (hway' : Deepens f way')
    (h : ∀ n, m ≤ n → way (machine f n) w = way' (machine f n) w') : Agree f w w' way way' where
  forth n a u hrun := by
    have hlate := machine_le way (Nat.le_max_left n m) hway hrun
    exact ⟨max n m, u, (h _ (Nat.le_max_right n m)).symm.trans hlate, .refl u⟩
  back n a u hrun := by
    have hlate := machine_le way' (Nat.le_max_left n m) hway' hrun
    exact ⟨max n m, u, (h _ (Nat.le_max_right n m)).trans hlate, .refl u⟩

end Agree

end

/-! ### A value read and applied -/

/-- A value read until it is no reader, and applied under a name. -/
def supply (f : Factory) (c : Calls) (id : NodeId) (name : String) (v : Value) : Run Unit := do
  let u ← c.resolve v
  applySetter f c id (f.policy.resolve name).1.setter (f.policy.resolve name).2 u

section

variable {id : NodeId} {name : String} {v : Value} {n m : Nat}

theorem supply_does {G : Regime} (law : G.Lawful f) {c c' : Calls} (hc : G.Serves c c') {k : G.Kind}
    {s : G.State} (hsite : (G.bounds k s).site id) (hv : v.Within (G.bounds k s)) :
    G.Does k s (supply f c id name v) (supply f c' id name v) fun _ _ => True := by
  refine (hc.resolve k s v hv).bind law fun u s₁ hnext hu => ?_
  have hsite₁ := (law.mono k k s s₁ hnext).site _ hsite
  exact Regime.applySetter_does law hc (law.site k s₁ id hsite₁)
    (Regime.writable_of_site law hsite₁ (law.setter k s₁ name) _) hu

theorem deepens_supply (f : Factory) (id : NodeId) (name : String) (v : Value) :
    Deepens f fun c => supply f c id name v :=
  fun n _ => supply_does (Regime.lawful_free f) (Regime.serves_free f n) trivial
    (Regime.within_free v)

theorem deepens_applySetter (f : Factory) (id : NodeId) (setter : Setter) (name : String)
    (v : Value) :
    Deepens f fun c => applySetter f c id setter name v :=
  fun n _ => Regime.applySetter_does (Regime.lawful_free f) (Regime.serves_free f n) trivial
    (Regime.writable_of_site (Regime.lawful_free f) trivial trivial _) (Regime.within_free v)

/-- A value is read and applied in the same way whatever is running. -/
theorem supply_agree {veil veil' : Signal.Veil} (h : w.Alike veil veil' w') :
    Agree f w w' (fun c => supply f c id name v) fun c => supply f c id name v := by
  have hleads {veil veil' : Signal.Veil} {w w' : World} (h : w.Alike veil veil' w') :
      Leads f w w' (fun c => supply f c id name v) fun c => supply f c id name v := by
    intro n a w₁ hrun
    have hdoes : (veiledRegime veil veil').Does () ⟨(w, w'), h⟩ (supply f (machine f n) id name v)
        (supply f (machine f (n + 1)) id name v) fun _ _ => True :=
      supply_does (Veiled.lawful f veil veil') (Veiled.serves f veil veil' n) trivial
        (Regime.within_free v)
    obtain ⟨s', hrun', rfl, -, -⟩ := hdoes a w₁ hrun
    exact ⟨n + 1, s'.1.2, hrun', s'.2.resembles⟩
  exact ⟨hleads h, hleads h.symm⟩

/-- What is no reader is applied as it is. -/
theorem applySetter_agree (hstill : v.isReactive = false) :
    Agree f w w
      (fun c => applySetter f c id (f.policy.resolve name).1.setter (f.policy.resolve name).2 v)
      fun c => supply f c id name v := by
  refine .of_late (m := 1) (deepens_applySetter f id _ _ v) (deepens_supply f id name v)
    fun n hn => ?_
  rw [supply, run_bind (resolve_plain f hn hstill w)]

end

/-! ### Bindings -/

section

variable {b : Binding} {id : NodeId} {name : String} {v : Value} {r : Reader} {e : Entry}

theorem discard_eq (act : Run α) : discard act = act >>= fun _ => pure () :=
  map_eq_pure_bind _ act

theorem deepens_runBinding (f : Factory) (b : Binding) :
    Deepens f fun c => runBinding f c b >>= fun _ => pure () :=
  fun n _ => (Regime.runBinding_does (Regime.lawful_free f) (Regime.serves_free f n)
    (Regime.within_free_binding b)).bind (Regime.lawful_free f) fun _ _ _ _ =>
      .pure (Regime.lawful_free f) trivial

/-- A new effect is a run of its binding in a world where it is running. -/
theorem newBinding_started (htracking : f.tracking = true) {g : SignalGraph}
    (hstart : (w.graph.register b).2.start w.graph.effects.size = (some b, g)) (n : Nat) :
    newBinding f (machine f (n + 1)) b w =
      (runBinding f (machine f n) b >>= fun b' =>
        modify fun g : SignalGraph => g.finish w.graph.effects.size b') { w with graph := g } := by
  rw [newBinding, if_pos htracking]
  have hopen :
      (modifyGet fun g : SignalGraph => g.start w.graph.effects.size : Run (Option Binding))
      { w with graph := (w.graph.register b).2 } = some (some b, { w with graph := g }) := by
    change some (((w.graph.register b).2.start _).1,
      { w with graph := ((w.graph.register b).2.start _).2 }) = _
    rw [hstart]
  have heffect : (machine f (n + 1)).effect w.graph.effects.size
      { w with graph := (w.graph.register b).2 } = _ := run_bind hopen _
  exact heffect

theorem resembles_finish (w : World) (i : Nat) (b : Binding) :
    w.Resembles { w with graph := w.graph.finish i b } := ⟨rfl, fun _ => rfl⟩

/-- A new binding comes to what its first run comes to, in a world that is the same but for what is
    running, and in which readings leave no trace that could be noticed. -/
theorem newBinding_agree (f : Factory) (horderly : w.graph.Orderly) (b : Binding) :
    ∃ veil w₀, w.Alike w.graph.busy veil w₀ ∧ w₀.graph.observer?.bind veil.seen? = none ∧
      Agree f w w₀ (fun c => newBinding f c b) fun c => runBinding f c b >>= fun _ => pure () := by
  by_cases htracking : f.tracking = true
  · obtain ⟨g, hstart, halike, hobserver⟩ := horderly.alike_started b
    refine ⟨w.graph.busier, { w with graph := g }, ⟨halike, rfl⟩, hobserver, ?_, ?_⟩
    · -- one level is spent on the effect
      intro n a w₁ hrun
      cases n with
      | zero =>
        have hnone : newBinding f (machine f 0) b w = none := newBinding_eq htracking _ b w
        exact absurd (hnone.symm.trans hrun) nofun
      | succ n =>
        obtain ⟨b', w₂, hfirst, hlast⟩ :=
          run_of_bind ((newBinding_started htracking hstart n).symm.trans hrun)
        obtain ⟨-, rfl⟩ := Prod.mk.inj (Option.some.inj hlast)
        exact ⟨n, w₂, run_bind hfirst _, (resembles_finish w₂ _ b').symm⟩
    · intro n a w₁ hrun
      obtain ⟨b', w₂, hfirst, hlast⟩ := run_of_bind hrun
      obtain ⟨-, rfl⟩ := Prod.mk.inj (Option.some.inj hlast)
      refine ⟨n + 1, _, ?_, resembles_finish w₂ w.graph.effects.size b'⟩
      exact (newBinding_started htracking hstart n).trans (run_bind hfirst _)
  · -- nothing is registered, and the binding is run as it is
    refine ⟨w.graph.busy, w, ⟨w.graph.alike_self, rfl⟩, horderly.observer?, .of_eq fun c => ?_⟩
    rw [newBinding, if_neg htracking, discard_eq]

theorem runBinding_attribute (hlive : w.live = true) (c : Calls) :
    (runBinding f c (.attribute id (f.policy.resolve name).1.setter (f.policy.resolve name).2 r) >>=
      fun _ =>
      pure ()) w = supply f c id name (.reactive r) w := by
  have hget : (getThe World : Run World) w = some (w, w) := rfl
  rw [runBinding, bind_assoc, run_bind hget, hlive, supply]
  simp only [Bool.not_true, Bool.false_eq_true, if_false, bind_assoc, pure_bind, bind_pure_unit]

theorem runBinding_spread (hlive : w.live = true) (c : Calls) (shadowed : List String) :
    (runBinding f c (.spread id shadowed r) >>= fun _ => pure ()) w =
    (c.resolve (.reactive r) >>= fun u =>
      match u with
      | .spread ps => applyEntries f c id shadowed ps
      | _ => pure ()) w := by
  have hget : (getThe World : Run World) w = some (w, w) := rfl
  rw [runBinding, bind_assoc, run_bind hget, hlive]
  simp only [Bool.not_true, Bool.false_eq_true, if_false, bind_assoc]
  refine congrFun (bind_congr fun u => ?_) w
  cases u <;> simp only [bind_assoc, pure_bind, bind_pure_unit]

theorem applyEntries_single (c : Calls) (he : e.toValue = v) :
    applyEntries f c id [] [(name, e)] = supply f c id name v := by
  rw [applyEntries, if_neg (by simp [isShadowed]), he]
  simp only [applyEntries, bind_pure_unit]
  rfl

/-- Where the signals hold `σ`, the reader yields these entries, and all that it does is to read
    signals. -/
def Provides (f : Factory) (σ : String → Script) (r : Reader) (ps : Props) : Prop :=
  ∃ m names, ∀ w : World, w.held = σ →
    (machine f m).resolve (.reactive r) w = some
    (.spread ps, { w with graph := w.graph.readAll names })

/-- A spread that is a reader comes to its only entry, read and applied. -/
theorem bindSpread_agree (horderly : w.graph.Orderly) (hlive : w.live = true)
    (hprovides : Provides f w.held r [(name, e)]) (he : e.toValue = v) :
    Agree f w w (fun c => bindSpread f c id [] (.reactive r)) fun c => supply f c id name v := by
  obtain ⟨veil, w₀, halike, hobserver, hagree⟩ := newBinding_agree f horderly (.spread id [] r)
  obtain ⟨m, names, hread⟩ := hprovides
  have hheld : w₀.held = w.held := by
    funext x
    rw [World.held, World.held, halike.graph.peek?]
  have hlive₀ : w₀.live = true := by rw [halike.rest, hlive]
  obtain ⟨w₁, hw₁⟩ : ∃ w₁ : World, w₁ = { w₀ with graph := w₀.graph.readAll names } := ⟨_, rfl⟩
  have hread₀ : (machine f m).resolve (.reactive r) w₀ = some (.spread [(name, e)], w₁) :=
    hw₁ ▸ hread w₀ hheld
  -- what is read counts for the effect that is running
  have halike₁ : w.Alike w.graph.busy veil w₁ := by
    refine ⟨hw₁ ▸ halike.graph.readAll_right hobserver names, ?_⟩
    rw [hw₁, halike.rest]
  have hrun {n : Nat} (hn : m ≤ n) :
      (runBinding f (machine f n) (.spread id [] r) >>= fun _ => pure ()) w₀ =
      supply f (machine f n) id name v w₁ := by
    rw [runBinding_spread hlive₀, run_bind (resolve_le hn hread₀)]
    exact congrFun (applyEntries_single _ he) w₁
  exact hagree.trans
    ((Agree.of_late (deepens_runBinding f _) (deepens_supply f id name v) fun _ => hrun).trans
    (supply_agree halike₁).symm)

/-- A reader that the rule wants for itself is handed over, and that is all. -/
theorem bindValue_kept (hkeeps : (f.policy.resolve name).1.reactive = false)
    (hreactive : v.isReactive = true) (c : Calls) :
    bindValue f c id name v =
      changePage (·.updateElement id ((f.policy.resolve name).1.setter.write f.config
        (f.policy.resolve name).2 v)) := by
  obtain ⟨r, rfl⟩ := exists_reader hreactive
  have hnone : (f.policy.resolve name).1.setter.callback? (.reactive r) = none := by
    cases (f.policy.resolve name).1.setter <;> rfl
  simp only [bindValue, hkeeps, applySetter, hnone, bind_pure_unit]

/-- A value that is written at its name is read and applied, unless the rule wants the reader
    itself. -/
theorem bindValue_agree (horderly : w.graph.Orderly) (hlive : w.live = true)
    (hread : v.isReactive = true → (f.policy.resolve name).1.reactive = true) :
    Agree f w w (fun c => bindValue f c id name v) fun c => supply f c id name v := by
  rcases hreactive : v.isReactive with _ | _
  · refine Agree.trans (.of_eq fun c => ?_) (applySetter_agree hreactive)
    cases v <;> first | rfl | cases hreactive
  · obtain ⟨r, rfl⟩ := exists_reader hreactive
    obtain ⟨veil, w₀, halike, -, hagree⟩ := newBinding_agree f horderly
      (.attribute id (f.policy.resolve name).1.setter (f.policy.resolve name).2 r)
    have hlive₀ : w₀.live = true := by rw [halike.rest, hlive]
    refine Agree.trans (.of_eq fun c => ?_) (hagree.trans
      (Agree.trans (.of_eq (runBinding_attribute hlive₀)) (supply_agree halike).symm))
    simp only [bindValue, hread hreactive]

end

/-! ### An element with one attribute -/

/-- The literal is one element with one attribute and nothing in it, and has a skeleton. -/
structure Lone (f : Factory) (source : Compiled) (slot : Nat) (root : NodeId) (tag : Tag)
    (a : Attr) : Prop where
  skeleton : source.skeleton? slot = some root
  plain : f.registry.isComponent tag = false
  attrs : tag.attrs = [a]

/-- Something done to a node, if there is one. -/
def onSome (act : NodeId → Run Unit) : Option NodeId → Run Unit
  | some id => act id
  | none => pure ()

/-- A skeleton copied, and something done to the first element of the copy. -/
def onCopy (root : NodeId) (act : NodeId → Run Unit) : Run Value := do
  let top ← onPage (·.copy root)
  let d ← page
  onSome act (stations d top).head?
  let d ← page
  pure (Value.ofList ((d.children top).map Value.node))

section

variable {id root : NodeId} {slot : Nat} {tag : Tag} {a : Attr} {source : Compiled}
  {values : List Value}

theorem bindTag_single (c : Calls) (hattrs : tag.attrs = [a])
    (ha : a.isPrebound f.policy false = false) :
    bindTag f c values id tag = bindAttr f c values id [] a := by
  rw [bindTag, hattrs, Markup.markPrebound, ha]
  simp only [Markup.markPrebound, bindAttrs, List.filterMap_nil, Bool.false_eq_true, if_false,
    bind_pure_unit]

/-- What is rendered is a copy of the skeleton with the attribute bound. -/
theorem renderContainer_lone (h : Lone f source slot root tag a)
    (ha : a.isPrebound f.policy false = false) (c : Calls) :
    renderContainer f c source values slot [.element tag []] =
      onCopy root fun id => bindAttr f c values id [] a := by
  funext w
  have hpoints : pointsOfAll f [.element tag []] = [.element tag] := by
    simp [pointsOfAll, pointsOf, h.plain]
  rw [run_renderContainer w h.skeleton, onCopy, run_bind (run_onPage _ w), run_bind (run_page _),
    places, hpoints]
  rcases stations (w.page.copy root).2 (w.page.copy root).1 with _ | ⟨id, ids⟩
  · rfl
  · simp only [List.zip_cons_cons, List.zip_nil_left, List.head?_cons, bindPoints, bindPoint,
      bind_pure_unit, bindTag_single c h.attrs ha, onSome]

theorem onCopy_leads {act act' : NodeId → Calls → Run Unit}
    (h : ∀ id d, Leads f { w with page := d } { w with page := d } (act id) (act' id)) :
    Leads f w w (fun c => onCopy root fun id => act id c) fun c =>
      onCopy root fun id => act' id c := by
  obtain ⟨top, d, hcopy⟩ : ∃ top d, w.page.copy root = (top, d) := ⟨_, _, rfl⟩
  have hsplit (act : NodeId → Run Unit) : onCopy root act w =
      (onSome act (stations d top).head? >>= fun _ => page >>= fun d' =>
        pure (Value.ofList ((d'.children top).map Value.node))) { w with page := d } := by
    have hmake : onPage (·.copy root) w = some (top, { w with page := d }) := by
      rw [run_onPage, hcopy]
    rw [onCopy, run_bind hmake, run_bind (run_page _)]
  have hsome : Leads f { w with page := d } { w with page := d }
      (fun c => onSome (fun id => act id c) (stations d top).head?)
      fun c => onSome (fun id => act' id c) (stations d top).head? := by
    rcases (stations d top).head? with _ | id
    · exact .of_eq fun _ => rfl
    · exact h id d
  intro n a u hrun
  obtain ⟨⟨⟩, w₁, hact, hrest⟩ := run_of_bind ((hsplit _).symm.trans hrun)
  obtain ⟨rfl, rfl⟩ : Value.ofList ((w₁.page.children top).map Value.node) = a ∧ w₁ = u := by
    simpa using Option.some.inj hrest
  obtain ⟨m, w₂, hact', hsame⟩ := hsome n () w₁ hact
  refine ⟨m, w₂, (hsplit _).trans ?_, hsame⟩
  rw [run_bind hact', run_bind (run_page w₂), hsame.page]
  rfl

theorem onCopy_agree {act act' : NodeId → Calls → Run Unit}
    (h : ∀ id d, Agree f { w with page := d } { w with page := d } (act id) (act' id)) :
    Agree f w w (fun c => onCopy root fun id => act id c) fun c =>
      onCopy root fun id => act' id c :=
  ⟨onCopy_leads fun id d => (h id d).forth, onCopy_leads fun id d => (h id d).back⟩

/-- **Three ways to supply an attribute.**  An element has a value `v` written at a name, or a
    spread of just this name and value, or a spread that is a reader and yields them.  The first two
    are rendered in the same way; if `v` is a reader and the rule for the name does not want it
    read, it is handed over as it is, and nothing is read or called.  The third comes to the same as
    the first two unless `v` is such a reader, and in any case to what comes of reading `v` and
    applying the result: so a reader that the rule wants for itself is read. -/
theorem renderContainer_supplied {explicit spread reader : Compiled} {slot : Nat} {root : NodeId}
    {tag tag' tag'' : Tag} {name : String} {quote : Option Markup.Quote} {i j k : Nat}
    {values : List Value} {v : Value} {e : Entry} {r : Reader}
    (hlive : w.live = true) (horderly : w.graph.Orderly)
    (hexplicit : Lone f explicit slot root tag (.dynamic name i quote)) (hi : valueAt values i = v)
    (hspread : Lone f spread slot root tag' (.spread j))
    (hj : valueAt values j = .spread [(name, e)]) (he : e.toValue = v)
    (hreader : Lone f reader slot root tag'' (.spread k)) (hk : valueAt values k = .reactive r)
    (hprovides : Provides f w.held r [(name, e)]) :
    (∀ c, renderContainer f c explicit values slot [.element tag []] =
      renderContainer f c spread values slot [.element tag' []]) ∧
    ((f.policy.resolve name).1.reactive = false → v.isReactive = true → ∀ c,
      renderContainer f c explicit values slot [.element tag []] = onCopy root fun id =>
        changePage (·.updateElement id ((f.policy.resolve name).1.setter.write f.config
          (f.policy.resolve name).2 v))) ∧
    ((v.isReactive = true → (f.policy.resolve name).1.reactive = true) →
      Agree f w w (fun c => renderContainer f c explicit values slot [.element tag []])
        fun c => renderContainer f c reader values slot [.element tag'' []]) ∧
    Agree f w w (fun c => renderContainer f c reader values slot [.element tag'' []])
      fun c => onCopy root fun id => supply f c id name v := by
  -- each of the three is a copy of the skeleton and the binding of one value
  have hcontainer (c : Calls) : renderContainer f c explicit values slot [.element tag []] =
      onCopy root fun id => bindValue f c id name v := by
    rw [renderContainer_lone hexplicit rfl, ← hi]
    rfl
  have hcontainer' (c : Calls) : renderContainer f c spread values slot [.element tag' []] =
      onCopy root fun id => bindValue f c id name v := by
    rw [renderContainer_lone hspread rfl]
    congr 1
    funext id
    rw [bindAttr, hj, bindSpread, bindEntries, if_neg (by simp [isShadowed]), he]
    simp only [bindEntries, bind_pure_unit]
  have hcontainer'' (c : Calls) : renderContainer f c reader values slot [.element tag'' []] =
      onCopy root fun id => bindSpread f c id [] (.reactive r) := by
    rw [renderContainer_lone hreader rfl, ← hk]
    rfl
  have hread : Agree f w w (fun c => renderContainer f c reader values slot [.element tag'' []])
      fun c => onCopy root fun id => supply f c id name v := by
    simp only [hcontainer'']
    exact onCopy_agree fun id d =>
      bindSpread_agree (w := { w with page := d }) horderly hlive hprovides he
  refine ⟨fun c => (hcontainer c).trans (hcontainer' c).symm, fun hplain hreactive c => ?_,
    fun hwanted => ?_, hread⟩
  · rw [hcontainer]
    congr 1
    funext id
    exact bindValue_kept hplain hreactive c
  · refine Agree.trans ?_ hread.symm
    simp only [hcontainer]
    exact onCopy_agree fun id d =>
      bindValue_agree (w := { w with page := d }) horderly hlive hwanted

end

/-- A paragraph with one attribute. -/
def loneTag (a : Attr) : Tag := ⟨"p", [a], false, none⟩

/-- A literal that is such a paragraph, the skeleton of which is node `0`. -/
def loneSource (a : Attr) : Compiled := ⟨⟨[.element (loneTag a) []], 1⟩, [some 0]⟩

/-- A skeleton with an element, and a signal. -/
def loneWorld : World :=
  { World.initial [("s", .text "a")] with
    page := ((Document.createElement (Document.createFragment .empty).2 "p" .html).2).append 0 1 }

/-- The title is what the signal holds, as long as there is anything. -/
def titleReader : Reader := .script none (.choose "s" (.spread [("title", true, .peek "s")]) .empty)

def titleEntry : Entry := .reactive (.script none (.peek "s"))

def titleValues : List Value :=
  [titleEntry.toValue, .spread [("title", titleEntry)], .reactive titleReader]

theorem provides_title : Provides plainFactory loneWorld.held titleReader
    [("title", titleEntry)] := by
  refine ⟨4, ["s"], fun w hheld => ?_⟩
  have hread : readSignal "s" w = some (.text "a", { w with graph := (w.graph.read "s").2 }) := by
    have hs : w.held "s" = .text "a" := by rw [hheld]; rfl
    rw [← hs]
    rfl
  have hresolve : (machine plainFactory 4).resolve (.reactive titleReader) w =
      ((readSignal "s" >>= fun code =>
      if code.isTruthy then buildScript plainFactory (machine plainFactory 1) none
        (.spread [("title", true, .peek "s")]) else pure .empty) >>=
          (machine plainFactory 3).resolve) w := rfl
  rw [hresolve, bind_assoc, run_bind hread]
  rfl

/-- The title comes out the same when it is written at the attribute and when a reader yields it. -/
theorem renderContainer_supplied_title : ∃ u w₁ m w₂,
    renderContainer plainFactory (machine plainFactory 9) (loneSource (.dynamic "title" 0 none))
      titleValues 0 [.element (loneTag (.dynamic "title" 0 none)) []] loneWorld = some (u, w₁) ∧
    renderContainer plainFactory (machine plainFactory m) (loneSource (.spread 2)) titleValues 0
      [.element (loneTag (.spread 2)) []] loneWorld = some (u, w₂) ∧
    w₂.page.attributes 3 = [⟨"title", "a", none⟩] := by
  have horderly : loneWorld.graph.Orderly := Signal.Graph.orderly_ofValues _
  have hlone (a : Attr) : Lone plainFactory (loneSource a) 0 0 (loneTag a) a := ⟨rfl, rfl, rfl⟩
  have hi : valueAt titleValues 0 = titleEntry.toValue := rfl
  have hj : valueAt titleValues 1 = .spread [("title", titleEntry)] := rfl
  have hk : valueAt titleValues 2 = .reactive titleReader := rfl
  obtain ⟨-, -, hagree, -⟩ := renderContainer_supplied rfl horderly
    (hlone (.dynamic "title" 0 none)) hi (hlone (.spread 1)) hj rfl
    (hlone (.spread 2)) hk provides_title
  have hshown : (renderContainer plainFactory (machine plainFactory 9)
      (loneSource (.dynamic "title" 0 none)) titleValues 0
      [.element (loneTag (.dynamic "title" 0 none)) []] loneWorld).map
        (fun r => r.2.page.attributes 3) = some [⟨"title", "a", none⟩] := by
    decide +kernel
  obtain ⟨⟨u, w₁⟩, hrun, htitle⟩ := Option.map_eq_some_iff.mp hshown
  obtain ⟨m, w₂, hrun', hsame⟩ := (hagree fun _ => rfl).forth 9 u w₁ hrun
  exact ⟨u, w₁, m, w₂, hrun, hrun', by rw [hsame.page]; exact htitle⟩

/-! ### A listener that is read -/

/-- A paragraph with a listener, and one with a spread. -/
def askFactory : Factory :=
  { plainFactory with literals := [⟨"explicit", ["<p @click=", "></p>"]⟩,
    ⟨"spread", ["<p ...", "></p>"]⟩] }

/-- What is noted while a paragraph is rendered, and the listeners for clicks that it then has. -/
def askClicks (literal : String) (v : Script) : Option (List (Nat × List (Nat × Bool))) :=
  ([.display literal [v] "main", .inspect ⟨"main", [0]⟩ [] ["click"]].mapM (step askFactory 20)
    |>.run
    (.initial [])).map fun r => r.1.map fun view => (view.log.length, match view.answer with
      | .inspected i => i.events
      | _ => [])

/-- A reader for clicks becomes the listener and is not read, when it is written at the attribute or
    comes with a spread; when it comes with a spread that is a reader, it is read and no
    listener. -/
theorem spread_reads_listener :
    askClicks "explicit" (.later (.note "read" .empty)) = some [(0, []), (0, [(1, true)])] ∧
    askClicks "spread" (.spread [("@click", true, .note "read" .empty)]) =
      some [(0, []), (0, [(1, true)])] ∧
    askClicks "spread" (.later (.spread [("@click", true, .note "read" .empty)])) =
      some [(1, []), (0, [(0, false)])] := by
  refine ⟨?_, ?_, ?_⟩ <;> decide +kernel

end Stencil.Render
