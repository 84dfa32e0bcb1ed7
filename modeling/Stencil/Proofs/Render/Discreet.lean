/-
  Stencil/Proofs/Render/Discreet.lean
  ===================================
  **A render inside an effect subscribes the effect to nothing.**

  An effect of the application that renders a literal is running while components are
  built, their props and contents are read, and readers are bound to attributes and
  content.  All of this happens in brackets: components are built in untracked stretches,
  and what is bound to a reader is an effect of its own.  What the literal itself does
  outside them reads no signal, with three exceptions: a reader in a list that is shown, a
  callback that gets an element, and a list that a component comes to.  `Discreet` rules
  these out; a callback may write signals, as long as its code looks at none
  (`callBack_readsNothing`).

  So the effect is not run again when a signal is written that has only been read for the
  render (`renderLiteral_discreet`).
-/
import Stencil.Proofs.Render.Lockstep
import Stencil.Proofs.Render.Replace
import Stencil.Proofs.Render.Passage
import Stencil.Proofs.Signal.Bracket

namespace Stencil

namespace Value

mutual

/-- Whether a reader is read to show a value. -/
def showsReader : Value → Bool
  | .reactive _ => true
  | .list items => anyShowsReader items
  | _ => false

def anyShowsReader : List Value → Bool
  | [] => false
  | v :: vs => v.showsReader || anyShowsReader vs

end

/-- Whether a reader lies in a list. -/
def listsReader : Value → Bool
  | .list items => anyShowsReader items
  | _ => false

theorem showsReader_eq {v : Value} (h : v.isReactive = false) : v.showsReader = v.listsReader := by
  cases v with
  | reactive r => cases h
  | list items => rw [showsReader, listsReader]
  | _ => rfl

end Value

/-- A script that can be built without a look at a signal: it makes values and nodes, and on the way
    it leaves notes and writes signals. -/
inductive Script.AsksNothing : Script → Prop where
  | empty : AsksNothing .empty
  | bool (b : Bool) : AsksNothing (.bool b)
  | number (n : Number) : AsksNothing (.number n)
  | text (s : String) : AsksNothing (.text s)
  | handler (label : String) (assigns : Option (String × Script)) :
      AsksNothing (.handler label assigns)
  | ref (label : String) : AsksNothing (.ref label)
  | func (label : String) (result : Option Script) : AsksNothing (.func label result)
  | signal (name : String) : AsksNothing (.signal name)
  | later (body : Script) : AsksNothing (.later body)
  | comment (value : String) : AsksNothing (.comment value)
  | stored (name : String) : AsksNothing (.stored name)
  | container (name : String) : AsksNothing (.container name)
  | list {items : List Script} (h : ∀ code ∈ items, AsksNothing code) : AsksNothing (.list items)
  | element (name : String) {children : List Script} (h : ∀ code ∈ children, AsksNothing code) :
      AsksNothing (.element name children)
  | fragment {children : List Script} (h : ∀ code ∈ children, AsksNothing code) :
      AsksNothing (.fragment children)
  | write (name : String) (value : Script) {next : Script} (h : AsksNothing next) :
      AsksNothing (.write name value next)
  | note (line : String) {next : Script} (h : AsksNothing next) : AsksNothing (.note line next)

/-- A callback without code that looks at a signal. -/
def Callback.AsksNothing : Callback → Prop
  | .ref _ => True
  | .func fn => ∀ code, fn.result = some code → code.AsksNothing

namespace Render

variable {f : Factory} {E n : Nat} {α : Type} {w w' : World}

/-! ### Readings in brackets -/

def World.Contained (E : Nat) (w w' : World) : Prop := w.graph.Contained E w'.graph

def World.Undisturbed (E : Nat) (w w' : World) : Prop := w.graph.Undisturbed E w'.graph

theorem chains_undisturbed (E : Nat) : Chains (World.Undisturbed E) where
  trans h h' := Signal.Graph.Undisturbed.trans h h'
  aside hgraph _ := by
    rw [World.Undisturbed, hgraph]
    exact .refl _

theorem compile_undisturbed (E : Nat) (f : Factory) (l : Literal) :
    Passes (World.Undisturbed E) (compile f l) := by
  intro w out w' hrun
  rcases compile_cases hrun with ⟨-, -, rfl⟩ | ⟨-, rfl⟩
  · exact Signal.Graph.Undisturbed.refl w.graph
  · exact Signal.Graph.Undisturbed.refl w.graph

/-- Whatever the renderer does, only the effect that readings count for may become a subscriber. -/
theorem passage_contained (f : Factory) (E : Nat) : Passage f (World.Contained E) where
  trans h h' := Signal.Graph.Contained.trans h h'
  aside hgraph _ := by
    rw [World.Contained, hgraph]
    exact .refl _
  compile l w out w' hrun := (compile_undisturbed E f l w out w' hrun).contained
  read w name := .read w.graph name
  write w name code := (Signal.Graph.Undisturbed.write w.graph name code).contained
  register w b := (Signal.Graph.Undisturbed.register w.graph b).contained
  untracked h := h.untracked.contained
  run hstart h next := (h.run hstart next).contained

/-- An untracked stretch disturbs nobody, -/
theorem untracked_undisturbed (htracking : f.tracking = true) {act : Run α}
    (h : Passes (World.Contained E) act) : Passes (World.Undisturbed E) (untracked f act) := by
  rw [untracked, if_pos htracking]
  exact h.untracked Signal.Graph.Contained.untracked

/-- nor does the run of another effect. -/
theorem effect_undisturbed (f : Factory) (E n id : Nat) :
    Passes (World.Undisturbed E) ((machine f n).effect id) := by
  have law := passage_contained f E
  cases n with
  | zero => exact .failure
  | succ n =>
    exact (chains_undisturbed E).execute (law.runBinding (law.calls n))
      (fun hstart h next => Signal.Graph.Contained.run hstart h next) id

theorem newBinding_undisturbed (htracking : f.tracking = true) (E n : Nat) (b : Binding) :
    Passes (World.Undisturbed E) (newBinding f (machine f n) b) := by
  rw [newBinding, if_pos htracking]
  exact (chains_undisturbed E).registered (fun w b => .register w.graph b)
    (effect_undisturbed f E n) b

theorem invoke_undisturbed (htracking : f.tracking = true) (E n : Nat) (source : Compiled)
    (values : List Value) (t : Markup.Tag) (children : List Markup.Node) :
    Passes (World.Undisturbed E) (invoke f (machine f n) source values t children) := by
  have law := passage_contained f E
  unfold invoke
  split
  · exact (chains_undisturbed E).pure _
  · exact untracked_undisturbed htracking (law.component (law.calls n) source values t children _)

/-! ### What is done outside them -/

/-- The action makes no effect that is running a subscriber of anything. -/
def ReadsNothing (act : Run α) : Prop :=
  ∀ w a w', act w = some (a, w') → ∀ id, w.graph.running id = true → ∀ x,
    id ∈ w'.graph.subscribers x ↔ id ∈ w.graph.subscribers x

theorem ReadsNothing.undisturbed {act : Run α} (h : ReadsNothing act)
    (hcontained : Passes (World.Contained E) act) : Passes (World.Undisturbed E) act := by
  intro w a w' hrun
  obtain ⟨hscopes, hrunning, -⟩ := hcontained w a w' hrun
  exact ⟨hscopes, hrunning, h w a w' hrun E⟩

theorem readsNothing_of_undisturbed {act : Run α} (h : ∀ E, Passes (World.Undisturbed E) act) :
    ReadsNothing act :=
  fun w a w' hrun E hE => (h E w a w' hrun).subscribed hE

theorem buildScripts_passes {R : World → World → Prop} (chain : Chains R) {c : Calls}
    {env : Option Props} {codes : List Script}
    (h : ∀ code ∈ codes, Passes R (buildScript f c env code)) :
    Passes R (buildScripts f c env codes) := by
  induction codes with
  | nil => exact chain.pure _
  | cons code rest ih =>
    obtain ⟨hcode, hrest⟩ := List.forall_mem_cons.mp h
    rw [buildScripts]
    exact chain.bind hcode fun v => chain.bind (ih hrest) fun vs => chain.pure _

theorem buildInto_passes {R : World → World → Prop} (chain : Chains R) {c : Calls}
    {env : Option Props} {codes : List Script}
    (h : ∀ code ∈ codes, Passes R (buildScript f c env code)) (parent : NodeId) :
    Passes R (buildInto f c env parent codes) := by
  induction codes with
  | nil => exact chain.pure _
  | cons code rest ih =>
    obtain ⟨hcode, hrest⟩ := List.forall_mem_cons.mp h
    rw [buildInto]
    exact chain.bind hcode fun v => chain.bind (chain.nodeFor v) fun id =>
      chain.bind (chain.changePage _) fun _ => ih hrest

/-- To build a script that asks for no signal disturbs nobody, though it may write signals: the
    effects that a write runs are in brackets of their own. -/
theorem buildScript_undisturbed (f : Factory) (E n : Nat) (env : Option Props) {code : Script}
    (h : code.AsksNothing) :
    Passes (World.Undisturbed E) (buildScript f (machine f n) env code) := by
  have chain := chains_undisturbed E
  induction h with
  | list _ ih =>
    rw [buildScript]
    exact chain.bind (buildScripts_passes chain ih) fun vs => chain.pure _
  | element name _ ih =>
    rw [buildScript]
    exact chain.bind (chain.onPage _) fun id =>
      chain.bind (buildInto_passes chain ih id) fun _ => chain.pure _
  | fragment _ ih =>
    rw [buildScript]
    exact chain.bind (chain.onPage _) fun id =>
      chain.bind (buildInto_passes chain ih id) fun _ => chain.pure _
  | write name value _ ih =>
    have hwrite := chain.written (fun w name code => .write w.graph name code)
      (effect_undisturbed f E n) name value
    rw [buildScript]
    exact chain.bind hwrite fun _ => ih
  | note line _ ih =>
    rw [buildScript]
    exact chain.bind (chain.log _) fun _ => ih
  | comment value => exact chain.bind (chain.onPage _) fun id => chain.pure _
  | stored name => exact chain.storedValue name
  | container name => exact chain.bind (chain.named name) fun id => chain.pure _
  | _ => exact chain.pure _

/-- A callback whose code does not look at a signal makes nobody a subscriber. -/
theorem callBack_readsNothing (f : Factory) (n : Nat) (node : NodeId) {callback : Callback}
    (h : callback.AsksNothing) : ReadsNothing (callBack (machine f n) node callback) := by
  refine readsNothing_of_undisturbed fun E => ?_
  have chain := chains_undisturbed E
  cases callback with
  | ref label => exact Chains.page fun d => chain.log _
  | func fn =>
    refine chain.discard (Chains.page fun d => chain.bind (chain.log _) fun _ => ?_)
    rcases hresult : fn.result with _ | code
    · exact chain.pure _
    · cases n with
      | zero => exact .failure
      | succ n => exact buildScript_undisturbed f E n none (h code hresult)

mutual

/-- A value without readers in its lists is shown without reading. -/
theorem nodesOf_undisturbed (E : Nat) (c : Calls) :
    ∀ v : Value, v.showsReader = false → Passes (World.Undisturbed E) (nodesOf c v)
  | .text _, _ => (chains_undisturbed E).bind ((chains_undisturbed E).onPage _) fun _ =>
      (chains_undisturbed E).pure _
  | .number _, _ => (chains_undisturbed E).bind ((chains_undisturbed E).onPage _) fun _ =>
      (chains_undisturbed E).pure _
  | .node _, _ => Chains.page fun _ => (chains_undisturbed E).pure _
  | .list items, h => nodesOfAll_undisturbed E c items (by simpa [Value.showsReader] using h)
  | .reactive _, h => by simp [Value.showsReader] at h
  | .empty, _ => (chains_undisturbed E).pure _
  | .bool _, _ => (chains_undisturbed E).pure _
  | .handler _, _ => (chains_undisturbed E).pure _
  | .ref _, _ => (chains_undisturbed E).pure _
  | .func _, _ => (chains_undisturbed E).pure _
  | .spread _, _ => (chains_undisturbed E).pure _

theorem nodesOfAll_undisturbed (E : Nat) (c : Calls) :
    ∀ vs : List Value, Value.anyShowsReader vs = false →
      Passes (World.Undisturbed E) (nodesOfAll c vs)
  | [], _ => (chains_undisturbed E).pure _
  | v :: vs, h => by
    rw [Value.anyShowsReader, Bool.or_eq_false_iff] at h
    exact (chains_undisturbed E).bind (nodesOf_undisturbed E c v h.1) fun _ =>
      (chains_undisturbed E).bind (nodesOfAll_undisturbed E c vs h.2) fun _ =>
        (chains_undisturbed E).pure _

end

theorem insertValue_undisturbed (htracking : f.tracking = true) (E n : Nat) (marker : NodeId)
    {v : Value} (h : v.listsReader = false) :
    Passes (World.Undisturbed E) (insertValue f (machine f n) marker v) := by
  refine (chains_undisturbed E).insertValue (newBinding_undisturbed htracking E n) fun hv => ?_
  exact nodesOf_undisturbed E _ v (by rw [Value.showsReader_eq hv, h])

/-- Rendering reads no signal outside components and bindings: no value has a reader in a list, the
    callbacks that get an element read nothing, and no component comes to a list with a reader. -/
structure Discreet (f : Factory) (source : Compiled) (values : List Value) : Prop where
  listed : ∀ v ∈ values, v.listsReader = false
  callbacks : ∀ t, .element t ∈ pointsOfAll f source.tree.children → ∀ a ∈ t.attrs,
    ∀ p ∈ bound values a, ∀ callback,
      (f.policy.resolve p.1).1.setter.callback? p.2 = some callback →
      ∀ n node, ReadsNothing (callBack (machine f n) node callback)
  components : ∀ t children, .component t children ∈ pointsOfAll f source.tree.children →
    ∀ n w v w', invoke f (machine f n) source values t children w = some (v, w') →
      v.listsReader = false

variable {source : Compiled} {values : List Value}

theorem Discreet.bindPoint (h : Discreet f source values) (htracking : f.tracking = true)
    (E n : Nat) {point : Point} (hpoint : point ∈ pointsOfAll f source.tree.children)
    (node : NodeId) :
    Passes (World.Undisturbed E) (bindPoint f (machine f n) source values node point) := by
  have chain := chains_undisturbed E
  have law := passage_contained f E
  have hnew := newBinding_undisturbed htracking E n
  cases point with
  | hole i =>
    refine insertValue_undisturbed htracking E n node ?_
    rw [valueAt, List.getD_eq_getElem?_getD]
    rcases hv : values[i]? with _ | v
    · rfl
    · exact h.listed v (List.mem_of_getElem? hv)
  | element t =>
    refine chain.bindTag hnew fun a ha p hp => chain.bindValue hnew fun callback hcallback => ?_
    exact (h.callbacks t hpoint a ha p hp callback hcallback n node).undisturbed
      (law.callBack (law.calls n) node callback)
  | component t children =>
    intro w u w' hrun
    obtain ⟨v, w₁, hinvoke, hinsert⟩ := run_of_bind hrun
    have hv := h.components t children hpoint n w v w₁ hinvoke
    exact chain.trans (invoke_undisturbed htracking E n source values t children w v w₁ hinvoke)
      (insertValue_undisturbed htracking E n node hv w₁ u w' hinsert)

theorem Discreet.container (h : Discreet f source values) (htracking : f.tracking = true)
    (E n slot : Nat) :
    Passes (World.Undisturbed E)
      ((machine f n).container source values slot source.tree.children) := by
  cases n with
  | zero => exact .failure
  | succ n =>
    refine (chains_undisturbed E).renderContainer
      (invoke_undisturbed htracking E n source values) slot ?_
    exact fun _ hpoint node => h.bindPoint htracking E n hpoint node

/-- **A render inside an effect subscribes the effect to nothing**, whatever is read for it: in
    components, by their props and their content, and by the readers of attributes, spreads and
    content.  Afterwards readings count as they did before, and the write of a signal that the
    effect has not read otherwise does not run it. -/
theorem renderLiteral_discreet {l : Literal} {out : Except TemplateError Value}
    (htracking : f.tracking = true) (hE : w.graph.running E = true)
    (hdiscreet : ∀ source w₁, compile f l w = some (.ok source, w₁) → Discreet f source values)
    (hrun : renderLiteral f (machine f n) l values w = some (out, w')) :
    w'.graph.scopes = w.graph.scopes ∧
      (∀ x, E ∈ w'.graph.subscribers x ↔ E ∈ w.graph.subscribers x) ∧
      ∀ x code, E ∉ w.graph.subscribers x → E ∉ (w'.graph.write x code).1 := by
  have hundisturbed : World.Undisturbed E w w' := by
    refine (chains_undisturbed E).renderLiteral (compile_undisturbed E f l)
      (fun source w₁ hcompile => ?_) hrun
    exact (hdiscreet source w₁ hcompile).container htracking E n _
  have hsubscribed := hundisturbed.subscribed hE
  exact ⟨hundisturbed.scopes, hsubscribed, fun x code hx => mt (hsubscribed x).mp hx⟩

/-- What a component comes to, its body has been built to. -/
theorem invoke_answer {c : Calls} {t : Markup.Tag} {children : List Markup.Node} {body : Script}
    {v : Value} (hbody : f.registry.componentFor? t = some body)
    (hrun : invoke f c source values t children w = some (v, w')) :
    ∃ ps w₁ w₂, c.build (some ps) body w₁ = some (v, w₂) := by
  obtain ⟨w₁, w₂, hact⟩ : ∃ w₁ w₂, (componentProps c source values t children >>= fun ps =>
      log (.invoked t.name) >>= fun _ => c.build (some ps) body) w₁ = some (v, w₂) := by
    rw [invoke, hbody] at hrun
    change untracked f _ w = _ at hrun
    unfold untracked at hrun
    split at hrun
    · obtain ⟨w₁, hact, -⟩ := of_untracked hrun
      exact ⟨_, w₁, hact⟩
    · exact ⟨w, w', hrun⟩
  obtain ⟨ps, w₃, -, hrest⟩ := run_of_bind hact
  obtain ⟨⟨⟩, w₄, -, hbuild⟩ := run_of_bind hrest
  exact ⟨ps, w₄, w₂, hbuild⟩

/-- A component that shows what a signal holds. -/
def peekFactory : Factory :=
  { plainFactory with registry := ⟨[("Card", .join [.peek "s"])]⟩ }

/-- A paragraph with an attribute, a callback that gets it, such a component, and content. -/
def peekLiteral : Literal := ⟨"card", ["<p class=", " ref=", "><Card></Card>", "</p>"]⟩

def peekTag : Markup.Tag := ⟨"p", [.dynamic "class" 0 none, .dynamic "ref" 1 none], false, none⟩

def peekTree : Markup.Template :=
  ⟨[.element peekTag [.element ⟨"Card", [], false, some 1⟩ [], .hole 2]], 2⟩

/-- The callback writes a signal. -/
def markScript : Script := .write "seen" (.bool true) .empty

def peekValues : List Value :=
  [.reactive (.signal "s"), .func ⟨"mark", some markScript⟩, .reactive (.signal "s")]

/-- An effect that renders the literal has been started. -/
def busyWorld : World :=
  let w := World.initial [("s", .text "a"), ("seen", .bool false)]
  let values := [.signal "s", .func "mark" (some markScript), .signal "s"]
  let b := Binding.content 0 (.script none (.html "card" values)) []
  { w with graph := ((w.graph.register b).2.start 0).2 }

theorem discreet_peek (skeletons : List (Option NodeId)) :
    Discreet peekFactory ⟨peekTree, skeletons⟩ peekValues where
  listed := by simp [peekValues, Value.listsReader]
  callbacks t ht a ha p hp callback hcallback n node := by
    obtain rfl : t = peekTag := by
      simpa [peekTree, pointsOfAll, pointsOf, peekFactory, plainFactory, Registry.isComponent,
        Registry.componentFor?, Registry.get?, peekTag] using ht
    rcases List.mem_pair.mp ha with rfl | rfl
    · obtain rfl := List.mem_singleton.mp hp
      have hnone (setter : Setter) : setter.callback? (.reactive (.signal "s")) = none := by
        cases setter <;> rfl
      cases (hnone _).symm.trans hcallback
    · obtain rfl := List.mem_singleton.mp hp
      have hmark (setter : Setter)
          (h : setter.callback? (.func ⟨"mark", some markScript⟩) = some callback) :
          callback = .func ⟨"mark", some markScript⟩ := by
        cases setter with
        | ref => exact (Option.some.inj h).symm
        | _ => cases h
      rw [hmark _ hcallback]
      refine callBack_readsNothing peekFactory n node fun code hcode => ?_
      rw [← Option.some.inj hcode]
      exact .write "seen" (.bool true) .empty
  components t children ht n w v w' hrun := by
    obtain ⟨rfl, rfl⟩ : t = ⟨"Card", [], false, some 1⟩ ∧ children = [] := by
      simpa [peekTree, pointsOfAll, pointsOf, peekFactory, plainFactory, Registry.isComponent,
        Registry.componentFor?, Registry.get?, peekTag] using ht
    have hbody : peekFactory.registry.componentFor? ⟨"Card", [], false, some 1⟩ =
        some (.join [.peek "s"]) := rfl
    obtain ⟨ps, w₁, w₂, hbuild⟩ := invoke_answer hbody hrun
    cases n with
    | zero => cases hbuild
    | succ n =>
      obtain ⟨text, w₃, -, hpure⟩ := run_of_bind hbuild
      obtain ⟨rfl, -⟩ := Prod.mk.inj (Option.some.inj hpure)
      rfl

/-- The attribute and the content have effects of their own, which are the only subscribers,
    although the component has read the signal as well and a callback has been called. -/
theorem renderLiteral_discreet_peek :
    ∃ out w', renderLiteral peekFactory (machine peekFactory 9) peekLiteral peekValues busyWorld =
        some (out, w') ∧ out.toOption.isSome = true ∧ w'.graph.subscribers "s" = [1, 2] ∧
      w'.graph.scopes = [.effect 0] ∧ ∀ code, 0 ∉ (w'.graph.write "s" code).1 := by
  have hrender : (renderLiteral peekFactory (machine peekFactory 9) peekLiteral peekValues
      busyWorld).map (fun r => (r.1.toOption.isSome, r.2.graph.subscribers "s")) =
        some (true, [1, 2]) := by
    decide +kernel
  obtain ⟨⟨out, w'⟩, hrun, hshown⟩ := Option.map_eq_some_iff.mp hrender
  obtain ⟨hout, hsubscribers⟩ := Prod.mk.inj hshown
  obtain ⟨skeletons, w₁, hcompile⟩ : ∃ skeletons w₁,
      compile peekFactory peekLiteral busyWorld = some (.ok ⟨peekTree, skeletons⟩, w₁) :=
    exists_of_compiled (by decide +kernel)
  have hdiscreet : ∀ source w₂, compile peekFactory peekLiteral busyWorld = some (.ok source, w₂) →
      Discreet peekFactory source peekValues := by
    intro source w₂ hcompile'
    obtain ⟨heq, -⟩ := Prod.mk.inj (Option.some.inj (hcompile.symm.trans hcompile'))
    obtain rfl := Except.ok.inj heq
    exact discreet_peek skeletons
  obtain ⟨hscopes, -, hwrite⟩ := renderLiteral_discreet (E := 0) rfl rfl hdiscreet hrun
  exact ⟨out, w', hrun, hout, hsubscribers, hscopes, fun code => hwrite "s" code (by decide)⟩

end Render
end Stencil
