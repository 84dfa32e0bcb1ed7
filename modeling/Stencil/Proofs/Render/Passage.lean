/-
  Stencil/Proofs/Render/Passage.lean
  ==================================
  **What the renderer does to a world, as a relation of before and after.**

  A regime follows a world through states of its own, one change after the other.  Some
  things can only be said of a stretch as a whole: the scopes that are open when it has
  ended are those that were open when it began.  A `Passage` is a relation of the world
  before a stretch and the world after it that goes on from one stretch to the next and
  survives the two brackets, the run of an effect and an untracked stretch.  Every part of
  the renderer, and every step of a session, then goes from a world to a related one,
  whatever the values are that it works on (`Passage.calls`, `Passage.perform`).

  Parts that only put others together need less of a relation (`Chains`).
-/
import Stencil.Proofs.Attribute.Usual
import Stencil.Proofs.Render.Primitive
import Stencil.Render.Session

namespace Stencil.Render

/-- Wherever the action is started, it ends in a related world if it ends. -/
def Passes (R : World → World → Prop) {α : Type} (act : Run α) : Prop :=
  ∀ w a w', act w = some (a, w') → R w w'

/-- A relation that holds of stretches that follow each other, and of what leaves the signals and
    the cache alone. -/
structure Chains (R : World → World → Prop) : Prop where
  trans : ∀ {w w₁ w'}, R w w₁ → R w₁ w' → R w w'
  aside : ∀ {w w' : World}, w'.graph = w.graph → w'.cache = w.cache → R w w'

/-- A relation that holds of everything that is done in one go, and of stretches in brackets as
    well. -/
structure Passage (f : Factory) (R : World → World → Prop) : Prop extends Chains R where
  compile : ∀ l, Passes R (compile f l)
  read : ∀ w name, R w { w with graph := (w.graph.read name).2 }
  write : ∀ w name code, R w { w with graph := (w.graph.write name code).2 }
  register : ∀ w b, R w { w with graph := (w.graph.register b).2 }
  untracked : ∀ {w w' : World}, R { w with graph := w.graph.openUntracked } w' →
    R w { w' with graph := w'.graph.closeScope }
  run : ∀ {w w' : World} {id : Nat} {b : Binding}, (w.graph.start id).1 = some b →
    R { w with graph := (w.graph.start id).2 } w' →
      ∀ next, R w { w' with graph := w'.graph.finish id next }

/-- Every part of a renderer passes to a related world. -/
structure Calls.Pass (R : World → World → Prop) (c : Calls) : Prop where
  build : ∀ env code, Passes R (c.build env code)
  read : ∀ r, Passes R (c.read r)
  resolve : ∀ v, Passes R (c.resolve v)
  nodes : ∀ v, Passes R (c.nodes v)
  container : ∀ source values slot nodes, Passes R (c.container source values slot nodes)
  effect : ∀ id, Passes R (c.effect id)

variable {R R' : World → World → Prop} {α β : Type}

/-! ### Stretches that follow each other -/

theorem Passes.failure : Passes R (Alternative.failure : Run α) := nofun

/-- An untracked stretch, without its bracket. -/
theorem of_untracked {act : Run α} {a : α} {w w' : World}
    (hrun : Signal.untracked (σ := Script) (β := Binding) act w = some (a, w')) :
    ∃ w₁, act { w with graph := w.graph.openUntracked } = some (a, w₁) ∧
      w' = { w₁ with graph := w₁.graph.closeScope } := by
  obtain ⟨⟨⟩, w₀, hopen, hrest⟩ := run_of_bind hrun
  obtain ⟨a', w₁, hact, hrest⟩ := run_of_bind hrest
  obtain ⟨⟨⟩, w₂, hshut, hpure⟩ := run_of_bind hrest
  obtain rfl : { w with graph := w.graph.openUntracked } = w₀ := by
    simpa using Option.some.inj hopen
  obtain rfl : { w₁ with graph := w₁.graph.closeScope } = w₂ := by simpa using Option.some.inj hshut
  obtain ⟨rfl, rfl⟩ : a' = a ∧ _ = w' := by simpa using Option.some.inj hpure
  exact ⟨w₁, hact, rfl⟩

theorem Passes.untracked {act : Run α} (h : Passes R act)
    (hclose : ∀ {w w' : World}, R { w with graph := w.graph.openUntracked } w' →
      R' w { w' with graph := w'.graph.closeScope }) :
    Passes R' (Signal.untracked (σ := Script) (β := Binding) act) := by
  intro w a w' hrun
  obtain ⟨w₁, hact, rfl⟩ := of_untracked hrun
  exact hclose (h _ a w₁ hact)

/-- What is bound to an element on account of an attribute: names with values. -/
def bound (values : List Value) : Markup.Attr → List (String × Value)
  | .flag name => [(name, .bool true)]
  | .fixed name value _ => [(name, .text value)]
  | .dynamic name i _ => [(name, valueAt values i)]
  | .mixed name parts _ => [(name, joinedValue values parts)]
  | .spread i =>
    match valueAt values i with
    | .spread entries => entries.map fun p => (p.1, p.2.toValue)
    | _ => []

namespace Chains

theorem refl (chain : Chains R) (w : World) : R w w := chain.aside rfl rfl

theorem pure (chain : Chains R) (a : α) : Passes R (Pure.pure a : Run α) := by
  intro w a' w' hrun
  obtain ⟨-, rfl⟩ : a = a' ∧ w = w' := by simpa using Option.some.inj hrun
  exact chain.refl w

theorem bind (chain : Chains R) {act : Run α} {next : α → Run β} (h : Passes R act)
    (hnext : ∀ a, Passes R (next a)) : Passes R (act >>= next) := by
  intro w b w' hrun
  obtain ⟨a, w₁, hfirst, hrest⟩ := run_of_bind hrun
  exact chain.trans (h w a w₁ hfirst) (hnext a w₁ b w' hrest)

theorem discard (chain : Chains R) {act : Run α} (h : Passes R act) :
    Passes R (Functor.discard act) := by
  have heq : Functor.discard act = act >>= fun _ => Pure.pure PUnit.unit := by
    rw [Functor.discard, map_const]
    exact map_eq_pure_bind _ _
  rw [heq]
  exact chain.bind h fun _ => chain.pure _

theorem page {next : Page → Run β} (h : ∀ d, Passes R (next d)) : Passes R (Render.page >>= next) :=
  fun w => h w.page w

theorem look {next : World → Run β} (h : ∀ w, Passes R (next w)) :
    Passes R (getThe World >>= next) :=
  fun w => h w w

/-! ### Things done in one go -/

theorem onPage (chain : Chains R) (act : Page → α × Page) : Passes R (onPage act) := by
  intro w a w' hrun
  rw [run_onPage] at hrun
  obtain ⟨-, rfl⟩ := by simpa using hrun
  exact chain.aside rfl rfl

theorem changePage (chain : Chains R) (act : Page → Page) : Passes R (changePage act) := by
  intro w a w' hrun
  rw [run_changePage] at hrun
  obtain ⟨-, rfl⟩ := by simpa using hrun
  exact chain.aside rfl rfl

theorem log (chain : Chains R) (e : LogEntry) : Passes R (log e) := by
  intro w a w' hrun
  have heq : Render.log e w = some ((), { w with log := w.log.push e }) := rfl
  obtain ⟨-, rfl⟩ := by simpa using heq.symm.trans hrun
  exact chain.aside rfl rfl

theorem named (chain : Chains R) (name : String) : Passes R (Render.container name) := by
  intro w a w' hrun
  rcases hfind : w.containers.find? (·.1 == name) with _ | p
  · rw [run_container_new hfind] at hrun
    obtain ⟨-, rfl⟩ := by simpa using hrun
    exact chain.aside rfl rfl
  · rw [run_container_old hfind] at hrun
    obtain ⟨-, rfl⟩ := by simpa using hrun
    exact chain.refl w

theorem nodeFor (chain : Chains R) (v : Value) : Passes R (nodeFor v) := by
  unfold Render.nodeFor
  split
  · exact chain.pure _
  · exact chain.onPage _

theorem storedValue (chain : Chains R) (name : String) : Passes R (storedValue name) := by
  intro w a w' hrun
  rw [run_storedValue] at hrun
  obtain ⟨-, rfl⟩ := by simpa using hrun
  exact chain.refl w

theorem store (chain : Chains R) (name : Option String) (v : Value) : Passes R (store name v) := by
  intro w a w' hrun
  cases name with
  | none => exact chain.pure () w a w' hrun
  | some name =>
    have heq : Render.store (some name) v w = some ((), { w with
      stored := (name, v) :: w.stored.filter (·.1 != name) }) := rfl
    obtain ⟨-, rfl⟩ := by simpa using heq.symm.trans hrun
    exact chain.aside rfl rfl

/-! ### Effects -/

theorem executeAll (chain : Chains R) {exec : Nat → Run Unit} (h : ∀ id, Passes R (exec id))
    (ids : List Nat) : Passes R (Signal.executeAll exec ids) := by
  induction ids with
  | nil => exact chain.pure ()
  | cons id ids ih => exact chain.bind (h id) fun _ => ih

theorem registered (chain : Chains R) (hregister : ∀ w b,
      R w { w with graph := (w.graph.register b).2 })
    {exec : Nat → Run Unit} (h : ∀ id, Passes R (exec id)) (b : Binding) :
    Passes R (Signal.register (σ := Script) (β := Binding) exec b) := by
  intro w a w' hrun
  have hrest : exec w.graph.effects.size { w with graph := (w.graph.register b).2 } =
      some (a, w') := hrun
  exact chain.trans (hregister w b) (h _ _ a w' hrest)

theorem written (chain : Chains R) (hwrite : ∀ w name code,
      R w { w with graph := (w.graph.write name code).2 })
    {c : Calls} (h : ∀ id, Passes R (c.effect id)) (name : String) (code : Script) :
    Passes R (writeSignal c name code) := by
  intro w a w' hrun
  have hrest : Signal.executeAll c.effect (w.graph.write name code).1
      { w with graph := (w.graph.write name code).2 } = some (a, w') := hrun
  exact chain.trans (hwrite w name code) (chain.executeAll h _ _ a w' hrest)

/-- A stretch in the bracket of an effect, unless that is running. -/
theorem execute (chain : Chains R') {run : Binding → Run Binding} (h : ∀ b, Passes R (run b))
    (hrun : ∀ {w w' : World} {id : Nat} {b : Binding}, (w.graph.start id).1 = some b →
      R { w with graph := (w.graph.start id).2 } w' →
      ∀ next, R' w { w' with graph := w'.graph.finish id next }) (id : Nat) :
    Passes R' (Signal.execute (σ := Script) (β := Binding) run id) := by
  intro w a w' hexec
  obtain ⟨o, w₁, hstart, hrest⟩ := run_of_bind hexec
  obtain ⟨rfl, rfl⟩ : (w.graph.start id).1 = o ∧ { w with graph := (w.graph.start id).2 } = w₁ := by
    simpa using Option.some.inj hstart
  rcases hbody : (w.graph.start id).1 with _ | b
  · rw [hbody] at hrest
    obtain rfl : { w with graph := (w.graph.start id).2 } = w' :=
      (Prod.mk.inj (Option.some.inj hrest)).2
    exact chain.aside (Signal.Graph.start_none hbody) rfl
  · rw [hbody] at hrest
    obtain ⟨next, w₂, hact, hfinish⟩ := run_of_bind hrest
    obtain rfl : { w₂ with graph := w₂.graph.finish id next } = w' :=
      (Prod.mk.inj (Option.some.inj hfinish)).2
    exact hrun hbody (h b _ next w₂ hact) next

/-! ### Parts put together -/

section

variable {f : Factory} {c : Calls} {node : NodeId} {values : List Value}

theorem applySetter (chain : Chains R) {setter : Setter} {name : String} {v : Value}
    (h : ∀ callback, setter.callback? v = some callback → Passes R (callBack c node callback)) :
    Passes R (applySetter f c node setter name v) := by
  refine chain.bind (chain.changePage _) fun _ => ?_
  rcases hcallback : setter.callback? v with _ | callback
  · exact chain.pure ()
  · exact h callback hcallback

theorem bindValue (chain : Chains R) (hnew : ∀ b, Passes R (newBinding f c b)) {name : String}
    {v : Value} (h : ∀ callback, (f.policy.resolve name).1.setter.callback? v = some callback →
      Passes R (callBack c node callback)) : Passes R (bindValue f c node name v) := by
  rcases hresolve : f.policy.resolve name with ⟨rule, stripped⟩
  rw [hresolve] at h
  unfold Render.bindValue
  rw [hresolve]
  dsimp only
  split
  · exact hnew _
  · exact chain.applySetter h

theorem bindEntries (chain : Chains R) {entries : Props} (shadowed : List String)
    (h : ∀ p ∈ entries, Passes R (Render.bindValue f c node p.1 p.2.toValue)) :
    Passes R (bindEntries f c node shadowed entries) := by
  induction entries with
  | nil => exact chain.pure ()
  | cons p rest ih =>
    obtain ⟨hp, hrest⟩ := List.forall_mem_cons.mp h
    rw [Render.bindEntries]
    split
    · exact ih hrest
    · exact chain.bind hp fun _ => ih hrest

theorem bindAttr (chain : Chains R) (hnew : ∀ b, Passes R (newBinding f c b)) (later : List String)
    {a : Markup.Attr} (h : ∀ p ∈ bound values a, Passes R (Render.bindValue f c node p.1 p.2)) :
    Passes R (bindAttr f c values node later a) := by
  cases a with
  | spread i =>
    rw [bound] at h
    rw [Render.bindAttr]
    cases hv : valueAt values i with
    | spread entries =>
      rw [hv] at h
      exact chain.bindEntries later fun p hp => h _ (List.mem_map_of_mem hp)
    | reactive r => exact hnew _
    | _ => exact chain.pure ()
  | _ => exact h _ (List.mem_singleton_self _)

theorem bindAttrs (chain : Chains R) {attrs : List (Markup.Attr × Bool)}
    (h : ∀ a ∈ attrs, ∀ later, Passes R (Render.bindAttr f c values node later a.1)) :
    Passes R (bindAttrs f c values node attrs) := by
  induction attrs with
  | nil => exact chain.pure ()
  | cons a rest ih =>
    obtain ⟨ha, hrest⟩ := List.forall_mem_cons.mp h
    rw [Render.bindAttrs]
    split
    · exact ih hrest
    · exact chain.bind (ha _) fun _ => ih hrest

theorem bindTag (chain : Chains R) (hnew : ∀ b, Passes R (newBinding f c b)) {t : Markup.Tag}
    (h : ∀ a ∈ t.attrs, ∀ p ∈ bound values a, Passes R (Render.bindValue f c node p.1 p.2)) :
    Passes R (bindTag f c values node t) := by
  refine chain.bindAttrs fun a ha later => chain.bindAttr hnew later (h a.1 ?_)
  rw [← Markup.map_markPrebound f.policy false t.attrs]
  exact List.mem_map_of_mem ha

theorem insertValue (chain : Chains R) (hnew : ∀ b, Passes R (newBinding f c b)) {v : Value}
    (h : v.isReactive = false → Passes R (nodesOf c v)) : Passes R (insertValue f c node v) := by
  cases v with
  | reactive r => exact hnew _
  | _ =>
    refine chain.bind (h rfl) fun nodes => page fun d => ?_
    rcases d.parent? node with _ | parent
    · exact chain.pure ()
    · exact chain.changePage _

theorem bindPoints (chain : Chains R) {source : Compiled} {pairs : List (Point × NodeId)}
    (h : ∀ p ∈ pairs, Passes R (bindPoint f c source values p.2 p.1)) :
    Passes R (bindPoints f c source values pairs) := by
  induction pairs with
  | nil => exact chain.pure ()
  | cons p rest ih =>
    obtain ⟨hp, hrest⟩ := List.forall_mem_cons.mp h
    exact chain.bind hp fun _ => ih hrest

theorem looseValues (chain : Chains R) {source : Compiled}
    (h : ∀ tag children, Passes R (invoke f c source values tag children))
    (nodes : List Markup.Node) :
    Passes R (looseValues f c source values nodes) := by
  induction nodes with
  | nil => exact chain.pure _
  | cons n rest ih =>
    have hrest (v : Value) : Passes R (do
        let vs ← Render.looseValues f c source values rest
        Pure.pure (v :: vs)) := chain.bind ih fun vs => chain.pure _
    cases n with
    | text s => exact chain.bind (chain.onPage _) fun id => chain.bind (chain.pure _) hrest
    | hole i => exact chain.bind (chain.pure _) hrest
    | element tag children => exact chain.bind (h tag children) hrest

theorem renderContainer (chain : Chains R) {source : Compiled}
    (hinvoke : ∀ tag children, Passes R (invoke f c source values tag children)) (slot : Nat)
    {nodes : List Markup.Node} (h : ∀ point ∈ pointsOfAll f nodes, ∀ node,
      Passes R (bindPoint f c source values node point)) :
    Passes R (renderContainer f c source values slot nodes) := by
  unfold Render.renderContainer
  split
  · exact chain.bind (chain.looseValues hinvoke nodes) fun _ => chain.pure _
  · refine chain.bind (chain.onPage _) fun root => page fun d => ?_
    refine chain.bind (chain.bindPoints fun p hp => h p.1 (List.of_mem_zip hp).1 p.2) fun _ => ?_
    exact page fun d => chain.pure _

/-- A literal, from a given world on: what it compiles to there is all that matters. -/
theorem renderLiteral (chain : Chains R) {l : Literal} {out : Except TemplateError Value}
    {w w' : World} (hcompile : Passes R (compile f l))
    (h : ∀ source w₁, compile f l w = some (.ok source, w₁) →
      Passes R (c.container source values Markup.rootSlot source.tree.children))
    (hrun : renderLiteral f c l values w = some (out, w')) : R w w' := by
  unfold Render.renderLiteral at hrun
  split at hrun
  · exact chain.pure _ w out w' hrun
  · obtain ⟨outcome, w₁, hcompiled, hrest⟩ := run_of_bind hrun
    have hfirst := hcompile w outcome w₁ hcompiled
    cases outcome with
    | error e => exact chain.trans hfirst (chain.pure _ w₁ out w' hrest)
    | ok source =>
      obtain ⟨v, w₂, hcontainer, hpure⟩ := run_of_bind hrest
      have hsecond := h source w₁ hcompiled w₁ v w₂ hcontainer
      exact chain.trans hfirst (chain.trans hsecond (chain.pure _ w₂ out w' hpure))

end

end Chains

namespace Passage

variable {f : Factory}

/-! ### Signals -/

theorem readSignal (law : Passage f R) (name : String) : Passes R (readSignal name) := by
  intro w a w' hrun
  rw [run_readSignal] at hrun
  obtain ⟨-, rfl⟩ := by simpa using hrun
  exact law.read w name

theorem writeSignal (law : Passage f R) {c : Calls} (h : ∀ id, Passes R (c.effect id))
    (name : String) (code : Script) : Passes R (writeSignal c name code) :=
  law.written law.write h name code

theorem isolated (law : Passage f R) {act : Run α} (h : Passes R act) :
    Passes R (Render.untracked f act) := by
  rw [Render.untracked]
  split
  · exact h.untracked law.untracked
  · exact h

/-! ### Callbacks -/

section

variable {c : Calls}

theorem callFunc (law : Passage f R) (hc : c.Pass R) (fn : Func) (v : Value) :
    Passes R (callFunc c fn v) := by
  refine Chains.page fun d => law.bind (law.log _) fun _ => ?_
  rcases fn.result with _ | code
  · exact law.pure v
  · exact hc.build none code

theorem callBack (law : Passage f R) (hc : c.Pass R) (node : NodeId) (callback : Callback) :
    Passes R (callBack c node callback) := by
  cases callback with
  | ref label => exact Chains.page fun d => law.log _
  | func fn => exact law.discard (law.callFunc hc fn _)

theorem applySetter (law : Passage f R) (hc : c.Pass R) (node : NodeId) (setter : Setter)
    (name : String) (v : Value) : Passes R (applySetter f c node setter name v) :=
  law.toChains.applySetter fun callback _ => law.callBack hc node callback

/-! ### Runs of bindings -/

mutual

theorem nodesOf (law : Passage f R) (hc : c.Pass R) : ∀ v, Passes R (nodesOf c v)
  | .text _ => law.bind (law.onPage _) fun _ => law.pure _
  | .number _ => law.bind (law.onPage _) fun _ => law.pure _
  | .node _ => Chains.page fun _ => law.pure _
  | .list items => law.nodesOfAll hc items
  | .reactive r => law.bind (hc.read r) fun v => hc.nodes v
  | .empty => law.pure _
  | .bool _ => law.pure _
  | .handler _ => law.pure _
  | .ref _ => law.pure _
  | .func _ => law.pure _
  | .spread _ => law.pure _

theorem nodesOfAll (law : Passage f R) (hc : c.Pass R) : ∀ vs, Passes R (nodesOfAll c vs)
  | [] => law.pure _
  | v :: vs =>
    law.bind (law.nodesOf hc v) fun _ => law.bind (law.nodesOfAll hc vs) fun _ => law.pure _

end

theorem replaceContent (law : Passage f R) (hc : c.Pass R) (marker : NodeId) (current : List NodeId)
    (v : Value) : Passes R (replaceContent c marker current v) := by
  refine law.bind (law.changePage _) fun _ => law.bind (law.nodesOf hc v) fun nodes =>
    Chains.page fun d => ?_
  rcases d.parent? marker with _ | parent
  · exact law.pure _
  · exact law.bind (law.changePage _) fun _ => law.pure _

theorem updateContent (law : Passage f R) (hc : c.Pass R) (marker : NodeId) (current : List NodeId)
    (v : Value) : Passes R (updateContent c marker current v) := by
  refine Chains.page fun d => ?_
  split
  · exact law.bind (law.changePage _) fun _ => law.pure _
  · exact law.replaceContent hc marker current v

theorem applyEntries (law : Passage f R) (hc : c.Pass R) (node : NodeId) (shadowed : List String)
    (entries : Props) : Passes R (applyEntries f c node shadowed entries) := by
  induction entries with
  | nil => exact law.pure ()
  | cons p rest ih =>
    obtain ⟨name, e⟩ := p
    rw [Render.applyEntries]
    split
    · exact ih
    · refine law.bind (hc.resolve _) fun v => law.bind (law.applySetter hc _ _ _ _) fun _ => ih

theorem runBinding (law : Passage f R) (hc : c.Pass R) (b : Binding) :
    Passes R (runBinding f c b) := by
  refine Chains.look fun w => ?_
  split
  · exact law.pure b
  · match b with
    | .attribute node setter name reader =>
      exact law.bind (hc.resolve _) fun v =>
        law.bind (law.applySetter hc _ _ _ _) fun _ => law.pure _
    | .spread node shadowed reader =>
      refine law.bind (hc.resolve _) fun v => ?_
      cases v with
      | spread entries =>
        exact law.bind (law.applyEntries hc node shadowed entries) fun _ => law.pure _
      | _ => exact law.pure _
    | .content marker reader current =>
      exact law.bind (hc.resolve _) fun v =>
        law.bind (law.updateContent hc _ _ _) fun _ => law.pure _

theorem newBinding (law : Passage f R) (hc : c.Pass R) (b : Binding) :
    Passes R (newBinding f c b) := by
  rw [Render.newBinding]
  split
  · exact law.registered law.register hc.effect b
  · exact law.discard (law.runBinding hc b)

/-! ### Attributes and content -/

theorem bindValue (law : Passage f R) (hc : c.Pass R) (node : NodeId) (name : String) (v : Value) :
    Passes R (bindValue f c node name v) :=
  law.toChains.bindValue (law.newBinding hc) fun callback _ => law.callBack hc node callback

theorem bindTag (law : Passage f R) (hc : c.Pass R) (values : List Value) (node : NodeId)
    (t : Markup.Tag) :
    Passes R (bindTag f c values node t) :=
  law.toChains.bindTag (law.newBinding hc) fun _ _ p _ => law.bindValue hc node p.1 p.2

theorem insertValue (law : Passage f R) (hc : c.Pass R) (marker : NodeId) (v : Value) :
    Passes R (insertValue f c marker v) :=
  law.toChains.insertValue (law.newBinding hc) fun _ => law.nodesOf hc v

theorem mount (law : Passage f R) (hc : c.Pass R) (parent : NodeId) (v : Value) :
    Passes R (mount f c parent v) :=
  law.bind (law.onPage _) fun marker => law.bind (law.changePage _) fun _ =>
    law.insertValue hc marker v

/-! ### Components and containers -/

theorem attrProps (law : Passage f R) (hc : c.Pass R) (values : List Value) (ps : Props)
    (a : Markup.Attr) : Passes R (attrProps c values ps a) := by
  cases a with
  | spread i =>
    refine law.bind (hc.resolve _) fun v => ?_
    cases v with
    | spread entries => exact law.pure _
    | _ => exact law.pure _
  | _ => exact law.pure _

theorem attrsProps (law : Passage f R) (hc : c.Pass R) (values : List Value) (ps : Props)
    (attrs : List Markup.Attr) : Passes R (attrsProps c values ps attrs) := by
  induction attrs generalizing ps with
  | nil => exact law.pure ps
  | cons a rest ih => exact law.bind (law.attrProps hc values ps a) fun ps => ih ps

theorem componentProps (law : Passage f R) (hc : c.Pass R) (source : Compiled) (values : List Value)
    (t : Markup.Tag) (children : List Markup.Node) :
    Passes R (componentProps c source values t children) := by
  refine law.bind (law.attrsProps hc values [] t.attrs) fun ps => ?_
  split
  · exact law.pure _
  · exact law.pure _

/-- What a component does before it is left again. -/
theorem component (law : Passage f R) (hc : c.Pass R) (source : Compiled) (values : List Value)
    (t : Markup.Tag) (children : List Markup.Node) (body : Script) : Passes R (do
      let ps ← Render.componentProps c source values t children
      Render.log (.invoked t.name)
      c.build (some ps) body) :=
  law.bind (law.componentProps hc source values t children) fun ps =>
    law.bind (law.log _) fun _ => hc.build (some ps) body

theorem invoke (law : Passage f R) (hc : c.Pass R) (source : Compiled) (values : List Value)
    (t : Markup.Tag) (children : List Markup.Node) :
    Passes R (invoke f c source values t children) := by
  unfold Render.invoke
  split
  · exact law.pure _
  · exact law.isolated (law.component hc source values t children _)

theorem bindPoint (law : Passage f R) (hc : c.Pass R) (source : Compiled) (values : List Value)
    (node : NodeId) (point : Point) : Passes R (bindPoint f c source values node point) := by
  cases point with
  | hole i => exact law.insertValue hc node _
  | element tag => exact law.bindTag hc values node tag
  | component tag children =>
    exact law.bind (law.invoke hc source values tag children) fun v => law.insertValue hc node v

theorem renderContainer (law : Passage f R) (hc : c.Pass R) (source : Compiled)
    (values : List Value) (slot : Nat) (nodes : List Markup.Node) :
    Passes R (renderContainer f c source values slot nodes) :=
  law.toChains.renderContainer (law.invoke hc source values) slot fun point _ node =>
    law.bindPoint hc source values node point

theorem renderLiteral (law : Passage f R) (hc : c.Pass R) (l : Literal) (values : List Value) :
    Passes R (renderLiteral f c l values) := fun _ _ _ hrun =>
  law.toChains.renderLiteral (law.compile l) (fun source _ _ => hc.container source values _ _) hrun

theorem renderNamed (law : Passage f R) (hc : c.Pass R) (literal : String) (values : List Value) :
    Passes R (renderNamed f c literal values) := by
  refine Chains.look fun w => ?_
  split
  · exact law.renderLiteral hc _ values
  · exact law.pure _

/-! ### Scripts -/

theorem entryValue (law : Passage f R) (hc : c.Pass R) (e : Entry) : Passes R (entryValue c e) := by
  cases e with
  | immediate v => exact law.pure v
  | reactive r => exact hc.read r

theorem propValue (law : Passage f R) (hc : c.Pass R) (ps : Props) (name : String) :
    Passes R (propValue c ps name) := by
  rw [Render.propValue]
  split
  · exact law.entryValue hc _
  · exact law.pure _

theorem listProps (law : Passage f R) (hc : c.Pass R) (ps : Props) : Passes R (listProps c ps) := by
  induction ps with
  | nil => exact law.pure _
  | cons p rest ih =>
    exact law.bind (law.entryValue hc p.2) fun v => Chains.page fun d =>
      law.bind ih fun _ => law.pure _

mutual

theorem buildScript (law : Passage f R) (hc : c.Pass R) (env : Option Props) :
    ∀ code, Passes R (buildScript f c env code)
  | .empty => law.pure _
  | .bool _ => law.pure _
  | .number _ => law.pure _
  | .text _ => law.pure _
  | .list items => law.bind (law.buildScripts hc env items) fun _ => law.pure _
  | .handler _ _ => law.pure _
  | .ref _ => law.pure _
  | .func _ _ => law.pure _
  | .signal _ => law.pure _
  | .later _ => law.pure _
  | .peek name => law.bind (law.readSignal name) fun code => hc.build none code
  | .choose name yes no => by
    rw [Render.buildScript]
    refine law.bind (law.readSignal name) fun code => ?_
    split
    · exact law.buildScript hc env yes
    · exact law.buildScript hc env no
  | .write name value next => by
    rw [Render.buildScript]
    exact law.bind (law.writeSignal hc.effect name value) fun _ => law.buildScript hc env next
  | .note line next => by
    rw [Render.buildScript]
    exact law.bind (law.log _) fun _ => law.buildScript hc env next
  | .join pieces => by
    rw [Render.buildScript]
    exact law.bind (law.joinScripts hc env pieces) fun _ => law.pure _
  | .spread entries => by
    rw [Render.buildScript]
    exact law.bind (law.buildEntries hc env [] entries) fun _ => law.pure _
  | .element name children => by
    rw [Render.buildScript]
    exact law.bind (law.onPage _) fun id => law.bind (law.buildInto hc env id children) fun _ =>
      law.pure _
  | .fragment children => by
    rw [Render.buildScript]
    exact law.bind (law.onPage _) fun id => law.bind (law.buildInto hc env id children) fun _ =>
      law.pure _
  | .comment _ => law.bind (law.onPage _) fun _ => law.pure _
  | .stored name => law.storedValue name
  | .container name => law.bind (law.named name) fun _ => law.pure _
  | .html literal values => by
    rw [Render.buildScript]
    exact law.bind (law.buildScripts hc env values) fun vs =>
      law.bind (law.renderNamed hc literal vs) fun _ => law.pure _
  | .prop name => by
    unfold Render.buildScript
    split
    · exact law.propValue hc _ name
    · exact law.pure _
  | .hasProp name => by
    unfold Render.buildScript
    split
    · exact law.pure _
    · exact law.pure _
  | .children => by
    unfold Render.buildScript
    split
    · exact law.propValue hc _ _
    · exact law.pure _
  | .dump => by
    unfold Render.buildScript
    split
    · exact law.bind (law.listProps hc _) fun _ => law.bind (law.log _) fun _ => law.pure _
    · exact law.pure _
  | .call name argument => by
    unfold Render.buildScript
    split
    · refine law.bind (law.propValue hc _ name) fun v => law.bind (hc.resolve v) fun v => ?_
      split
      · exact law.bind (law.buildScript hc _ argument) fun a => law.callFunc hc _ a
      · exact law.pure _
    · exact law.pure _

theorem buildScripts (law : Passage f R) (hc : c.Pass R) (env : Option Props) :
    ∀ codes, Passes R (buildScripts f c env codes)
  | [] => law.pure _
  | code :: rest => by
    rw [Render.buildScripts]
    exact law.bind (law.buildScript hc env code) fun _ =>
      law.bind (law.buildScripts hc env rest) fun _ => law.pure _

theorem joinScripts (law : Passage f R) (hc : c.Pass R) (env : Option Props) :
    ∀ codes, Passes R (joinScripts f c env codes)
  | [] => law.pure _
  | code :: rest => by
    rw [Render.joinScripts]
    exact law.bind (law.buildScript hc env code) fun v => law.bind (hc.resolve v) fun _ =>
      law.bind (law.joinScripts hc env rest) fun _ => law.pure _

theorem buildEntries (law : Passage f R) (hc : c.Pass R) (env : Option Props) :
    ∀ ps entries, Passes R (buildEntries f c env ps entries)
  | _, [] => law.pure _
  | ps, (name, true, code) :: rest => by
    rw [Render.buildEntries]
    exact law.buildEntries hc env _ rest
  | ps, (name, false, code) :: rest => by
    rw [Render.buildEntries]
    exact law.bind (law.buildScript hc env code) fun _ => law.buildEntries hc env _ rest

theorem buildInto (law : Passage f R) (hc : c.Pass R) (env : Option Props) (parent : NodeId) :
    ∀ codes, Passes R (buildInto f c env parent codes)
  | [] => law.pure _
  | code :: rest => by
    rw [Render.buildInto]
    exact law.bind (law.buildScript hc env code) fun v => law.bind (law.nodeFor v) fun _ =>
      law.bind (law.changePage _) fun _ => law.buildInto hc env parent rest

end

/-! ### Levels -/

theorem joinPieces (law : Passage f R) (hc : c.Pass R) (pieces : List Value) :
    Passes R (joinPieces c pieces) := by
  induction pieces with
  | nil => exact law.pure _
  | cons v rest ih => exact law.bind (hc.resolve v) fun _ => law.bind ih fun _ => law.pure _

theorem readReader (law : Passage f R) (hc : c.Pass R) (r : Reader) :
    Passes R (readReader c r) := by
  cases r with
  | script props code => exact hc.build props code
  | signal name => exact law.bind (law.readSignal name) fun code => hc.build none code
  | join pieces => exact law.bind (law.joinPieces hc pieces) fun _ => law.pure _
  | children source values slot nodes => exact hc.container source values slot nodes

theorem resolveValue (law : Passage f R) (hc : c.Pass R) (v : Value) :
    Passes R (resolveValue c v) := by
  cases v with
  | reactive r => exact law.bind (hc.read r) fun v => hc.resolve v
  | _ => exact law.pure _

theorem runEffect (law : Passage f R) (hc : c.Pass R) (id : Nat) : Passes R (runEffect f c id) :=
  law.execute (law.runBinding hc) law.run id

/-- Every part of the renderer passes to a related world, however deep it goes. -/
theorem calls (law : Passage f R) (n : Nat) : (machine f n).Pass R := by
  induction n with
  | zero => exact ⟨fun _ _ => .failure, fun _ => .failure, fun _ => .failure, fun _ => .failure,
      fun _ _ _ _ => .failure, fun _ => .failure⟩
  | succ n hc => exact ⟨law.buildScript hc, law.readReader hc, law.resolveValue hc, law.nodesOf hc,
      law.renderContainer hc, law.runEffect hc⟩

/-! ### Events and sessions -/

theorem runHandler (law : Passage f R) (hc : c.Pass R) (h : Handler) (e : Document.Event) :
    Passes R (runHandler c h e) := by
  refine Chains.page fun d => law.bind (law.log _) fun _ => ?_
  rcases h.assigns with _ | ⟨name, code⟩
  · exact law.pure ()
  · exact law.writeSignal hc.effect name code

theorem runAction (law : Passage f R) (hc : c.Pass R) (a : Action) (e : Document.Event) :
    Passes R (runAction c a e) := by
  cases a with
  | handler h => exact law.runHandler hc h e
  | read r => exact law.discard (hc.read r)
  | call fn => exact law.discard (law.callFunc hc fn _)

theorem runListeners (law : Passage f R) (hc : c.Pass R) (e : Document.Event)
    (ls : List (Document.Listener Action)) :
    Passes R (Document.runListeners (Render.runAction c) e ls) := by
  induction ls with
  | nil => exact law.pure ()
  | cons l rest ih => exact law.bind (law.runAction hc l.handler e) fun _ => ih

theorem visit (law : Passage f R) (hc : c.Pass R) (name : String) (target : NodeId)
    (ids : List NodeId) :
    Passes R (Document.visit page (Render.runAction c) name target ids) := by
  induction ids with
  | nil => exact law.pure _
  | cons id rest ih =>
    exact Chains.page fun d => law.bind (law.runListeners hc _ _) fun _ =>
      law.bind ih fun _ => law.pure _

theorem dispatch (law : Passage f R) (hc : c.Pass R) (target : NodeId) (event : String) :
    Passes R (dispatch c target event) :=
  Chains.page fun _ => law.visit hc event target _

theorem mountIn (law : Passage f R) (hc : c.Pass R) (name : String) (v : Value) :
    Passes R (mountIn f c name v) := by
  refine law.bind (law.named name) fun parent => Chains.look fun w => ?_
  split
  · exact law.bind (law.mount hc parent v) fun _ => law.pure _
  · exact law.pure _

theorem atPlace (law : Passage f R) (place : Place) {act : NodeId → Run Answer}
    (h : ∀ id, Passes R (act id)) : Passes R (atPlace place act) := by
  have hnode : Passes R (nodeAt place) :=
    law.bind (law.named place.container) fun _ => Chains.page fun _ => law.pure _
  refine law.bind hnode fun o => ?_
  cases o with
  | none => exact law.pure _
  | some id => exact h id

/-- So does every step of a session. -/
theorem perform (law : Passage f R) (hc : c.Pass R) (step : Step) :
    Passes R (perform f c step) := by
  cases step with
  | render literal values name =>
    refine law.bind (law.buildScripts hc none values) fun vs => ?_
    refine law.bind (law.renderNamed hc literal vs) fun out => ?_
    cases out with
    | error e => exact law.pure _
    | ok v => exact law.bind (law.store name v) fun _ => Chains.page fun _ => law.pure _
  | display literal values name =>
    refine law.bind (law.buildScripts hc none values) fun vs => ?_
    refine law.bind (law.renderNamed hc literal vs) fun out => ?_
    cases out with
    | error e => exact law.pure _
    | ok v => exact law.mountIn hc name v
  | mount value name =>
    exact law.bind (law.buildScript hc none value) fun v => law.mountIn hc name v
  | evaluate value name =>
    exact law.bind (law.buildScript hc none value) fun v =>
      law.bind (law.store name v) fun _ => Chains.page fun _ => law.pure _
  | set name value => exact law.bind (law.writeSignal hc.effect name value) fun _ => law.pure _
  | compile literal =>
    refine Chains.look fun w => ?_
    split
    · refine law.bind (law.compile _) fun out => ?_
      cases out with
      | error e => exact law.pure _
      | ok source => exact Chains.page fun _ => law.pure _
    · exact law.pure _
  | statistics => exact Chains.look fun _ => law.pure _
  | find name element => exact law.bind (law.named name) fun _ => Chains.page fun _ => law.pure _
  | dispatch place event =>
    exact law.atPlace place fun id => law.bind (law.dispatch hc id event) fun _ => law.pure _
  | textContent place => exact law.atPlace place fun id => Chains.page fun _ => law.pure _
  | remove place =>
    exact law.atPlace place fun id => law.bind (law.changePage _) fun _ => law.pure _
  | inspect place props events => exact law.atPlace place fun id => Chains.page fun _ => law.pure _
  | drop =>
    intro w a w' hrun
    have heq : Render.perform f c .drop w = some (.done, { w with live := false }) := rfl
    obtain ⟨-, rfl⟩ := by simpa using heq.symm.trans hrun
    exact law.aside rfl rfl

end

end Passage
end Stencil.Render
