/-
  Stencil/Proofs/Render/Sessions.lean
  ===================================
  **Steps of a session keep the colours apart.**

  A step acts for the application as a whole, so it is of the colour `base`: what it
  builds, renders and stores is.  But it may bring an event to a node of another colour,
  and then the listeners run in the colour of their elements.
-/
import Stencil.Proofs.Document.Reachable
import Stencil.Proofs.Render.Palette
import Stencil.Render.Session

namespace Stencil.Render

open Document

variable {ι : Type} {f : Factory} {P : Palette f ι}

/-- A step whose code belongs to `base`, and that sets signals to what they may hold. -/
def Palette.Allows (P : Palette f ι) : Step → Prop
  | .render _ values _ => ∀ code ∈ values, P.code P.base code
  | .display _ values _ => ∀ code ∈ values, P.code P.base code
  | .mount value _ => P.code P.base value
  | .evaluate value _ => P.code P.base value
  | .set name value => ∀ i, P.signal i name → P.code i value
  | _ => True

theorem mem_listenersFor {d : Page} {id : NodeId} {event : String} {l : Listener Action}
    (h : l ∈ d.listenersFor id event) : ∃ e, d.element? id = some e ∧ l ∈ e.listeners := by
  rw [listenersFor] at h
  rcases he : d.element? id with _ | e
  · simp [he] at h
  · rw [he] at h
    exact ⟨e, rfl, (List.mem_filter.mp h).1⟩

/-- An operation on nodes that are allowed, with values and listeners that are. -/
def OperationWithin (b : Bounds) : Operation Value Action → Prop
  | .make node => ∀ id, node.source? = some id → b.node id
  | .change id how => b.node id ∧ (∀ child, how.child? = some child → b.node child) ∧
      ∀ name v, how = .setProperty name v → v.Within b
  | .remove id => b.node id
  | .listen id l => b.node id ∧ l.handler.Within b

/-- The node that an operation makes, if it makes one, as a value. -/
def madeBy (d : Page) : Operation Value Action → List Value
  | .make node => [.node (node.build d).1]
  | _ => []

theorem OperationWithin.mono {b b' : Bounds} (hle : b.Le b') {o : Operation Value Action}
    (h : OperationWithin b o) : OperationWithin b' o := by
  cases o with
  | make node => exact fun id hid => hle.node _ (h id hid)
  | change id how => exact ⟨hle.node _ h.1, fun child hchild => hle.node _ (h.2.1 child hchild),
      fun name v hv => (h.2.2 name v hv).mono hle⟩
  | remove id => exact hle.node _ h
  | listen id l => exact ⟨hle.node _ h.1, h.2.mono hle⟩

namespace Coloured

variable {c c' : Calls} {i j : ι} {s : Coloured P}

/-! ### Events -/

theorem runHandler_does (law : (regime P).Lawful f) (hc : (regime P).Serves c c') {h : Handler}
    (hh : h.Within (P.bounds s.colouring s.world j)) (e : Event) :
    (regime P).Does P.base s (runHandler c h e) (runHandler c' h e) fun _ _ => True := by
  refine .page ((law.log P.base s _).bind law fun _ s' _ _ => ?_)
  rcases hassigns : h.assigns with _ | a
  · exact .pure law trivial
  · exact hc.runs.write P.base s' a.1 a.2 .empty (P.sets a.1 a.2 (hh a hassigns))

/-- A listener of any colour may run. -/
theorem runAction_does (law : (regime P).Lawful f) (hc : (regime P).Serves c c') {a : Action}
    (ha : a.Within (P.bounds s.colouring s.world j)) (e : Event) :
    (regime P).Does P.base s (runAction c a e) (runAction c' a e) fun _ _ => True := by
  cases a with
  | handler h => exact runHandler_does law hc ha e
  | read r => exact Does.shift ((hc.read j s r ha).discard law) P.loud
  | call fn => exact Does.shift ((Regime.callFunc_does law hc ha (.text _)).discard law) P.loud

theorem runListeners_does (law : (regime P).Lawful f) (hc : (regime P).Serves c c')
    {ls : List (Listener Action)} (hls : ∀ l ∈ ls,
      l.handler.Within (P.bounds s.colouring s.world j))
    (e : Event) : (regime P).Does P.base s (runListeners (runAction c) e ls)
      (runListeners (runAction c') e ls) fun _ _ => True := by
  induction ls generalizing s with
  | nil => exact .pure law trivial
  | cons l rest ih =>
    obtain ⟨hl, hrest⟩ := List.forall_mem_cons.mp hls
    refine (runAction_does law hc hl e).bind law fun _ s' hnext _ => ?_
    exact ih fun l hl => (hrest l hl).mono (law.mono P.base j s s' hnext)

/-- An event at nodes that have a colour; each has its own. -/
theorem visit_does (law : (regime P).Lawful f) (hc : (regime P).Serves c c') {ids : List NodeId}
    (hids : ∀ id ∈ ids, s.colouring.colour id ≠ none) (name : String) (target : NodeId) :
    (regime P).Does P.base s (visit page (runAction c) name target ids)
      (visit page (runAction c') name target ids) fun _ _ => True := by
  induction ids generalizing s with
  | nil => exact .pure law trivial
  | cons id rest ih =>
    obtain ⟨hid, hrest⟩ := List.forall_mem_cons.mp hids
    obtain ⟨j, hj⟩ := Option.ne_none_iff_exists'.mp hid
    rw [visit, visit]
    refine .page ?_
    have hls : ∀ l ∈ s.world.page.listenersFor id name,
        l.handler.Within (P.bounds s.colouring s.world j) := by
      intro l hl
      obtain ⟨e, he, hmem⟩ := mem_listenersFor hl
      exact (s.tinted.elements id j e hj he).2 l hmem
    refine (runListeners_does law hc hls _).bind law fun _ s' hnext _ => ?_
    refine (ih fun x hx => ?_).bind law fun _ _ _ _ => .pure law trivial
    obtain ⟨k, hk⟩ := Option.ne_none_iff_exists'.mp (hrest x hx)
    simp [Later.some hnext hk]

/-- The ancestors of a node that has a colour have one. -/
theorem lineage_coloured {id : NodeId} (h : s.colouring.colour id ≠ none) :
    ∀ x ∈ s.world.page.lineage id, s.colouring.colour x ≠ none := by
  rw [lineage]
  generalize s.world.page.size + 1 = n
  induction n generalizing id with
  | zero => exact fun x hx => absurd hx List.not_mem_nil
  | succ n ih =>
    rw [lineageUpTo]
    rcases hp : s.world.page.parent? id with _ | p
    · exact List.forall_mem_singleton.mpr h
    · exact List.forall_mem_cons.mpr ⟨h, ih (s.tinted.ne_none_of_parent h hp)⟩

theorem dispatch_does (law : (regime P).Lawful f) (hc : (regime P).Serves c c') {target : NodeId}
    (htarget : s.colouring.colour target ≠ none) (event : String) :
    (regime P).Does P.base s (dispatch c target event) (dispatch c' target event) fun _ _ => True :=
  .page (visit_does law hc (lineage_coloured htarget) event target)

/-! ### Operations -/

/-- The application changes nodes of one colour by its own hand. -/
theorem operate_does {o : Operation Value Action}
    (ho : OperationWithin (P.bounds s.colouring s.world i) o) :
    ∃ s' : Coloured P, s'.world = { s.world with page := o.apply s.world.page } ∧ Later i s s' ∧
      ∀ v ∈ madeBy s.world.page o, v.Within (P.bounds s'.colouring s'.world i) := by
  have hmade {node : Blueprint} {Q : NodeId → Coloured P → Prop}
      (h : (regime P).Does i s (onPage (node.build ·)) (onPage (node.build ·)) Q)
      (hQ : ∀ id s', Q id s' → s'.colouring.colour id = some i) :
      ∃ s' : Coloured P,
        s'.world = { s.world with page := (Operation.make node).apply s.world.page } ∧
        Later i s s' ∧ ∀ v ∈ madeBy s.world.page (.make node),
          v.Within (P.bounds s'.colouring s'.world i) := by
    obtain ⟨s', hworld, hlater, hid⟩ := h.exists_next (run_onPage _ s.world)
    exact ⟨s', hworld, hlater, List.forall_mem_singleton.mpr (.node (hQ _ s' hid))⟩
  have hchanged {act : Page → Page}
      (h : (regime P).Does i s (changePage act) (changePage act) fun _ _ => True) :
      ∃ s' : Coloured P, s'.world = { s.world with page := act s.world.page } ∧ Later i s s' ∧
        ∀ v ∈ ([] : List Value), v.Within (P.bounds s'.colouring s'.world i) := by
    obtain ⟨s', hworld, hlater, -⟩ := h.exists_next (run_changePage act s.world)
    exact ⟨s', hworld, hlater, fun v hv => absurd hv List.not_mem_nil⟩
  have hplain {id : NodeId} (hid : s.colouring.colour id = some i)
      (change : Attributes → Attributes) :=
    hchanged (does_updateElement hid (fun e =>
      { e with attributes := change e.attributes }) fun _ he => he)
  cases o with
  | make node =>
    cases node with
    | copy id =>
      have hlt := s.tinted.made id (by simp [show s.colouring.colour id = some i from ho id rfl])
      exact hmade (does_copy hlt) fun _ _ h => h.1.1
    | element name space =>
      exact hmade (does_create (.element ⟨name, space, [], [], []⟩) fun e he =>
        Content.element.inj he ▸ ⟨rfl, rfl⟩) fun _ _ h => h
    | text value => exact hmade (does_create (.text value) fun e he => by cases he) fun _ _ h => h
    | comment value =>
      exact hmade (does_create (.comment value) fun e he => by cases he) fun _ _ h => h
    | fragment => exact hmade (does_create .fragment fun e he => by cases he) fun _ _ h => h
  | change id how =>
    obtain ⟨hid, hchild, hvalue⟩ := ho
    cases how with
    | append child => exact hchanged (does_insert none (Or.inl hid) (hchild child rfl))
    | insert child reference =>
      exact hchanged (does_insert reference (Or.inl hid) (hchild child rfl))
    | setText value => exact hchanged (does_setText hid value)
    | setAttribute space name value => exact hplain hid fun as => setAttribute as space name value
    | removeAttribute name => exact hplain hid fun as => removeAttribute as name
    | setProperty name v =>
      exact hchanged (does_updateElement hid
        (fun e => { e with properties := setPropertyIn e.properties name v }) fun e he =>
          ⟨Setter.within_setPropertyIn he.1 name (hvalue name v rfl), he.2⟩)
    | toggleClass name on => exact hplain hid fun as => toggleClass as name on
    | setStyle property value => exact hplain hid fun as => setStyle as property value
  | remove id => exact hchanged (does_detach ho)
  | listen id l =>
    exact hchanged
      (does_updateElement ho.1 (fun e => { e with listeners := e.listeners ++ [l] }) fun e he =>
      ⟨he.1, List.forall_mem_append.mpr ⟨he.2, List.forall_mem_singleton.mpr ho.2⟩⟩)

/-! ### Steps -/

theorem store_does (law : (regime P).Lawful f) {name : Option String} {v : Value}
    (hv : v.Within (P.bounds s.colouring s.world P.base)) :
    (regime P).Does i s (store name v) (store name v) fun _ _ => True := by
  cases name with
  | none => exact .pure law trivial
  | some name =>
    refine .of_run (fun _ => rfl) fun a w' hrun => ?_
    have heq : store (some name) v s.world = some ((), { s.world with
      stored := (name, v) :: s.world.stored.filter (·.1 != name) }) := rfl
    obtain ⟨-, rfl⟩ := by simpa using heq.symm.trans hrun
    have h := s.tinted
    have hstored : Tinted P s.colouring { s.world with
        stored := (name, v) :: s.world.stored.filter (·.1 != name) } := by
      refine ⟨h.forest, h.sorted, h.made, h.closed, h.held, h.elements, h.effects, ?_, h.containers,
        h.cached⟩
      refine List.forall_mem_cons.mpr ⟨hv, fun p hp => ?_⟩
      exact h.stored p (List.mem_filter.mp hp).1
    refine ⟨⟨_, _, hstored⟩, rfl, ?_, trivial⟩
    exact ⟨Nat.le_refl _, fun _ _ => rfl, fun _ => Iff.rfl, fun _ _ _ => rfl, fun _ hp => hp⟩

theorem mountIn_does (law : (regime P).Lawful f) (hc : (regime P).Serves c c') (name : String)
    {v : Value} (hv : v.Within (P.bounds s.colouring s.world P.base)) :
    (regime P).Does P.base s (mountIn f c name v) (mountIn f c' name v) fun _ _ => True := by
  refine (does_container name).bind law fun id s' hnext hid => .look_same (fun _ => rfl) ?_
  split
  · refine (Regime.mount_does law hc (Or.inl hid)
      (hv.mono (law.mono P.base P.base s s' hnext))).bind law
      fun _ _ _ _ => .pure law trivial
  · exact .pure law trivial

/-- The end of a path from a node that has a colour has one. -/
theorem follow_coloured {path : List Nat} {id x : NodeId} (h : s.colouring.colour id ≠ none)
    (hx : follow s.world.page id path = some x) : s.colouring.colour x ≠ none := by
  induction path generalizing id with
  | nil => exact Option.some.inj hx ▸ h
  | cons k path ih =>
    rw [follow] at hx
    split at hx
    · rename_i child hchild
      exact ih (s.tinted.ne_none_of_child h (List.mem_of_getElem? hchild)) hx
    · cases hx

theorem atPlace_does (law : (regime P).Lawful f) (place : Place) {act act' : NodeId → Run Answer}
    (hact : ∀ s' : Coloured P, ∀ id, s'.colouring.colour id ≠ none →
      (regime P).Does P.base s' (act id) (act' id) fun _ _ => True) :
    (regime P).Does P.base s (atPlace place act) (atPlace place act') fun _ _ => True := by
  have hnode : (regime P).Does P.base s (nodeAt place) (nodeAt place) fun o s' =>
      ∀ id, o = some id → s'.colouring.colour id ≠ none := by
    refine (does_container place.container).bind law fun id s' _ hid => .page (.pure law ?_)
    intro x hx
    exact follow_coloured (by simp [hid]) hx
  refine hnode.bind law fun o s' _ ho => ?_
  cases o with
  | none => exact .pure law trivial
  | some id => exact hact s' id (ho id rfl)

/-- Whatever a session does, the colours are kept apart. -/
theorem perform_does (law : (regime P).Lawful f) (hc : (regime P).Serves c c') {step : Step}
    (hstep : P.Allows step) :
    (regime P).Does P.base s (perform f c step) (perform f c' step) fun _ _ => True := by
  have henv (b : Bounds) : Regime.EnvWithin b none := fun ps hps => by cases hps
  cases step with
  | render literal values name =>
    refine (Regime.buildScripts_does law hc (henv _) hstep).bind law fun vs s₁ _ hvs => ?_
    refine (Regime.renderNamed_does law hc hvs (P.literal_base literal)).bind law
      fun out s₂ _ hout => ?_
    cases out with
    | error e => exact .pure law trivial
    | ok v =>
      exact (store_does law (hout v rfl)).bind law fun _ _ _ _ => .page (.pure law trivial)
  | display literal values name =>
    refine (Regime.buildScripts_does law hc (henv _) hstep).bind law fun vs s₁ _ hvs => ?_
    refine (Regime.renderNamed_does law hc hvs (P.literal_base literal)).bind law
      fun out s₂ _ hout => ?_
    cases out with
    | error e => exact .pure law trivial
    | ok v => exact mountIn_does law hc name (hout v rfl)
  | mount value name =>
    refine (Regime.buildScript_does law hc (henv _) hstep).bind law fun v s' _ hv => ?_
    exact mountIn_does law hc name hv
  | evaluate value name =>
    refine (Regime.buildScript_does law hc (henv _) hstep).bind law fun v s' _ hv => ?_
    exact (store_does law hv).bind law fun _ _ _ _ => .page (.pure law trivial)
  | set name value =>
    exact (hc.runs.write P.base s name value .empty (P.sets name value hstep)).bind law
      fun _ _ _ _ => .pure law trivial
  | compile literal =>
    refine .look_same (fun _ => rfl) ?_
    split
    · refine (does_compile (P.literal_base literal)).bind law fun out s' _ _ => ?_
      cases out with
      | error e => exact .pure law trivial
      | ok source => exact .page (.pure law trivial)
    · exact .pure law trivial
  | statistics => exact .look_same (fun _ => rfl) (.pure law trivial)
  | find name element =>
    exact (does_container name).bind law fun _ _ _ _ => .page (.pure law trivial)
  | dispatch place event =>
    refine atPlace_does law place fun s' id hid => ?_
    exact (dispatch_does law hc hid event).bind law fun _ _ _ _ => .pure law trivial
  | textContent place => exact atPlace_does law place fun s' id _ => .page (.pure law trivial)
  | remove place =>
    refine atPlace_does law place fun s' id hid => ?_
    obtain ⟨j, hj⟩ := Option.ne_none_iff_exists'.mp hid
    have hdetach : (regime P).Does P.base s' (changePage (·.detach id)) (changePage (·.detach id))
        fun _ _ => True := Does.shift (does_detach hj) P.loud
    exact hdetach.bind law fun _ _ _ _ => .pure law trivial
  | inspect place props events =>
    exact atPlace_does law place fun s' id _ => .page (.pure law trivial)
  | drop =>
    refine .of_run (fun _ => rfl) fun a w' hrun => ?_
    have heq : perform f c .drop s.world = some (.done, { s.world with live := false }) := rfl
    obtain ⟨-, rfl⟩ := by simpa using heq.symm.trans hrun
    have h := s.tinted
    refine ⟨⟨{ s.world with live := false }, s.colouring,
      ⟨h.forest, h.sorted, h.made, h.closed, h.held, h.elements, h.effects, h.stored, h.containers,
        h.cached⟩⟩, rfl, ?_, trivial⟩
    exact ⟨Nat.le_refl _, fun _ _ => rfl, fun _ => Iff.rfl, fun _ _ _ => rfl, fun _ hp => hp⟩

end Coloured
end Stencil.Render
