/-
  Stencil/Proofs/Render/Listening.lean
  ====================================
  **Listeners that a spread adds over and over.**

  The entries of a spread that is a reader are applied by each run of its effect.  Applying
  a value again under most names puts it in the place of what was there; under the name of
  an event it adds one more listener, and nothing ever takes a listener away.

  So the listeners that an element has on account of the spread are those of the first run
  and of every run since, in order (`bindSpread_listeners`): an event that the entries always
  bind to one handler is handled once more after each run, by the handlers of all runs so far.
-/
import Stencil.Proofs.Render.Routine
import Stencil.Proofs.Render.Spread

namespace Stencil

/-- The listeners that a setter adds. -/
def Setter.added (config : Config) (s : Setter) (name : String) (v : Value) :
    List (Document.Listener Action) :=
  match s with
  | event => (action? v).toList.map fun a => ⟨name, a, config.delegated.contains name⟩
  | _ => []

theorem Setter.added_eq_nil {config : Config} {s : Setter} {name : String} {v : Value}
    (h : action? v = none) : s.added config name v = [] := by
  cases s <;> simp [added, h]

/-- A built-in setter takes no listener away. -/
theorem Setter.listeners_write {s : Setter} (h : s.isBuiltIn = true) (config : Config)
    (name : String) (v : Value) (e : ElementState) :
    (s.write config name v e).listeners = e.listeners ++ s.added config name v := by
  have hattribute (space : Option String) (name : String) (v : Value) :
      (writeAttribute space name v e).listeners = e.listeners := by
    rw [writeAttribute]
    cases content v <;> rfl
  cases s with
  | event =>
    rw [write, writeListener, added]
    cases action? v with
    | none => exact (List.append_nil _).symm
    | some a => rfl
  | plain => exact (hattribute none name v).trans (List.append_nil _).symm
  | presence => exact (hattribute none name _).trans (List.append_nil _).symm
  | xlink => exact (hattribute _ _ v).trans (List.append_nil _).symm
  | xml => exact (hattribute _ _ v).trans (List.append_nil _).symm
  | style =>
    simp only [write, writeStyle, added, List.append_nil]
    split
    · rfl
    · cases content v <;> rfl
  | property => exact (List.append_nil _).symm
  | ref => exact (List.append_nil _).symm
  | className => exact (List.append_nil _).symm
  | custom apply => cases h

namespace Render

open Document Markup

variable {f : Factory} {n : Nat}

/-! ### One run -/

/-- The listeners that an entry adds when it is applied.  What has to be read is nothing that can
    be run. -/
def tied (f : Factory) (p : String × Entry) : List (Listener Action) :=
  if p.2.toValue.isReactive then []
  else (f.policy.resolve p.1).1.setter.added f.config (f.policy.resolve p.1).2 p.2.toValue

/-- The listeners that entries add. -/
def tiedAll (f : Factory) (ps : Props) : List (Listener Action) := ps.flatMap (tied f)

/-- All entries applied. -/
theorem applyEntries_listeners (hpolicy : f.policy = .usual) {m : Nat} (hm : 3 * n + 2 ≤ m)
    {w : World} {id : NodeId} {ps : Props} {reads : List String} {el : ElementState}
    (h : tellApplied f w.held n ps = some reads) (hforest : w.page.IsForest)
    (helement : w.page.element? id = some el) :
    ∃ w' el', applyEntries f (machine f m) id [] ps w = some ((), w') ∧ Applied w w' id el' reads ∧
      el'.listeners = el.listeners ++ tiedAll f ps := by
  induction ps generalizing w reads el with
  | nil =>
    obtain rfl := Option.some.inj h
    exact ⟨w, el, rfl, ⟨Stirs.refl w, hforest, Nat.le_refl _, helement⟩, (List.append_nil _).symm⟩
  | cons p ps ih =>
    obtain ⟨name, e⟩ := p
    rw [tellApplied] at h
    obtain ⟨first, hfirst, h⟩ := Option.bind_eq_some_iff.mp h
    obtain ⟨more, hmore, h⟩ := Option.bind_eq_some_iff.mp h
    obtain rfl := Option.some.inj h
    obtain ⟨w₁, w₂, v, hresolve, happly, happlied, -, hstill, hread⟩ :=
      applyEntry_applied hm hfirst hforest helement
    have hheld := happlied.stirs.held
    obtain ⟨w', el', hrest, happlied', hlisteners⟩ :=
      ih (hheld.symm ▸ hmore) happlied.forest happlied.element
    have hbuiltin : (f.policy.resolve name).1.setter.isBuiltIn = true := by
      rw [hpolicy]
      exact Setter.isBuiltIn_usual name
    have hadded : (f.policy.resolve name).1.setter.added f.config (f.policy.resolve name).2 v =
        tied f (name, e) := by
      rw [tied]
      split
      · rename_i hreactive
        exact Setter.added_eq_nil (hread hreactive)
      · rename_i hreactive
        rw [hstill (Bool.eq_false_iff.mpr hreactive)]
    refine ⟨w', el', ?_, ⟨happlied.stirs.trans happlied'.stirs, happlied'.forest,
      Nat.le_trans happlied.size happlied'.size, happlied'.element⟩, ?_⟩
    · rw [applyEntries, if_neg (by simp [isShadowed]), run_bind hresolve]
      exact (run_bind happly _).trans hrest
    · rw [hlisteners, Write.apply, writeOf, Setter.listeners_write hbuiltin, hadded,
        List.append_assoc, tiedAll, tiedAll, List.flatMap_cons]

/-- The run of a spread that is a reader. -/
theorem effect_listeners (hpolicy : f.policy = .usual) {k : Nat} (hk : 3 * n + 3 ≤ k) {w : World}
    {i id : Nat} {shadowed : List String} {r : Reader} {x : Props × List String} {el : ElementState}
    (hlive : w.live = true) (heffect : w.graph.effects[i]? = some ⟨.spread id shadowed r, false⟩)
    (hspread : spreadPast f w.held n shadowed r = some x) (hforest : w.page.IsForest)
    (helement : w.page.element? id = some el) :
    ∃ w' el', (machine f k).effect i w = some ((), w') ∧ Rerun w w' i (.spread id shadowed r) x.2 ∧
      w'.page.IsForest ∧ w'.page.element? id = some el' ∧
      el'.listeners = el.listeners ++ tiedAll f x.1 := by
  obtain ⟨j, rfl⟩ : ∃ j, k = j + 1 := ⟨k - 1, by omega⟩
  have hj : 3 * n + 2 ≤ j := by omega
  obtain ⟨w', el', hrun, hrerun, hforest', -, hnew, hlisteners⟩ := effect_applied
    (P := fun el' => el'.listeners = el.listeners ++ tiedAll f x.1) hj hlive heffect hspread
    hforest helement fun _ _ _ htold => applyEntries_listeners hpolicy hj htold
  exact ⟨w', el', hrun, hrerun, hforest', hnew, hlisteners⟩

/-! ### Runs after writes -/

/-- What is done elsewhere leaves the listeners of the element as they are. -/
structure ListensOn (id : NodeId) (w w' : World) : Prop where
  forest : w.page.IsForest → w'.page.IsForest
  element : ∀ e, w.page.element? id = some e →
    ∃ e', w'.page.element? id = some e' ∧ e'.listeners = e.listeners

/-- The spread `r` of the element is effect `i`, which is not running, and the listeners of the
    element are `ls`. -/
structure Tied (i : Nat) (id : NodeId) (shadowed : List String) (r : Reader)
    (ls : List (Listener Action)) (w : World) : Prop where
  forest : w.page.IsForest
  element : ∃ e, w.page.element? id = some e ∧ e.listeners = ls
  effect : w.graph.effects[i]? = some ⟨.spread id shadowed r, false⟩

section

variable {i k : Nat} {id : NodeId} {shadowed : List String} {r : Reader}
  {gives : (String → Script) → Props} {reads : (String → Script) → List String}

/-- A run of the spread adds the listeners of its entries. -/
theorem routine_tied (hpolicy : f.policy = .usual) (hk : 3 * n + 3 ≤ k)
    (htells : ∀ σ, spreadPast f σ n shadowed r = some (gives σ, reads σ)) :
    Routine (machine f k) i reads (fun σ ls => ls ++ tiedAll f (gives σ)) (ListensOn id)
      (Tied i id shadowed r) where
  run ls w hlive h := by
    obtain ⟨e, he, rfl⟩ := h.element
    obtain ⟨w', e', hrun, hrerun, hforest, he', hlisteners⟩ :=
      effect_listeners hpolicy hk hlive h.effect (htells w.held) h.forest he
    refine ⟨w', _, hrun, hrerun, hforest, ⟨e', he', hlisteners⟩, ?_⟩
    rw [hrerun.graph.effect, if_pos rfl]
  calm ls w w' h haside hcalm := by
    obtain ⟨e, he, rfl⟩ := h.element
    exact ⟨hcalm.forest h.forest, hcalm.element e he, haside.effect.trans h.effect⟩
  write ls w name code h := ⟨h.forest, h.element, h.effect⟩

end

/-! ### A spread from its first run on -/

theorem foldl_tiedAll {gives : (String → Script) → Props} (runs : List (String → Script))
    (ls : List (Listener Action)) :
    runs.foldl (fun ls σ => ls ++ tiedAll f (gives σ)) ls = ls ++ runs.flatMap fun σ =>
      tiedAll f (gives σ) := by
  induction runs generalizing ls with
  | nil => exact (List.append_nil ls).symm
  | cons σ runs ih => rw [List.foldl_cons, ih, List.flatMap_cons, List.append_assoc]

/-- If all runs tie an event to one handler, there is one listener for each of them. -/
theorem filter_tiedAll {gives : (String → Script) → Props} {event : String}
    {handler : (String → Script) → Listener Action}
    (h : ∀ σ, (tiedAll f (gives σ)).filter (·.event == event) = [handler σ])
    (runs : List (String → Script)) :
    (runs.flatMap fun σ => tiedAll f (gives σ)).filter (·.event == event) =
      runs.map handler := by
  induction runs with
  | nil => rfl
  | cons σ runs ih =>
    rw [List.flatMap_cons, List.filter_append, h, ih]
    rfl

/-- An event whose listeners at its target are the given ones: these run, and then it goes on to the
    ancestors. -/
def handledBy (c : Calls) (id : NodeId) (event : String) (ls : List (Listener Action)) :
    Run Nat := do
  let target ← page
  runListeners (runAction c) ⟨event, id, id⟩ ls
  let above ← visit page (runAction c) event id (target.lineage id).tail
  pure (ls.length + above)

/-- An event is brought to its target first, where all listeners for it run. -/
theorem dispatch_target (c : Calls) (w : World) (id : NodeId) (event : String) :
    dispatch c id event w = handledBy c id event (w.page.listenersFor id event) w := by
  have hlineage : w.page.lineage id = id :: (w.page.lineage id).tail := by
    rw [lineage, lineageUpTo]
    cases w.page.parent? id <;> rfl
  have hpage : (page : Run Page) w = some (w.page, w) := rfl
  rw [dispatch, Document.dispatch, handledBy, run_bind hpage, run_bind hpage, hlineage, visit,
    run_bind hpage]
  rfl

/-- **Listeners pile up.**  A spread that is a reader is bound to an element, and then signals are
    written.  All that succeeds, and the listeners of the element are those that it had before and
    those of all runs of the spread, in order.  So if every run ties an event to one handler, there
    is one listener for each run, and exactly one as long as no signal is written that the spread
    has read.  An event dispatched at the element is handled by all of them. -/
theorem bindSpread_listeners {w : World} {n k : Nat} {id : NodeId} {shadowed : List String}
    {r : Reader} {e : ElementState} {Inv : World → Prop} {gives : (String → Script) → Props}
    {reads : (String → Script) → List String} (hpolicy : f.policy = .usual)
    (htracking : f.tracking = true) (hk : 3 * n + 3 ≤ k)
    (hlive : w.live = true) (hforest : w.page.IsForest) (he : w.page.element? id = some e)
    (hnodup : ∀ x, (w.graph.subscribers x).Nodup)
    (hnew : ∀ x, w.graph.effects.size ∉ w.graph.subscribers x)
    (htells : ∀ σ, spreadPast f σ n shadowed r = some (gives σ, reads σ))
    (hothers : Bystanders (machine f k) w.graph.effects.size (ListensOn id) Inv)
    (hinv : Inv { w with graph := (w.graph.register (.spread id shadowed r)).2 }) :
    ∃ w₀, bindSpread f (machine f k) id shadowed (.reactive r) w = some ((), w₀) ∧
      ∀ writes, ∃ w₁ e₁, writeAll (machine f k) writes w₀ = some ((), w₁) ∧
        w₁.held = holdingAll w.known writes w.held ∧ w₁.page.element? id = some e₁ ∧
        e₁.listeners = e.listeners ++
          (runsAt reads w.known writes w.held).flatMap (fun σ => tiedAll f (gives σ)) ∧
        ∀ event (handler : (String → Script) → Listener Action),
          (∀ σ, (tiedAll f (gives σ)).filter (·.event == event) = [handler σ]) →
          w₁.page.listenersFor id event = w.page.listenersFor id event ++
              (runsAt reads w.known writes w.held).map handler ∧
            dispatch (machine f k) id event w₁ = handledBy (machine f k) id event
              (w.page.listenersFor id event ++
                (runsAt reads w.known writes w.held).map handler) w₁ ∧
            ((w₁.page.listenersFor id event).length = (w.page.listenersFor id event).length + 1 ↔
              rerunsAt reads w.known writes (reads w.held) w.held = []) := by
  obtain ⟨w', hw'⟩ : ∃ w' : World, w' =
    { w with graph := (w.graph.register (.spread id shadowed r)).2 } := ⟨_, rfl⟩
  have hroutine : Routine (machine f k) w.graph.effects.size reads
      (fun σ ls => ls ++ tiedAll f (gives σ)) (ListensOn id)
      (Tied w.graph.effects.size id shadowed r) :=
    routine_tied hpolicy hk htells
  have hstart : Tied w.graph.effects.size id shadowed r e.listeners w' :=
    ⟨hw' ▸ hforest, ⟨e, hw' ▸ he, rfl⟩, hw' ▸ register_effect w _⟩
  obtain ⟨w₀, hbind, hrun, hheld₀, hknown₀, hgoing⟩ :=
    newBinding_going htracking hlive rfl hw' hnodup hnew hroutine hstart
  refine ⟨w₀, hbind, fun writes => ?_⟩
  obtain ⟨w₁, hwrites, hheld₁, htied⟩ :=
    hgoing.writeAll hroutine hothers (hothers.own w' w₀ (hw' ▸ hinv) hrun) writes
  rw [hknown₀, hheld₀] at hheld₁ htied
  obtain ⟨e₁, he₁, hlisteners⟩ := htied.element
  have hall : e₁.listeners = e.listeners ++
      (runsAt reads w.known writes w.held).flatMap (fun σ => tiedAll f (gives σ)) := by
    rw [hlisteners, foldl_tiedAll, runsAt, List.flatMap_cons, List.append_assoc]
  refine ⟨w₁, e₁, hwrites, hheld₁, he₁, hall, fun event handler hone => ?_⟩
  have hfor : w₁.page.listenersFor id event = w.page.listenersFor id event ++
      (runsAt reads w.known writes w.held).map handler := by
    rw [listenersFor, listenersFor, he, he₁, Option.map_some, Option.map_some, Option.getD_some,
      Option.getD_some, hall, List.filter_append, filter_tiedAll hone]
  refine ⟨hfor, by rw [dispatch_target, hfor], ?_⟩
  rw [hfor, List.length_append, List.length_map, runsAt, List.length_cons,
    ← List.length_eq_zero_iff]
  omega

/-- A spread that ties clicks to one handler or to another, and has a title besides. -/
def clickScript : Script :=
  .choose "s" (.spread [("@click", false, .handler "on" none)])
    (.spread [("title", false, .text "t"), ("on:click", false, .handler "off" none)])

/-- An element, and a signal. -/
def clickWorld : World :=
  { World.initial [("s", .bool true)] with page := (createElement empty "p" .html).2 }

/-- What the spread yields. -/
def clickEntries (σ : String → Script) : Props :=
  if (σ "s").isTruthy then [("@click", .immediate (.handler ⟨"on", none⟩))]
  else [("title", .immediate (.text "t")), ("on:click", .immediate (.handler ⟨"off", none⟩))]

/-- The listener for clicks. -/
def clickListener (σ : String → Script) : Listener Action :=
  ⟨"click", .handler ⟨if (σ "s").isTruthy then "on" else "off", none⟩, true⟩

theorem spreadPast_click (σ : String → Script) :
    spreadPast plainFactory σ 3 [] (.script none clickScript) = some (clickEntries σ, ["s"]) := by
  have hresolve :
      (plainFactory.policy.resolve "@click").1.setter.callback? (.handler ⟨"on", none⟩) = none ∧
      (plainFactory.policy.resolve "title").1.setter.callback? (.text "t") = none ∧
      (plainFactory.policy.resolve "on:click").1.setter.callback? (.handler ⟨"off", none⟩) =
        none := by
    refine ⟨?_, ?_, ?_⟩ <;> cases (plainFactory.policy.resolve _).1.setter <;> rfl
  rcases htrue : (σ "s").isTruthy with _ | _ <;>
    simp [spreadPast, clickScript, clickEntries, tellReader, tell, tellEntries, tellApplied,
      tellEntry, htrue, Told.after, Props.set, unshadowed, isShadowed, Entry.toValue, hresolve]

theorem tiedAll_click (σ : String → Script) :
    (tiedAll plainFactory (clickEntries σ)).filter (·.event == "click") = [clickListener σ] := by
  have hat : plainFactory.policy.resolve "@click" =
      (⟨.starts "@", .event, false, false⟩, "click") := rfl
  have hon : plainFactory.policy.resolve "on:click" =
      (⟨.starts "on:", .event, false, false⟩, "click") := rfl
  have htitle : plainFactory.policy.resolve "title" = (Policy.fallback, "title") := rfl
  have hdelegated : plainFactory.config.delegated.contains "click" = true := by decide +kernel
  rw [clickEntries]
  split <;> rename_i hs <;>
    simp [tiedAll, tied, hat, hon, htitle, Policy.fallback, Setter.added, hdelegated, Entry.toValue,
      Value.isReactive, Setter.action?, clickListener, hs]

theorem bindSpread_listeners_click : ∃ w₀ w₁,
    bindSpread plainFactory (machine plainFactory 12) 0 [] (.reactive (.script none clickScript))
      clickWorld = some ((), w₀) ∧
    writeAll (machine plainFactory 12) [("s", .empty), ("s", .empty)] w₀ = some ((), w₁) ∧
    w₁.page.listenersFor 0 "click" = [⟨"click", .handler ⟨"on", none⟩, true⟩,
      ⟨"click", .handler ⟨"off", none⟩, true⟩, ⟨"click", .handler ⟨"off", none⟩, true⟩] := by
  have hforest : clickWorld.page.IsForest := (Extends.create isForest_empty _).forest
  have hnone (x : String) : clickWorld.graph.subscribers x = [] := by
    by_cases hx : "s" = x <;>
      simp [clickWorld, World.initial, Signal.Graph.ofValues, Signal.Graph.subscribers,
        Signal.Graph.cell?, hx]
  have hroutine : Routine (machine plainFactory 12) 0 (fun _ => ["s"])
      (fun σ ls => ls ++ tiedAll plainFactory (clickEntries σ)) (ListensOn 0)
      (Tied 0 0 [] (.script none clickScript)) := routine_tied rfl (Nat.le_refl 12) spreadPast_click
  obtain ⟨w₀, hbind, hwrites⟩ := bindSpread_listeners (w := clickWorld) rfl rfl (Nat.le_refl 12) rfl
    hforest rfl (fun x => by simp [hnone]) (fun x => by simp [hnone]) spreadPast_click
    (hroutine.alone fun w => ⟨fun h => h, fun e he => ⟨e, he, rfl⟩⟩)
    ⟨rfl, ⟨_, hforest, ⟨_, rfl, rfl⟩, rfl⟩, rfl⟩
  obtain ⟨w₁, e₁, hrun, -, -, -, hclick⟩ := hwrites [("s", .empty), ("s", .empty)]
  refine ⟨w₀, w₁, hbind, hrun, ?_⟩
  rw [(hclick "click" clickListener tiedAll_click).1]
  rfl

/-! ### An event handled twice -/

/-- A paragraph with a spread. -/
def pileFactory : Factory := { plainFactory with literals := [⟨"pile", ["<p ...", "></p>"]⟩] }

/-- The spread has a handler for clicks, always the same one, and a title that is the signal; clicks
    are made before and after the signal is written. -/
def pileSteps : List Step :=
  [.display "pile"
      [.later (.spread [("@click", false, .handler "h" none), ("title", false, .peek "s")])] "main",
    .dispatch ⟨"main", [0]⟩ "click", .set "s" (.text "b"), .dispatch ⟨"main", [0]⟩ "click"]

/-- How many listeners have run. -/
def Answer.count? : Answer → Option Nat
  | .count n => some n
  | _ => none

/-- The handler runs once before the signal is written, and twice afterwards. -/
theorem spread_handles_twice :
    (pileSteps.mapM (step pileFactory 20) |>.run (.initial [("s", .text "a")])).map
        (fun r => r.1.map (·.answer.count?)) =
      some [none, some 1, none, some 2] := by
  decide +kernel

end Render
end Stencil
