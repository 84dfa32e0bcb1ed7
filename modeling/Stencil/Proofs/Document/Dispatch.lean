/-
  Stencil/Proofs/Document/Dispatch.lean
  =====================================
  **An event keeps its way, whatever its handlers do.**

  A handler may do to the document whatever operations can do: make, move and remove nodes,
  the target and its ancestors among them, and register listeners on any of them.  The event
  still visits the ancestors that the target had at the beginning.  At each element it calls
  the handlers of the listeners that the history has registered there when the visit begins
  (`Tour`); what they register during the visit comes too late, and what was registered
  further up on the way is called.

  Dispatching and such a tour are the same (`dispatch_tour`).  The listeners of the model are
  told from the history by `listenersFor_history`, so a tour does not mention them.
-/
import Stencil.Proofs.Document.History

namespace Stencil.Document

variable {π η S : Type}

/-! ### Handlers at work -/

/-- The document that a state holds. -/
def glance (page : S → Document π η) : StateT S Option (Document π η) := fun s => some (page s, s)

/-- `Called run s cs s'`: handlers are called one after the other, each with its event, and all
    return. -/
inductive Called (run : η → Event → StateT S Option Unit) : S → List (η × Event) → S → Prop where
  | nil (s : S) : Called run s [] s
  | cons {s s₁ s' : S} {a : η} {e : Event} {cs : List (η × Event)}
      (hcall : (run a e).run s = some ((), s₁)) (hrest : Called run s₁ cs s') :
      Called run s ((a, e) :: cs) s'

/-- Handlers do operations on a document that operations can make. -/
def Operative (page : S → Document π η) (run : η → Event → StateT S Option Unit) : Prop :=
  ∀ a e s s', Reachable (page s) → (run a e).run s = some ((), s') →
    ∃ os, (page s).perform os = some (page s')

/-- The calls that are due at a node: one for each listener for the event that has been registered
    on it, in order. -/
def due (os : List (Operation π η)) (name : String) (target id : NodeId) : List (η × Event) :=
  ((registered os id).filter (·.event == name)).map fun l => (l.handler, ⟨name, target, id⟩)

/-- `Tour page run name target os ids s cs s'`: an event visits the nodes `ids` in a state with the
    history `os`, and the calls `cs` are made.  What they do to the document is part of the
    history for the nodes that follow. -/
inductive Tour (page : S → Document π η) (run : η → Event → StateT S Option Unit) (name : String)
    (target : NodeId) :
    List (Operation π η) → List NodeId → S → List (η × Event) → S → Prop where
  | done (os : List (Operation π η)) (s : S) : Tour page run name target os [] s [] s
  | element {os os' : List (Operation π η)} {id : NodeId} {ids : List NodeId} {s s₁ s' : S}
      {cs : List (η × Event)} (hkind : (page s).kind id = some .element)
      (hcalled : Called run s (due os name target id) s₁)
      (hos : (page s).perform os' = some (page s₁))
      (hrest : Tour page run name target (os ++ os') ids s₁ cs s') :
      Tour page run name target os (id :: ids) s (due os name target id ++ cs) s'
  | other {os : List (Operation π η)} {id : NodeId} {ids : List NodeId} {s s' : S}
      {cs : List (η × Event)} (hkind : (page s).kind id ≠ some .element)
      (hrest : Tour page run name target os ids s cs s') :
      Tour page run name target os (id :: ids) s cs s'

variable {page : S → Document π η} {run : η → Event → StateT S Option Unit}
  {os : List (Operation π η)} {s s' : S} {cs : List (η × Event)} {name : String} {target : NodeId}

theorem Called.append {s₁ : S} {cs' : List (η × Event)} (h : Called run s cs s₁)
    (h' : Called run s₁ cs' s') : Called run s (cs ++ cs') s' := by
  induction h with
  | nil => exact h'
  | cons hcall _ ih => exact .cons hcall (ih h')

theorem Called.perform (h : Called run s cs s') (hrun : Operative page run)
    (hreachable : Reachable (page s)) : ∃ os, (page s).perform os = some (page s') := by
  induction h with
  | nil => exact ⟨[], rfl⟩
  | cons hcall _ ih =>
    obtain ⟨os, hos⟩ := hrun _ _ _ _ hreachable hcall
    obtain ⟨os', hos'⟩ := ih (hreachable.perform hos)
    exact ⟨os ++ os', perform_trans hos hos'⟩

/-! ### One visit -/

theorem run_runListeners_cons (e : Event) (l : Listener η) (ls : List (Listener η)) (s : S) :
    (runListeners run e (l :: ls)).run s =
      ((run l.handler e).run s).bind fun r => (runListeners run e ls).run r.2 := rfl

theorem runListeners_called (e : Event) (ls : List (Listener η)) (s s' : S) :
    (runListeners run e ls).run s = some ((), s') ↔
      Called run s (ls.map fun l => (l.handler, e)) s' := by
  induction ls generalizing s with
  | nil =>
    constructor
    · intro h
      have hs : s = s' := congrArg Prod.snd (Option.some.inj h)
      subst hs
      exact .nil s
    · intro h
      cases h
      rfl
  | cons l ls ih =>
    rw [run_runListeners_cons]
    constructor
    · intro h
      obtain ⟨⟨⟨⟩, s₁⟩, hcall, hrest⟩ := Option.bind_eq_some_iff.mp h
      exact .cons hcall ((ih s₁).mp hrest)
    · intro h
      cases h with
      | cons hcall hrest =>
        rw [hcall]
        exact (ih _).mpr hrest

/-- Listeners get stuck only in one of the handlers. -/
theorem runListeners_stuck (e : Event) (ls : List (Listener η)) (s : S)
    (h : (runListeners run e ls).run s = none) :
    ∃ cs a s₁, Called run s cs s₁ ∧ (run a e).run s₁ = none := by
  induction ls generalizing s with
  | nil => cases h
  | cons l ls ih =>
    rw [run_runListeners_cons] at h
    cases hcall : (run l.handler e).run s with
    | none => exact ⟨[], l.handler, s, .nil s, hcall⟩
    | some r =>
      rw [hcall] at h
      obtain ⟨cs, a, s₁, hcs, hstuck⟩ := ih r.2 h
      exact ⟨(l.handler, e) :: cs, a, s₁, .cons hcall hcs, hstuck⟩

/-! ### The whole way -/

theorem run_visit_cons (id : NodeId) (ids : List NodeId) (s : S) :
    (visit (glance page) run name target (id :: ids)).run s =
      ((runListeners run ⟨name, target, id⟩ ((page s).listenersFor id name)).run s).bind fun r =>
        ((visit (glance page) run name target ids).run r.2).bind fun r' =>
          some (((page s).listenersFor id name).length + r'.1, r'.2) := rfl

/-- The listeners found at an element are those that are due, and other nodes have none. -/
theorem listeners_due (h : empty.perform os = some (page s)) (name : String) (target id : NodeId) :
    (((page s).listenersFor id name).map fun l => (l.handler, (⟨name, target, id⟩ : Event))) =
      if (page s).kind id = some .element then due os name target id else [] := by
  rw [listenersFor_history h]
  split <;> rfl

theorem visit_tour (hrun : Operative page run) (h : empty.perform os = some (page s))
    (ids : List NodeId) (n : Nat) :
    (visit (glance page) run name target ids).run s = some (n, s') ↔
      ∃ cs, Tour page run name target os ids s cs s' ∧ n = cs.length := by
  induction ids generalizing os s n with
  | nil =>
    constructor
    · intro hvisit
      obtain ⟨hn, hs⟩ := Prod.ext_iff.mp (Option.some.inj hvisit)
      simp only at hn hs
      subst hs hn
      exact ⟨[], .done os s, rfl⟩
    · rintro ⟨cs, htour, hn⟩
      cases htour
      rw [hn]
      rfl
  | cons id ids ih =>
    have hdue := listeners_due h name target id
    have hlength : ((page s).listenersFor id name).length =
        (if (page s).kind id = some .element then due os name target id else []).length := by
      rw [← hdue, List.length_map]
    rw [run_visit_cons]
    constructor
    · intro hvisit
      obtain ⟨⟨⟨⟩, s₁⟩, hcalls, hvisit⟩ := Option.bind_eq_some_iff.mp hvisit
      obtain ⟨⟨m, s₂⟩, hrest, hanswer⟩ := Option.bind_eq_some_iff.mp hvisit
      obtain ⟨hn, hs⟩ := Prod.ext_iff.mp (Option.some.inj hanswer)
      simp only at hn hs
      subst hs
      rw [runListeners_called, hdue] at hcalls
      by_cases hkind : (page s).kind id = some .element
      · rw [if_pos hkind] at hcalls hlength
        obtain ⟨os', hos'⟩ := hcalls.perform hrun (Reachable.empty.perform h)
        obtain ⟨cs, htour, rfl⟩ := (ih (perform_trans h hos') m).mp hrest
        refine ⟨_, .element hkind hcalls hos' htour, ?_⟩
        rw [← hn, hlength, List.length_append]
      · rw [if_neg hkind] at hcalls hlength
        cases hcalls
        obtain ⟨cs, htour, rfl⟩ := (ih h m).mp hrest
        refine ⟨cs, .other hkind htour, ?_⟩
        rw [← hn, hlength, List.length_nil, Nat.zero_add]
    · rintro ⟨cs, htour, hn⟩
      cases htour with
      | element hkind hcalled hos htour =>
        rw [if_pos hkind] at hdue hlength
        rw [← hdue, ← runListeners_called] at hcalled
        rw [hcalled, Option.bind_some, (ih (perform_trans h hos) _).mpr ⟨_, htour, rfl⟩,
          Option.bind_some, hlength, hn, List.length_append]
      | other hkind htour =>
        rw [if_neg hkind] at hdue hlength
        have hcalls : (runListeners run ⟨name, target, id⟩ ((page s).listenersFor id name)).run s =
            some ((), s) := by
          rw [runListeners_called, hdue]
          exact .nil s
        rw [hcalls, Option.bind_some, (ih h _).mpr ⟨_, htour, rfl⟩, Option.bind_some, hlength, hn,
          List.length_nil, Nat.zero_add]

/-- An event gets stuck only in one of the handlers. -/
theorem visit_stuck (ids : List NodeId) (s : S)
    (h : (visit (glance page) run name target ids).run s = none) :
    ∃ cs a current s₁, Called run s cs s₁ ∧ (run a ⟨name, target, current⟩).run s₁ = none := by
  induction ids generalizing s with
  | nil => cases h
  | cons id ids ih =>
    rw [run_visit_cons] at h
    cases hcalls : (runListeners run ⟨name, target, id⟩ ((page s).listenersFor id name)).run s with
    | none =>
      obtain ⟨cs, a, s₁, hcs, hstuck⟩ := runListeners_stuck _ _ s hcalls
      exact ⟨cs, a, id, s₁, hcs, hstuck⟩
    | some r =>
      rw [hcalls, Option.bind_some] at h
      cases hrest : (visit (glance page) run name target ids).run r.2 with
      | none =>
        obtain ⟨cs, a, current, s₁, hcs, hstuck⟩ := ih r.2 hrest
        exact ⟨_, a, current, s₁, ((runListeners_called _ _ s r.2).mp hcalls).append hcs, hstuck⟩
      | some r' =>
        rw [hrest] at h
        cases h

/-- **Handlers cannot get in the way of an event.**  The handlers may do any operations.  An
    event then visits the target and the ancestors that the target had at the beginning, calls
    at each element the handlers that have been registered there when the visit begins, in
    order, with the target and with the node visited, and answers how many calls that were.
    It has a result unless one of the handlers has none. -/
theorem dispatch_tour (hrun : Operative page run) (h : empty.perform os = some (page s))
    (htarget : target < (page s).size) (name : String) :
    (page s).Climbs target ((page s).lineage target) ∧
      (∀ n s', (dispatch (glance page) run target name).run s = some (n, s') ↔
        ∃ cs, Tour page run name target os ((page s).lineage target) s cs s' ∧ n = cs.length) ∧
      ((dispatch (glance page) run target name).run s = none →
        ∃ cs a current s₁, Called run s cs s₁ ∧ (run a ⟨name, target, current⟩).run s₁ = none) := by
  have hforest := (Reachable.empty.perform h).isForest
  have hdispatch : (dispatch (glance page) run target name).run s =
      (visit (glance page) run name target ((page s).lineage target)).run s := rfl
  refine ⟨hforest.climbs htarget, ?_, ?_⟩
  · intro n s'
    rw [hdispatch]
    exact visit_tour hrun h _ n
  · intro hstuck
    rw [hdispatch] at hstuck
    exact visit_stuck _ s hstuck

/-- A button in a box, with one listener each. -/
def buttonInBox : List (Operation Unit Nat) :=
  [.make (.element "div" .html), .make (.element "button" .html), .change 0 (.append 1),
    .listen 1 ⟨"click", 0, false⟩, .listen 0 ⟨"click", 2, false⟩]

/-- Handlers by number.  The first takes the node that it is told of out of its parent and registers
    a listener on it, and one on the box; the others do nothing. -/
def meddle (a : Nat) (e : Event) : StateT (Document Unit Nat) Option Unit := fun d =>
  let os : List (Operation Unit Nat) := match a with
    | 0 => [.remove e.current, .listen e.current ⟨"click", 1, false⟩, .listen 0 ⟨"click", 3, false⟩]
    | _ => []
  (d.perform os).map ((), ·)

/-- The handler of the button takes it out of the box.  The listener that it registers on the button
    is not called any more, the one on the box is. -/
theorem dispatch_tour_meddled :
    ∃ d d' cs, empty.perform buttonInBox = some d ∧ d.parent? 1 = some 0 ∧ d'.parent? 1 = none ∧
      (dispatch (glance id) meddle 1 "click").run d = some (3, d') ∧
      Tour id meddle "click" 1 buttonInBox [1, 0] d cs d' ∧ cs.length = 3 := by
  have hrun : Operative id meddle := by
    intro a e s s' _ hcall
    obtain ⟨d', hd', hs⟩ := Option.map_eq_some_iff.mp hcall
    cases hs
    exact ⟨_, hd'⟩
  have hhistory : empty.perform buttonInBox = some _ := rfl
  obtain ⟨-, hanswer, -⟩ :=
    dispatch_tour hrun hhistory (show 1 < _ by decide) "click"
  obtain ⟨cs, htour, hcount⟩ := (hanswer 3 _).mp rfl
  exact ⟨_, _, cs, hhistory, by decide, by decide, rfl, htour, hcount.symm⟩

end Stencil.Document
