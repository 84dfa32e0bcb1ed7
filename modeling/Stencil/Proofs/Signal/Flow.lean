/-
  Stencil/Proofs/Signal/Flow.lean
  ===============================
  **Effects that feed each other without a cycle settle at once.**

  A *flow* is an effect that reads a fixed list of signals and then sets signals to functions
  of what it has read; it remembers its latest readings.  Flows are *ranked* if each of them
  sets only signals of a higher rank than all that it reads.

  A write runs the subscribers that the signal has, these write in turn, and so on, depth
  first: a flow may run often, and with values that are out of date before long.  Two facts
  about ranks put this in order.  While a flow runs, nothing below the signals that it sets
  changes, so what it has read stays true; and no flow that is running reads a signal that is
  written meanwhile, so none is passed over for being in the middle of a run: `insist` has no
  result in that case, and here it always has one.
  What a run leaves behind (`Passed`) therefore never makes another flow out of date, and
  after every step from outside all of them are current (`performAll_settled`).
-/
import Stencil.Proofs.Signal.Watch
import Stencil.Signal.Network
import Mathlib.Algebra.Order.Ring.Int
import Mathlib.Data.Finset.Card
import Mathlib.Data.Finset.Range

namespace Stencil.Signal

variable {σ β : Type}

/-- An effect that reads signals and then sets signals to functions of what it has read, with
    what it has read the last time. -/
structure Flow (σ : Type) where
  reads : List String
  writes : List σ → List (String × σ)
  seen : List σ

/-- An action on a graph of flows, or none if it goes deeper than allowed. -/
abbrev Flows (σ : Type) := StateT (Graph σ (Flow σ)) Option

/-- The value of a signal; all signals that are not there have the same one. -/
def Graph.value [Inhabited σ] (g : Graph σ β) (name : String) : σ := (g.peek? name).getD default

namespace Flow

/-- A way of running an effect, given what running a body means. -/
abbrev Runner (σ : Type) := (Flow σ → Flows σ (Flow σ)) → Nat → Flows σ Unit

/-- Run an effect, which must not be running already. -/
def insist : Runner σ := fun body id => do
  match (← get).effects[id]? with
  | some ⟨_, true⟩ => failure
  | _ => execute (σ := σ) (β := Flow σ) body id

/-- Write signals one after the other. -/
def setAll (exec : Nat → Flows σ Unit) : List (String × σ) → Flows σ Unit
  | [] => pure ()
  | (name, v) :: rest => do
    write (σ := σ) (β := Flow σ) exec name v
    setAll exec rest

/-- A flow sets only signals that are ranked above all those it reads. -/
def Ranked (rank : String → Nat) (f : Flow σ) : Prop :=
  ∀ name ∈ f.reads, ∀ seen, ∀ p ∈ f.writes seen, rank name < rank p.1

/-- What can be done to a graph of flows from outside. -/
inductive Step (σ : Type) where
  | register (reads : List String) (writes : List σ → List (String × σ))
  | set (name : String) (value : σ)

/-- The flow that a step registers, which has not run yet. -/
def Step.flow? : Step σ → Option (Flow σ)
  | register reads writes => some ⟨reads, writes, []⟩
  | set _ _ => none

section

variable [Inhabited σ]

/-- Read signals one after the other. -/
def readAll : List String → Flows σ (List σ)
  | [] => pure []
  | name :: rest => do
    let v ← read (σ := σ) (β := Flow σ) name
    let vs ← readAll rest
    pure (v.getD default :: vs)

/-- One run of a flow. -/
def run (exec : Nat → Flows σ Unit) (f : Flow σ) : Flows σ (Flow σ) := do
  let seen ← readAll f.reads
  setAll exec (f.writes seen)
  pure { f with seen := seen }

/-- An effect run, with effects in effects at most `depth` deep. -/
def exec (go : Runner σ) : Nat → Nat → Flows σ Unit
  | 0, _ => failure
  | depth + 1, id => go (run (exec go depth)) id

/-- A step from outside. -/
def Step.perform (go : Runner σ) (depth : Nat) : Step σ → Flows σ Unit
  | register reads writes =>
    Signal.register (σ := σ) (β := Flow σ) (exec go depth) ⟨reads, writes, []⟩
  | set name value => write (σ := σ) (β := Flow σ) (exec go depth) name value

/-- Steps one after the other. -/
def performAll (go : Runner σ) (depth : Nat) : List (Step σ) → Flows σ Unit
  | [] => pure ()
  | s :: rest => do
    s.perform go depth
    performAll go depth rest

end

/-! ### Runs -/

variable {g g' g₁ g₂ : Graph σ (Flow σ)}

theorem run_execute_eq (body : Flow σ → Flows σ (Flow σ)) (id : Nat) (g : Graph σ (Flow σ)) :
    (execute (σ := σ) (β := Flow σ) body id).run g =
      match g.start id with
      | (none, g') => some ((), g')
      | (some f, g') => ((body f).run g').bind fun r => some ((), r.2.finish id r.1) := by
  simp only [execute, StateT.run_bind, StateT.run_modifyGet]
  rcases g.start id with ⟨_ | f, g'⟩
  · rfl
  · rfl

theorem run_execute {body : Flow σ → Flows σ (Flow σ)} {id : Nat} {f f' : Flow σ}
    (hstart : g.start id = (some f, g₁)) (hbody : (body f).run g₁ = some (f', g₂)) :
    (execute (σ := σ) (β := Flow σ) body id).run g = some ((), g₂.finish id f') := by
  rw [run_execute_eq, hstart]
  simp only [hbody, Option.bind_some]

/-- A way of running effects that runs those that are not running. -/
def Starts (go : Runner σ) : Prop :=
  ∀ body id (g : Graph σ (Flow σ)) f, g.effects[id]? = some ⟨f, false⟩ →
    (go body id).run g = (execute (σ := σ) (β := Flow σ) body id).run g

theorem starts_execute : Starts (execute (σ := σ) (β := Flow σ)) := fun _ _ _ _ _ => rfl

theorem starts_insist : Starts (insist (σ := σ)) := by
  intro body id g f he
  simp only [insist, StateT.run_bind, StateT.run_get, Option.pure_def, Option.bind_eq_bind,
    Option.bind_some, he]

theorem run_write (exec : Nat → Flows σ Unit) (name : String) (v : σ) :
    (write (σ := σ) (β := Flow σ) exec name v).run g =
      (executeAll exec (g.subscribers name)).run (g.write name v).2 := rfl

/-! ### What holds while effects run -/

/-- Subscribers do read the signal, and all effects are ranked. -/
structure Wired (rank : String → Nat) (g : Graph σ (Flow σ)) : Prop where
  reads : ∀ x, ∀ j ∈ g.subscribers x, ∃ e, g.effects[j]? = some e ∧ x ∈ e.body.reads
  ranked : ∀ (j : Nat) e, g.effects[j]? = some e → e.body.Ranked rank

/-- Effects that are running read only signals below a rank. -/
def Below (rank : String → Nat) (g : Graph σ (Flow σ)) (k : Nat) : Prop :=
  ∀ (j : Nat) f, g.effects[j]? = some ⟨f, true⟩ → ∀ x ∈ f.reads, rank x < k

/-- The effects that are not running. -/
def idle (g : Graph σ (Flow σ)) : Finset Nat :=
  (Finset.range g.effects.size).filter fun j => (g.effects[j]?).map (·.running) = some false

theorem mem_idle {j : Nat} : j ∈ idle g ↔ ∃ f, g.effects[j]? = some ⟨f, false⟩ := by
  rw [idle, Finset.mem_filter, Finset.mem_range, Option.map_eq_some_iff]
  constructor
  · rintro ⟨-, ⟨f, _⟩, he, rfl⟩
    exact ⟨f, he⟩
  · rintro ⟨f, he⟩
    exact ⟨(Array.getElem?_eq_some_iff.mp he).1, _, he, rfl⟩

/-- The flows that are there, as they were before they had seen anything. -/
def flows (g : Graph σ (Flow σ)) : List (Flow σ) :=
  g.effects.toList.map fun e => { e.body with seen := [] }

theorem length_flows (g : Graph σ (Flow σ)) : (flows g).length = g.effects.size := by
  rw [flows, List.length_map, Array.length_toList]

theorem card_idle_le (g : Graph σ (Flow σ)) : (idle g).card ≤ g.effects.size :=
  (Finset.card_filter_le _ _).trans (Finset.card_range _).le

theorem Below.mono {rank : String → Nat} {k k' : Nat} (h : Below rank g k) (hk : k ≤ k') :
    Below rank g k' := fun j f he x hx => Nat.lt_of_lt_of_le (h j f he x hx) hk

variable {rank : String → Nat}

/-- A run up to where it has read everything: what is still to come is that it ends. -/
structure Reading (g g' : Graph σ (Flow σ)) (j : Nat) (f : Flow σ) : Prop where
  ran : ∀ b, Graph.Ran g (g'.finish j b) j b f.reads
  effect : ∀ i : Nat, g'.effects[i]? = if i = j then some ⟨f, true⟩ else g.effects[i]?
  size : g'.effects.size = g.effects.size

namespace Reading

variable {j : Nat} {f : Flow σ}

theorem effect_of_ne (h : Reading g g' j f) {i : Nat} (hi : i ≠ j) :
    g'.effects[i]? = g.effects[i]? := by
  rw [h.effect, if_neg hi]

theorem wired (h : Reading g g' j f) (hf : g.effects[j]? = some ⟨f, false⟩)
    (hwired : Wired rank g) :
    Wired rank g' := by
  have heffect (i : Nat) (e : Effect (Flow σ)) (he : g.effects[i]? = some e) :
      ∃ e', g'.effects[i]? = some e' ∧ e'.body = e.body := by
    rw [h.effect]
    split
    · rename_i hi
      cases (hi ▸ he).symm.trans hf
      exact ⟨_, rfl, rfl⟩
    · exact ⟨e, he, rfl⟩
  refine ⟨fun x i hi => ?_, fun i e he => ?_⟩
  · rcases (h.ran f).mem_subscribers.mp hi with hi | ⟨rfl, hx, -⟩
    · obtain ⟨e, he, hx⟩ := hwired.reads x i hi
      obtain ⟨e', he', hbody⟩ := heffect i e he
      exact ⟨e', he', hbody ▸ hx⟩
    · obtain ⟨e', he', hbody⟩ := heffect i _ hf
      exact ⟨e', he', hbody ▸ hx⟩
  · rw [h.effect] at he
    split at he
    · cases he
      have hranked := hwired.ranked j _ hf
      exact hranked
    · exact hwired.ranked i e he

theorem below (h : Reading g g' j f) {k m : Nat} (hbelow : Below rank g k) (hk : k ≤ m)
    (hreads : ∀ x ∈ f.reads, rank x < m) : Below rank g' m := by
  intro i fi hfi
  rw [h.effect] at hfi
  split at hfi
  · cases hfi
    exact hreads
  · exact hbelow.mono hk i fi hfi

theorem card_idle (h : Reading g g' j f) (hf : g.effects[j]? = some ⟨f, false⟩) :
    (idle g').card < (idle g).card := by
  have hmem : j ∈ idle g := mem_idle.mpr ⟨f, hf⟩
  have hidle : idle g' = (idle g).erase j := by
    ext i
    rw [mem_idle, Finset.mem_erase, mem_idle, h.effect]
    by_cases hi : i = j
    · simp [hi]
    · simp [hi]
  rw [hidle]
  exact Finset.card_erase_lt_of_mem hmem

end Reading

theorem Wired.write (h : Wired rank g) (s : String) (v : σ) : Wired rank (g.write s v).2 where
  reads x j hj := h.reads x j (Graph.subscribers_write g s v x ▸ hj)
  ranked := h.ranked

/-- The end of a run puts an effect to rest, with what it has read. -/
theorem effects_finish_running {j : Nat} {f : Flow σ} (hrunning : g₂.effects[j]? = some ⟨f, true⟩)
    (seen : List σ) (i : Nat) : (g₂.finish j { f with seen := seen }).effects[i]? =
      if i = j then some ⟨{ f with seen := seen }, false⟩ else g₂.effects[i]? := by
  rw [Graph.effects_finish]
  split
  · next hi =>
    rw [hi, hrunning]
    rfl
  · rfl

theorem Wired.finish {j : Nat} {f : Flow σ} (h : Wired rank g₂)
    (hrunning : g₂.effects[j]? = some ⟨f, true⟩) (seen : List σ) :
    Wired rank (g₂.finish j { f with seen := seen }) where
  reads x i hi := by
    obtain ⟨e, he, hx⟩ := h.reads x i hi
    rw [effects_finish_running hrunning]
    by_cases hij : i = j
    · rw [if_pos hij]
      cases (hij ▸ he).symm.trans hrunning
      exact ⟨_, rfl, hx⟩
    · rw [if_neg hij]
      exact ⟨e, he, hx⟩
  ranked i e he := by
    rw [effects_finish_running hrunning] at he
    split at he
    · cases he
      have hranked := h.ranked j _ hrunning
      exact hranked
    · exact h.ranked i e he

variable [Inhabited σ]

/-- An effect that is a subscriber of all that it reads, and has read what is there now. -/
structure Current (g : Graph σ (Flow σ)) (j : Nat) (f : Flow σ) : Prop where
  watches : ∀ x ∈ f.reads, (g.cell? x).isSome = true → j ∈ g.subscribers x
  seen : f.seen = f.reads.map g.value

/-- What runs have left behind that set no signal below a rank: effects run as before or rest as
    before, and no effect that was current is out of date. -/
structure Passed (rank : String → Nat) (k : Nat) (g g' : Graph σ (Flow σ)) : Prop where
  present : ∀ x, (g'.cell? x).isSome = (g.cell? x).isSome
  low : ∀ x, rank x < k → g'.peek? x = g.peek? x
  subscribers : ∀ x, ∀ j ∈ g.subscribers x, j ∈ g'.subscribers x
  running : ∀ (j : Nat) f, g.effects[j]? = some ⟨f, true⟩ → g'.effects[j]? = some ⟨f, true⟩
  resting : ∀ (j : Nat) f, g.effects[j]? = some ⟨f, false⟩ →
    ∃ seen, g'.effects[j]? = some ⟨{ f with seen := seen }, false⟩
  size : g'.effects.size = g.effects.size
  current : ∀ (j : Nat) f f', g.effects[j]? = some ⟨f, false⟩ → Current g j f →
    g'.effects[j]? = some ⟨f', false⟩ → Current g' j f'

namespace Passed

variable {k k' : Nat}

theorem refl (rank : String → Nat) (k : Nat) (g : Graph σ (Flow σ)) : Passed rank k g g where
  present _ := rfl
  low _ _ := rfl
  subscribers _ _ h := h
  running _ _ h := h
  resting _ f h := ⟨f.seen, h⟩
  size := rfl
  current j f f' h hcurrent h' := by
    cases h.symm.trans h'
    exact hcurrent

theorem trans (h : Passed rank k g g₁) (h' : Passed rank k g₁ g₂) : Passed rank k g g₂ where
  present x := (h'.present x).trans (h.present x)
  low x hx := (h'.low x hx).trans (h.low x hx)
  subscribers x j hj := h'.subscribers x j (h.subscribers x j hj)
  running j f hf := h'.running j f (h.running j f hf)
  resting j f hf := by
    obtain ⟨_, hf₁⟩ := h.resting j f hf
    obtain ⟨seen, hf₂⟩ := h'.resting j _ hf₁
    exact ⟨seen, hf₂⟩
  size := h'.size.trans h.size
  current j f f₂ hf hcurrent hf₂ := by
    obtain ⟨_, hf₁⟩ := h.resting j f hf
    exact h'.current j _ f₂ hf₁ (h.current j f _ hf hcurrent hf₁) hf₂

theorem mono (h : Passed rank k g g') (hk : k' ≤ k) : Passed rank k' g g' where
  present := h.present
  low x hx := h.low x (Nat.lt_of_lt_of_le hx hk)
  subscribers := h.subscribers
  running := h.running
  resting := h.resting
  size := h.size
  current := h.current

/-- What rests afterwards has rested before. -/
theorem resting_back (h : Passed rank k g g') {j : Nat} {f' : Flow σ}
    (hf' : g'.effects[j]? = some ⟨f', false⟩) :
    ∃ f, g.effects[j]? = some ⟨f, false⟩ ∧ f'.reads = f.reads ∧ f'.writes = f.writes := by
  have hj : j < g.effects.size := h.size ▸ (Array.getElem?_eq_some_iff.mp hf').1
  rcases he : g.effects[j] with ⟨f, running⟩
  have hf : g.effects[j]? = some ⟨f, running⟩ := Array.getElem?_eq_some_iff.mpr ⟨hj, he⟩
  cases running with
  | false =>
    obtain ⟨seen, hseen⟩ := h.resting j f hf
    cases hf'.symm.trans hseen
    exact ⟨f, hf, rfl, rfl⟩
  | true => cases hf'.symm.trans (h.running j f hf)

/-- What is running afterwards has been running before. -/
theorem running_back (h : Passed rank k g g') {j : Nat} {f : Flow σ}
    (hf' : g'.effects[j]? = some ⟨f, true⟩) : g.effects[j]? = some ⟨f, true⟩ := by
  have hj : j < g.effects.size := h.size ▸ (Array.getElem?_eq_some_iff.mp hf').1
  rcases he : g.effects[j] with ⟨f₀, running⟩
  have hf : g.effects[j]? = some ⟨f₀, running⟩ := Array.getElem?_eq_some_iff.mpr ⟨hj, he⟩
  cases running with
  | false =>
    obtain ⟨seen, hseen⟩ := h.resting j f₀ hf
    cases hf'.symm.trans hseen
  | true =>
    cases hf'.symm.trans (h.running j f₀ hf)
    exact hf

theorem below (h : Passed rank k g g') {m : Nat} (hbelow : Below rank g m) : Below rank g' m :=
  fun j f hf => hbelow j f (h.running_back hf)

theorem idle (h : Passed rank k g g') : idle g' = idle g := by
  ext j
  rw [mem_idle, mem_idle]
  constructor
  · rintro ⟨f', hf'⟩
    obtain ⟨f, hf, -⟩ := h.resting_back hf'
    exact ⟨f, hf⟩
  · rintro ⟨f, hf⟩
    obtain ⟨seen, hseen⟩ := h.resting j f hf
    exact ⟨_, hseen⟩

end Passed

/-! ### Runs lead somewhere -/

/-- However effects are run, and to whatever depth of at least `n`, an action ends with `g'`. -/
def Leads (n : Nat) (act : (Nat → Flows σ Unit) → Flows σ Unit) (g g' : Graph σ (Flow σ)) : Prop :=
  ∀ go, Starts go → ∀ depth, n ≤ depth → (act (exec go depth)).run g = some ((), g')

/-- Every effect that is not running can be run, if what is running reads only signals below all
    that it sets; `n` bounds the number of effects that are not running. -/
def Runs (σ : Type) [Inhabited σ] (rank : String → Nat) (n : Nat) : Prop :=
  ∀ (g : Graph σ (Flow σ)) (k j : Nat) (f : Flow σ), Wired rank g → Below rank g k →
    g.effects[j]? = some ⟨f, false⟩ → (∀ seen, ∀ p ∈ f.writes seen, k ≤ rank p.1) →
    (idle g).card ≤ n →
    ∃ g', Leads n (fun exec => exec j) g g' ∧ Wired rank g' ∧ Passed rank k g g' ∧
      ∀ f', g'.effects[j]? = some ⟨f', false⟩ → Current g' j f'

variable {n : Nat}

theorem Runs.executeAll (h : Runs σ rank n) {s : String} {ids : List Nat} (hwired : Wired rank g)
    (hbelow : Below rank g (rank s)) (hcard : (idle g).card ≤ n)
    (hids : ∀ j ∈ ids, ∃ f, g.effects[j]? = some ⟨f, false⟩ ∧ s ∈ f.reads) :
    ∃ g', Leads n (fun exec => Signal.executeAll exec ids) g g' ∧ Wired rank g' ∧
      Passed rank (rank s) g g' ∧
      ∀ j ∈ ids, ∀ f', g'.effects[j]? = some ⟨f', false⟩ → Current g' j f' := by
  induction ids generalizing g with
  | nil => exact ⟨g, fun _ _ _ _ => rfl, hwired, .refl rank _ g, nofun⟩
  | cons j rest ih =>
    obtain ⟨f, hf, hs⟩ := hids j List.mem_cons_self
    have hrank : ∀ seen, ∀ p ∈ f.writes seen, rank s ≤ rank p.1 := fun seen p hp =>
      Nat.le_of_lt (hwired.ranked j _ hf s hs seen p hp)
    obtain ⟨g₁, hlead, hwired₁, hpassed, hcurrent⟩ := h g (rank s) j f hwired hbelow hf hrank hcard
    have hids₁ : ∀ i ∈ rest, ∃ f, g₁.effects[i]? = some ⟨f, false⟩ ∧ s ∈ f.reads := by
      intro i hi
      obtain ⟨fi, hfi, hsi⟩ := hids i (List.mem_cons_of_mem _ hi)
      obtain ⟨seen, hseen⟩ := hpassed.resting i fi hfi
      exact ⟨_, hseen, hsi⟩
    obtain ⟨g₂, hlead₂, hwired₂, hpassed₂, hcurrent₂⟩ :=
      ih hwired₁ (hpassed.below hbelow) (hpassed.idle ▸ hcard) hids₁
    refine ⟨g₂, fun go hgo depth hdepth => ?_, hwired₂, hpassed.trans hpassed₂, ?_⟩
    · simp only [Signal.executeAll, StateT.run_bind, hlead go hgo depth hdepth, Option.bind_eq_bind,
        Option.bind_some]
      exact hlead₂ go hgo depth hdepth
    · refine List.forall_mem_cons.mpr ⟨fun f' hf' => ?_, hcurrent₂⟩
      obtain ⟨seen, hseen⟩ := hpassed.resting j f hf
      exact hpassed₂.current j _ f' hseen (hcurrent _ hseen) hf'

/-- Who does not watch a signal is current after it has been written: it does not read it, or
    there is no such signal. -/
theorem Current.write {j : Nat} {f : Flow σ} (h : Current g j f) {s : String}
    (hj : j ∉ g.subscribers s) (v : σ) : Current (g.write s v).2 j f where
  watches x hx hsome := by
    rw [Graph.subscribers_write]
    exact h.watches x hx (Graph.isSome_cell?_write g s v x ▸ hsome)
  seen := by
    rw [h.seen]
    refine List.map_congr_left fun x hx => ?_
    have hkeep : x ≠ s ∨ (g.cell? x).isSome = false := by
      by_cases hxs : x = s
      · refine Or.inr (Bool.eq_false_iff.mpr fun hsome => hj ?_)
        exact hxs ▸ h.watches x hx hsome
      · exact Or.inl hxs
    rw [Graph.value, Graph.value, Graph.peek?_write g v hkeep]

/-- What is passed after a write is passed with it, if those who watch are run. -/
theorem Passed.of_write {s : String} {v : σ} (h : Passed rank (rank s) (g.write s v).2 g')
    (hcurrent : ∀ j ∈ g.subscribers s, ∀ f', g'.effects[j]? = some ⟨f', false⟩ →
      Current g' j f') : Passed rank (rank s) g g' where
  present x := (h.present x).trans (Graph.isSome_cell?_write g s v x)
  low x hx := by
    have hne : x ≠ s := fun heq => absurd hx (heq ▸ Nat.lt_irrefl _)
    exact (h.low x hx).trans (Graph.peek?_write g v (Or.inl hne))
  subscribers x j hj := h.subscribers x j (Graph.subscribers_write g s v x ▸ hj)
  running := h.running
  resting := h.resting
  size := h.size
  current j f f' hf hcur hf' := by
    by_cases hj : j ∈ g.subscribers s
    · exact hcurrent j hj f' hf'
    · exact h.current j f f' hf (hcur.write hj v) hf'

theorem Runs.write (h : Runs σ rank n) {s : String} (v : σ) (hwired : Wired rank g)
    (hbelow : Below rank g (rank s)) (hcard : (idle g).card ≤ n) :
    ∃ g', Leads n (fun exec => Signal.write (σ := σ) (β := Flow σ) exec s v) g g' ∧ Wired rank g' ∧
      Passed rank (rank s) g g' := by
  have hids : ∀ j ∈ g.subscribers s, ∃ f, g.effects[j]? = some ⟨f, false⟩ ∧ s ∈ f.reads := by
    intro j hj
    obtain ⟨⟨f, running⟩, he, hs⟩ := hwired.reads s j hj
    cases running with
    | true => exact absurd (hbelow j f he s hs) (Nat.lt_irrefl _)
    | false => exact ⟨f, he, hs⟩
  obtain ⟨g', hlead, hwired', hpassed, hcurrent⟩ :=
    h.executeAll (hwired.write s v) hbelow hcard hids
  refine ⟨g', fun go hgo depth hdepth => ?_, hwired', hpassed.of_write hcurrent⟩
  rw [run_write]
  exact hlead go hgo depth hdepth

theorem Runs.setAll (h : Runs σ rank n) {k : Nat} (ps : List (String × σ)) (hwired : Wired rank g)
    (hbelow : Below rank g k) (hcard : (idle g).card ≤ n) (hps : ∀ p ∈ ps, k ≤ rank p.1) :
    ∃ g', Leads n (fun exec => Flow.setAll exec ps) g g' ∧ Wired rank g' ∧ Passed rank k g g' := by
  induction ps generalizing g with
  | nil => exact ⟨g, fun _ _ _ _ => rfl, hwired, .refl rank k g⟩
  | cons p rest ih =>
    obtain ⟨hp, hrest⟩ := List.forall_mem_cons.mp hps
    obtain ⟨g₁, hlead, hwired₁, hpassed⟩ := h.write p.2 hwired (hbelow.mono hp) hcard
    obtain ⟨g₂, hlead₂, hwired₂, hpassed₂⟩ :=
      ih hwired₁ (hpassed.below hbelow) (hpassed.idle ▸ hcard) hrest
    refine ⟨g₂, fun go hgo depth hdepth => ?_, hwired₂, (hpassed.mono hp).trans hpassed₂⟩
    simp only [Flow.setAll, StateT.run_bind, hlead go hgo depth hdepth, Option.bind_eq_bind,
      Option.bind_some]
    exact hlead₂ go hgo depth hdepth

/-! ### One run -/

theorem run_readAll (names : List String) :
    (readAll names).run g = some (names.map g.value, g.readAll names) := by
  induction names generalizing g with
  | nil => rfl
  | cons name rest ih =>
    have hvalue : (g.read name).2.value = g.value := by
      funext x
      rw [Graph.value, Graph.value, Graph.peek?_read]
    have hread : (readAll (name :: rest)).run g =
        ((readAll rest).run (g.read name).2).bind fun r => some (g.value name :: r.1, r.2) := rfl
    rw [hread, ih, hvalue]
    rfl

/-- The least rank above a bound and above some signals. -/
theorem exists_level (rank : String → Nat) (k : Nat) (names : List String) :
    ∃ m, k ≤ m ∧ (∀ x ∈ names, rank x < m) ∧ ∀ b, k ≤ b → (∀ x ∈ names, rank x < b) → m ≤ b := by
  induction names with
  | nil => exact ⟨k, Nat.le_refl k, nofun, fun b hb _ => hb⟩
  | cons name rest ih =>
    obtain ⟨m, hk, hrest, hleast⟩ := ih
    refine ⟨max m (rank name + 1), by omega, ?_, fun b hb hnames => ?_⟩
    · refine List.forall_mem_cons.mpr ⟨by omega, fun x hx => ?_⟩
      have := hrest x hx
      omega
    · obtain ⟨hname, hrest'⟩ := List.forall_mem_cons.mp hnames
      have := hleast b hb hrest'
      omega

theorem exists_reading {j : Nat} {f : Flow σ} (h : g.effects[j]? = some ⟨f, false⟩) :
    ∃ g₁ g', g.start j = (some f, g₁) ∧ (readAll f.reads).run g₁ = some (f.reads.map g.value, g') ∧
      Reading g g' j f := by
  obtain ⟨g₁, hstart, hobserver, hpeek, hran⟩ := Graph.start_eq h
  have hvalue : g₁.value = g.value := funext fun x => by rw [Graph.value, Graph.value, hpeek]
  have heffects : (g₁.readAll f.reads).effects = g₁.effects := by
    rw [Graph.readAll_eq_watch hobserver, Graph.effects_watch]
  refine ⟨g₁, g₁.readAll f.reads, hstart, by rw [run_readAll, hvalue], hran f.reads,
    fun i => ?_, ?_⟩
  · have hg₁ : g₁ = (g.start j).2 := by rw [hstart]
    rw [heffects, hg₁]
    by_cases hi : i = j
    · subst hi
      simp [Graph.start, h, Array.getElem?_modify]
    · rw [if_neg hi, Graph.effects_start_of_ne g hi]
  · have hsize := (hran f.reads f).size
    rwa [Graph.finish, Array.size_modify] at hsize

/-- An effect that was current is so as long as another reads. -/
theorem Reading.current {j : Nat} {f : Flow σ} (h : Reading g g' j f) {i : Nat} {fi : Flow σ}
    (hcurrent : Current g i fi) :
    Current g' i fi where
  watches x hx hsome := by
    refine (h.ran f).mem_subscribers.mpr (Or.inl (hcurrent.watches x hx ?_))
    exact ((h.ran f).isSome_cell? x).symm.trans hsome
  seen := by
    rw [hcurrent.seen]
    exact List.map_congr_left fun x _ => congrArg (Option.getD · default) ((h.ran f).peek? x).symm

/-- An effect whose run has ended is current: what it has read has not been written since. -/
theorem Passed.current_finish {m j : Nat} {f : Flow σ} (hreading : Reading g g₁ j f)
    (hpassed : Passed rank m g₁ g₂) (hreads : ∀ x ∈ f.reads, rank x < m) :
    Current (g₂.finish j { f with seen := f.reads.map g.value }) j
      { f with seen := f.reads.map g.value } where
  watches x hx hsome := by
    refine hpassed.subscribers x j ((hreading.ran f).mem_subscribers.mpr (Or.inr ⟨rfl, hx, ?_⟩))
    exact ((hreading.ran f).isSome_cell? x).symm.trans ((hpassed.present x).symm.trans hsome)
  seen := by
    refine List.map_congr_left fun x hx => congrArg (Option.getD · default) ?_
    exact ((hpassed.low x (hreads x hx)).trans ((hreading.ran f).peek? x)).symm

/-- The end of a run: what has been read is kept. -/
theorem Passed.finish {k m j : Nat} {f : Flow σ} (hf : g.effects[j]? = some ⟨f, false⟩)
    (hreading : Reading g g₁ j f) (hpassed : Passed rank m g₁ g₂) (hk : k ≤ m)
    (hreads : ∀ x ∈ f.reads, rank x < m)
    (hrunning : g₂.effects[j]? = some ⟨f, true⟩) :
    Passed rank k g (g₂.finish j { f with seen := f.reads.map g.value }) where
  present x := (hpassed.present x).trans ((hreading.ran f).isSome_cell? x)
  low x hx := (hpassed.low x (Nat.lt_of_lt_of_le hx hk)).trans ((hreading.ran f).peek? x)
  subscribers x i hi := hpassed.subscribers x i ((hreading.ran f).mem_subscribers.mpr (Or.inl hi))
  running i fi hfi := by
    have hi : i ≠ j := by
      rintro rfl
      cases hfi.symm.trans hf
    rw [effects_finish_running hrunning, if_neg hi]
    exact hpassed.running i fi (hreading.effect_of_ne hi ▸ hfi)
  resting i fi hfi := by
    rw [effects_finish_running hrunning]
    by_cases hi : i = j
    · rw [if_pos hi]
      cases (hi ▸ hfi).symm.trans hf
      exact ⟨_, rfl⟩
    · rw [if_neg hi]
      exact hpassed.resting i fi (hreading.effect_of_ne hi ▸ hfi)
  size := by
    rw [Graph.finish, Array.size_modify, hpassed.size, hreading.size]
  current i fi f' hfi hcurrent hf' := by
    rw [effects_finish_running hrunning] at hf'
    by_cases hi : i = j
    · subst hi
      rw [if_pos rfl] at hf'
      cases hf'
      exact hpassed.current_finish hreading hreads
    · rw [if_neg hi] at hf'
      have hcurrent₂ := hpassed.current i fi f' (hreading.effect_of_ne hi ▸ hfi)
        (hreading.current hcurrent) hf'
      exact ⟨hcurrent₂.watches, hcurrent₂.seen⟩

/-- Every effect that is not running can be run. -/
theorem runs (rank : String → Nat) (n : Nat) : Runs σ rank n := by
  induction n with
  | zero =>
    intro g k j f _ _ hf _ hcard
    have hmem : j ∈ idle g := mem_idle.mpr ⟨f, hf⟩
    exact absurd (Finset.card_pos.mpr ⟨j, hmem⟩) (Nat.not_lt.mpr hcard)
  | succ n ih =>
    intro g k j f hwired hbelow hf hrank hcard
    obtain ⟨m, hk, hreads, hleast⟩ := exists_level rank k f.reads
    obtain ⟨g₁, g₂, hstart, hread, hreading⟩ := exists_reading hf
    obtain ⟨g₃, hlead, hwired₃, hpassed⟩ :=
      Runs.setAll ih (f.writes (f.reads.map g.value)) (hreading.wired hf hwired)
        (hreading.below hbelow hk hreads)
        (Nat.le_of_lt_succ (Nat.lt_of_lt_of_le (hreading.card_idle hf) hcard)) fun p hp =>
          hleast (rank p.1) (hrank _ p hp) fun x hx => hwired.ranked j _ hf x hx _ p hp
    have hrunning : g₃.effects[j]? = some ⟨f, true⟩ :=
      hpassed.running j f (by rw [hreading.effect, if_pos rfl])
    refine ⟨_, fun go hgo depth hdepth => ?_, hwired₃.finish hrunning _,
      hpassed.finish hf hreading hk hreads hrunning, fun f' hf' => ?_⟩
    case refine_2 =>
      rw [effects_finish_running hrunning, if_pos rfl] at hf'
      cases hf'
      exact hpassed.current_finish hreading hreads
    obtain ⟨depth, rfl⟩ : ∃ d, depth = d + 1 := ⟨depth - 1, by omega⟩
    have hset := hlead go hgo depth (Nat.le_of_succ_le_succ hdepth)
    have hbody : (run (exec go depth) f).run g₁ =
        some ({ f with seen := f.reads.map g.value }, g₃) := by
      simp only [run, StateT.run_bind, hread, Option.bind_eq_bind, Option.bind_some, hset]
      rfl
    change (go (run (exec go depth)) j).run g = _
    rw [hgo _ j g f hf, run_execute hstart hbody]

/-! ### Steps from outside -/

/-- Nothing runs, and every effect is current. -/
structure Calm (rank : String → Nat) (g : Graph σ (Flow σ)) : Prop where
  wired : Wired rank g
  rest : ∀ (j : Nat) e, g.effects[j]? = some e → e.running = false ∧ Current g j e.body

theorem Calm.below (h : Calm rank g) (k : Nat) : Below rank g k := by
  intro j f hf
  cases (h.rest j _ hf).1

theorem Passed.flows {k : Nat} (h : Passed rank k g g') : flows g' = flows g := by
  refine List.ext_getElem? fun j => ?_
  rw [Flow.flows, Flow.flows, List.getElem?_map, List.getElem?_map, Array.getElem?_toList,
    Array.getElem?_toList]
  rcases hj : g.effects[j]? with _ | ⟨f, running⟩
  · rw [Array.getElem?_eq_none_iff] at hj
    rw [Array.getElem?_eq_none_iff.mpr (h.size ▸ hj)]
  · cases running with
    | false =>
      obtain ⟨seen, hseen⟩ := h.resting j f hj
      rw [hseen]
      rfl
    | true => rw [h.running j f hj]

/-- A calm graph is calm again after a write. -/
theorem Calm.passed {k : Nat} (h : Calm rank g) (hwired : Wired rank g')
    (hpassed : Passed rank k g g') :
    Calm rank g' := by
  refine ⟨hwired, fun j e he => ?_⟩
  obtain ⟨f', running⟩ := e
  cases running with
  | false =>
    obtain ⟨f, hf, -⟩ := hpassed.resting_back he
    exact ⟨rfl, hpassed.current j f f' hf (h.rest j _ hf).2 he⟩
  | true => cases (h.rest j _ (hpassed.running_back he)).1

/-- A new effect is current after its first run. -/
theorem Calm.register (h : Calm rank g) {f : Flow σ} (hf : f.Ranked rank) :
    ∃ g', Leads (g.effects.size + 1) (fun exec =>
      Signal.register (σ := σ) (β := Flow σ) exec f) g g' ∧
      Calm rank g' ∧ flows g' = flows g ++ [{ f with seen := [] }] := by
  obtain ⟨g₁, hg₁⟩ : ∃ g₁, g₁ = (g.register f).2 := ⟨_, rfl⟩
  have heffect (j : Nat) :
      g₁.effects[j]? = if j = g.effects.size then some ⟨f, false⟩ else g.effects[j]? := by
    rw [hg₁, Graph.effects_register]
  have hold {j : Nat} {e : Effect (Flow σ)} (he : g.effects[j]? = some e) :
      g₁.effects[j]? = some e := by
    have hlt : j < g.effects.size := (Array.getElem?_eq_some_iff.mp he).1
    rw [heffect, if_neg (Nat.ne_of_lt hlt)]
    exact he
  have hnew : g₁.effects[g.effects.size]? = some ⟨f, false⟩ := by rw [heffect, if_pos rfl]
  have hwired : Wired rank g₁ := by
    refine ⟨fun x j hj => ?_, fun j e he => ?_⟩
    · rw [hg₁] at hj
      obtain ⟨e, he, hx⟩ := h.wired.reads x j hj
      exact ⟨e, hold he, hx⟩
    · rw [heffect] at he
      split at he
      · cases he
        exact hf
      · exact h.wired.ranked j e he
  have hrest (j : Nat) (e : Effect (Flow σ)) (he : g₁.effects[j]? = some e) :
      e.running = false := by
    rw [heffect] at he
    split at he
    · cases he
      rfl
    · exact (h.rest j e he).1
  have hbelow : Below rank g₁ 0 := fun j f hf => nomatch hrest j _ hf
  have hsize : g₁.effects.size = g.effects.size + 1 := by
    rw [hg₁, Graph.register, Array.size_push]
  obtain ⟨g', hlead, hwired', hpassed, hcurrent⟩ :=
    runs rank (g.effects.size + 1) g₁ 0 g.effects.size f
    hwired hbelow hnew (fun _ _ _ => Nat.zero_le _) (hsize ▸ card_idle_le g₁)
  refine ⟨g', fun go hgo depth hdepth => ?_, ⟨hwired', fun j e he => ?_⟩, ?_⟩
  · have hrun := hlead go hgo depth hdepth
    rw [hg₁] at hrun
    exact hrun
  · obtain ⟨f', running⟩ := e
    cases running with
    | true => cases hrest j _ (hpassed.running_back he)
    | false =>
      refine ⟨rfl, ?_⟩
      obtain ⟨f₁, hf₁, -⟩ := hpassed.resting_back he
      by_cases hj : j = g.effects.size
      · exact hj ▸ hcurrent f' (hj ▸ he)
      · have hf₀ := hf₁
        rw [heffect, if_neg hj] at hf₀
        obtain ⟨-, hwatches, hseen⟩ := h.rest j _ hf₀
        refine hpassed.current j f₁ f' hf₁ ⟨fun x hx hsome => ?_, ?_⟩ he
        · rw [hg₁] at hsome ⊢
          exact hwatches x hx hsome
        · rw [hg₁]
          exact hseen
  · rw [hpassed.flows, flows, flows, hg₁, Graph.register, Array.toList_push, List.map_append]
    rfl

/-- A step from outside leads to calm again. -/
theorem Calm.step (h : Calm rank g) {s : Step σ} (hs : ∀ f, s.flow? = some f → f.Ranked rank) :
    ∃ g', (∀ go, Starts go → ∀ depth, g.effects.size + 1 ≤ depth →
        (s.perform go depth).run g = some ((), g')) ∧
      Calm rank g' ∧ flows g' = flows g ++ s.flow?.toList := by
  cases s with
  | register reads writes => exact h.register (hs _ rfl)
  | set name value =>
    obtain ⟨g', hlead, hwired, hpassed⟩ := (runs rank g.effects.size).write value h.wired
      (h.below (rank name)) (card_idle_le g)
    refine ⟨g', fun go hgo depth hdepth => ?_, h.passed hwired hpassed, ?_⟩
    · exact hlead go hgo depth (Nat.le_of_succ_le hdepth)
    · rw [hpassed.flows]
      exact (List.append_nil _).symm

theorem Calm.performAll (h : Calm rank g) {steps : List (Step σ)}
    (hsteps : ∀ s ∈ steps, ∀ f, s.flow? = some f → f.Ranked rank) :
    ∃ g', (∀ go, Starts go → ∀ depth, g.effects.size + steps.length ≤ depth →
        (Flow.performAll go depth steps).run g = some ((), g')) ∧
      Calm rank g' ∧ flows g' = flows g ++ steps.filterMap Step.flow? := by
  induction steps generalizing g with
  | nil => exact ⟨g, fun _ _ _ _ => rfl, h, (List.append_nil _).symm⟩
  | cons s rest ih =>
    obtain ⟨hs, hrest⟩ := List.forall_mem_cons.mp hsteps
    obtain ⟨g₁, hrun, hcalm, hflows⟩ := h.step hs
    obtain ⟨g₂, hrun₂, hcalm₂, hflows₂⟩ := ih hcalm hrest
    have hsize : g₁.effects.size ≤ g.effects.size + 1 := by
      rw [← length_flows, ← length_flows, hflows, List.length_append]
      cases s.flow? <;> simp
    refine ⟨g₂, fun go hgo depth hdepth => ?_, hcalm₂, ?_⟩
    · rw [List.length_cons] at hdepth
      simp only [Flow.performAll, StateT.run_bind, hrun go hgo depth (by omega),
        Option.bind_eq_bind, Option.bind_some]
      exact hrun₂ go hgo depth (by omega)
    · rw [hflows₂, hflows, List.append_assoc, List.filterMap_cons]
      cases s.flow? <;> rfl

theorem calm_ofValues (rank : String → Nat) (values : List (String × σ)) :
    Calm rank (Graph.ofValues values) := by
  refine ⟨⟨fun x j hj => ?_, fun j e he => ?_⟩, fun j e he => ?_⟩
  · rw [Graph.subscribers_ofValues] at hj
    cases hj
  · simp [Graph.ofValues] at he
  · simp [Graph.ofValues] at he

/-- Whatever is registered and set from outside, if the signals can be ranked so that every flow
    sets only signals above all that it reads: no run is passed over for being in the middle of
    another, and in the end every flow has last read the values that the signals have now. -/
theorem performAll_settled (rank : String → Nat) (values : List (String × σ))
    (steps : List (Step σ)) (hsteps : ∀ s ∈ steps, ∀ f, s.flow? = some f → f.Ranked rank) :
    ∃ g : Graph σ (Flow σ), (∀ depth, steps.length ≤ depth →
        (performAll (execute (σ := σ) (β := Flow σ)) depth steps).run (.ofValues values) =
          some ((), g) ∧
        (performAll insist depth steps).run (.ofValues values) = some ((), g)) ∧
      (g.effects.toList.map fun e => { e.body with seen := [] }) = steps.filterMap Step.flow? ∧
      ∀ e ∈ g.effects, e.running = false ∧ e.body.seen = e.body.reads.map g.value := by
  obtain ⟨g, hrun, hcalm, hflows⟩ := (calm_ofValues rank values).performAll hsteps
  have hsize : (Graph.ofValues values : Graph σ (Flow σ)).effects.size = 0 := rfl
  refine ⟨g, fun depth hdepth => ⟨?_, ?_⟩, hflows, fun e he => ?_⟩
  · exact hrun _ starts_execute depth (by omega)
  · exact hrun _ starts_insist depth (by omega)
  · obtain ⟨j, hj, heq⟩ := Array.mem_iff_getElem.mp he
    obtain ⟨hrest, hcurrent⟩ := hcalm.rest j e (Array.getElem?_eq_some_iff.mpr ⟨hj, heq⟩)
    exact ⟨hrest, hcurrent.seen⟩

/-- Two signals that follow the first, and a sum of both, which is registered before they are. -/
def diamond : List (Step Int) :=
  [.register ["b", "c"] fun vs => [("d", vs.sum)], .register ["a"] fun vs => [("b", vs.sum + 1)],
    .register ["a"] fun vs => [("c", 2 * vs.sum)], .set "a" 3]

def diamondRank (name : String) : Nat :=
  if name = "a" then 0 else if name = "d" then 2 else 1

theorem performAll_settled_diamond : ∃ g : Graph Int (Flow Int),
    (performAll insist 4 diamond).run (.ofValues [("a", 0), ("b", 0), ("c", 0), ("d", 0)]) =
        some ((), g) ∧
      (∀ e ∈ g.effects, e.body.seen = e.body.reads.map g.value) ∧
      g.values = [("a", 3), ("b", 4), ("c", 6), ("d", 10)] := by
  have hranked : ∀ s ∈ diamond, ∀ f, s.flow? = some f → f.Ranked diamondRank := by
    intro s hs f hf
    simp only [diamond, List.mem_cons, List.not_mem_nil, or_false] at hs
    rcases hs with rfl | rfl | rfl | rfl
    all_goals cases hf
    all_goals
      intro name hname seen p hp
      obtain rfl := List.mem_singleton.mp hp
      revert name
      simp [diamondRank]
  obtain ⟨g, hrun, -, hcurrent⟩ := performAll_settled diamondRank
    [("a", 0), ("b", 0), ("c", 0), ("d", 0)] diamond hranked
  have hfour := (hrun 4 (Nat.le_refl 4)).2
  refine ⟨g, hfour, fun e he => (hcurrent e he).2, ?_⟩
  have hvalues : ((performAll insist 4 diamond).run
      (.ofValues [("a", 0), ("b", 0), ("c", 0), ("d", 0)])).map (·.2.values) =
        some [("a", 3), ("b", 4), ("c", 6), ("d", 10)] := by decide +kernel
  rw [hfour] at hvalues
  exact Option.some.inj hvalues

/-! ### Flows as programs -/

/-- A flow of integers as a program. -/
def program (f : Flow Int) : Program := .getAll f.reads fun vs => .setAll (f.writes vs)

/-- A graph of flows as a network. -/
def network (lines : List String) (g : Graph Int (Flow Int)) : Network :=
  ⟨⟨g.cells, g.effects.map fun e => ⟨e.body.program, e.running⟩, g.scopes⟩, lines⟩

/-- An action on a network that does to it what another does to the flows. -/
def Acts {α γ : Type} (lines : List String) (act : Net α) (act' : Flows Int γ) : Prop :=
  ∀ g, (act.run (network lines g)).map (·.2) = (act'.run g).map fun r => network lines r.2

variable {lines : List String} {exec' : Nat → Net Unit} {exec : Nat → Flows Int Unit}

theorem Acts.seq {α γ δ : Type} {act : Net α} {next : α → Net γ} {act' : Flows Int Unit}
    {next' : Flows Int δ} (h : Acts lines act act') (hnext : ∀ a, Acts lines (next a) next') :
    Acts lines (act >>= next) (act' >>= fun _ => next') := by
  intro g
  have hg := h g
  simp only [StateT.run_bind, Option.bind_eq_bind]
  rcases hrun : act.run (network lines g) with _ | ⟨a, n⟩ <;>
    rcases hrun' : act'.run g with _ | ⟨⟨⟩, g'⟩ <;> rw [hrun, hrun'] at hg
  · rfl
  · cases hg
  · cases hg
  · obtain rfl := Option.some.inj hg
    exact hnext a g'

/-- What comes of an action does not matter. -/
theorem Acts.andThen {α γ : Type} {act : Net α} {act' : Flows Int Unit} (h : Acts lines act act')
    (a : γ) :
    Acts lines (act >>= fun _ => pure a) act' := by
  have hunit : act' = act' >>= fun _ => pure () := (bind_pure act').symm
  rw [hunit]
  exact h.seq fun _ _ => rfl

theorem Acts.executeAll (h : ∀ id, Acts lines (exec' id) (exec id)) (ids : List Nat) :
    Acts lines (Signal.executeAll exec' ids) (Signal.executeAll exec ids) := by
  induction ids with
  | nil => exact fun _ => rfl
  | cons id rest ih => exact (h id).seq fun _ => ih

theorem Acts.write (h : ∀ id, Acts lines (exec' id) (exec id)) (name : String) (v : Int) :
    Acts lines (Signal.write (σ := Int) (β := Program) exec' name v)
      (Signal.write (σ := Int) (β := Flow Int) exec name v) :=
  fun g => executeAll h (g.subscribers name) (g.write name v).2

theorem Acts.setAll (h : ∀ id, Acts lines (exec' id) (exec id)) (ps : List (String × Int)) :
    Acts lines ((Program.setAll ps).runWith exec') (Flow.setAll exec ps) := by
  induction ps with
  | nil => exact fun _ => rfl
  | cons p rest ih => exact (write h p.1 p.2).seq fun _ => ih

theorem run_getAll (names : List String) (next : List Int → Program) (g : Graph Int (Flow Int)) :
    ((Program.getAll names next).runWith exec').run (network lines g) =
      ((next (names.map g.value)).runWith exec').run (network lines (g.readAll names)) := by
  induction names generalizing next g with
  | nil => rfl
  | cons name rest ih =>
    have hread : ((Program.getAll (name :: rest) next).runWith exec').run (network lines g) =
        ((Program.getAll rest fun vs => next (g.value name :: vs)).runWith exec').run
          (network lines (g.read name).2) := by
      have hgraph : (network lines g).graph.read name =
          (g.peek? name, (network lines (g.read name).2).graph) := by
        rw [Graph.read, Graph.read]
        refine congrArg (Prod.mk _) ?_
        have hobserver : (network lines g).graph.observer? = g.observer? := rfl
        rw [hobserver]
        rcases g.observer? with _ | id <;> rfl
      have hrun : (Signal.read (σ := Int) (β := Program) (m := Net) name).run (network lines g) =
          some (g.peek? name, network lines (g.read name).2) := by
        change some (((network lines g).graph.read name).1,
          (⟨((network lines g).graph.read name).2, lines⟩ : Network)) = _
        rw [hgraph]
        rfl
      simp only [Program.getAll, Program.runWith, StateT.run_bind, hrun, Option.bind_eq_bind,
        Option.bind_some]
      rfl
    have hvalue : (g.read name).2.value = g.value := by
      funext x
      rw [Graph.value, Graph.value, Graph.peek?_read]
    rw [hread, ih, hvalue]
    rfl

theorem network_modify (g : Graph Int (Flow Int)) (id : Nat)
    (change : Effect (Flow Int) → Effect (Flow Int)) (change' : Effect Program → Effect Program)
    (h : ∀ e : Effect (Flow Int), change' ⟨e.body.program, e.running⟩ =
      ⟨(change e).body.program, (change e).running⟩) :
    (network lines g).graph.effects.modify id change' =
      (network lines { g with effects := g.effects.modify id change }).graph.effects := by
  refine Array.ext_getElem? fun i => ?_
  simp only [network, Array.getElem?_modify, Array.getElem?_map]
  split
  · simp only [Option.map_map]
    exact congrArg (Option.map · _) (funext fun e => h e)
  · rfl

theorem start_network (g : Graph Int (Flow Int)) (id : Nat) :
    (network lines g).graph.start id =
      ((g.start id).1.map program, (network lines (g.start id).2).graph) := by
  have heffect : (network lines g).graph.effects[id]? =
      (g.effects[id]?).map fun e => ⟨e.body.program, e.running⟩ := Array.getElem?_map
  rw [Graph.start, Graph.start, heffect]
  rcases g.effects[id]? with _ | ⟨f, running⟩
  · rfl
  · cases running with
    | true => rfl
    | false =>
      have hmodify := @network_modify lines g id (fun e => { e with running := true })
        (fun e => { e with running := true }) fun _ => rfl
      simp only [Option.map_some, Bool.false_eq_true, if_false, hmodify]
      rfl

theorem finish_network (g : Graph Int (Flow Int)) (id : Nat) (f : Flow Int) :
    (network lines g).graph.finish id f.program = (network lines (g.finish id f)).graph := by
  have hmodify := @network_modify lines g id (fun _ => ⟨f, false⟩) (fun _ => ⟨f.program, false⟩)
    fun _ => rfl
  rw [Graph.finish, hmodify]
  rfl

theorem run_execute_network (body : Program → Net Program) (id : Nat) (n : Network) :
    (execute (σ := Int) (β := Program) body id).run n =
      match n.graph.start id with
      | (none, g) => some ((), ⟨g, n.lines⟩)
      | (some b, g) => ((body b).run ⟨g, n.lines⟩).bind fun r =>
          some ((), ⟨r.2.graph.finish id r.1, r.2.lines⟩) := by
  have hstart : (modifyGet fun g : Graph Int Program => g.start id : Net (Option Program)).run n =
      some ((n.graph.start id).1, ⟨(n.graph.start id).2, n.lines⟩) := rfl
  rw [execute, StateT.run_bind, hstart]
  rcases n.graph.start id with ⟨_ | b, g⟩
  · rfl
  · rfl

/-- Effects that are flows run as programs do. -/
theorem acts_exec (depth : Nat) (id : Nat) :
    Acts lines (Program.exec depth id)
      (Flow.exec (execute (σ := Int) (β := Flow Int)) depth id) := by
  induction depth generalizing id with
  | zero => exact fun _ => rfl
  | succ depth ih =>
    intro g
    rw [Program.exec, run_execute_network, Flow.exec, run_execute_eq, start_network]
    rcases g.start id with ⟨_ | f, g₁⟩
    · rfl
    · have hset := Acts.setAll ih (f.writes (f.reads.map g₁.value)) (g₁.readAll f.reads)
      have hbody : (f.program.runWith (Program.exec depth)).run (network lines g₁) =
          ((Program.setAll (f.writes (f.reads.map g₁.value))).runWith (Program.exec depth)).run
            (network lines (g₁.readAll f.reads)) := run_getAll f.reads _ g₁
      have hrun : (run (exec (execute (σ := Int) (β := Flow Int)) depth) f).run g₁ =
          ((setAll (exec (execute (σ := Int) (β := Flow Int)) depth)
            (f.writes (f.reads.map g₁.value))).run
            (g₁.readAll f.reads)).bind fun r => some ({ f with seen := f.reads.map g₁.value },
              r.2) := by
        simp only [run, StateT.run_bind, run_readAll, Option.bind_eq_bind, Option.bind_some]
        rfl
      rw [← hbody] at hset
      simp only [Option.map_some, hrun, StateT.run_bind, Option.bind_eq_bind]
      change (((f.program.runWith (Program.exec depth)).run (network lines g₁)).bind _
        |>.bind _).map _ = _
      rcases hleft :
        (f.program.runWith (Program.exec depth)).run (network lines g₁) with _ | ⟨vs, n⟩ <;>
        rcases hright : (setAll (exec (execute (σ := Int) (β := Flow Int)) depth)
          (f.writes (f.reads.map g₁.value))).run (g₁.readAll f.reads) with _ | ⟨⟨⟩, g'⟩ <;>
        rw [hleft, hright] at hset
      · rfl
      · cases hset
      · cases hset
      · obtain rfl := Option.some.inj hset
        simp only [Option.bind_some, Option.map_some]
        refine congrArg some ?_
        change (⟨(network lines g').graph.finish id
          (program { f with seen := f.reads.map g₁.value }), lines⟩ : Network) = _
        rw [finish_network]
        rfl

/-- A step from outside as a program. -/
def Step.program : Step Int → Program
  | register reads writes => .effect (Flow.program ⟨reads, writes, []⟩) (.done [])
  | set name value => .set name value (.done [])

theorem acts_perform (depth : Nat) (s : Step Int) :
    Acts lines (s.program.run depth) (s.perform (execute (σ := Int) (β := Flow Int)) depth) := by
  cases s with
  | set name value => exact (Acts.write (acts_exec depth) name value).andThen _
  | register reads writes =>
    refine Acts.andThen (fun g => ?_) _
    have hregister : (network lines g).graph.register (Flow.program ⟨reads, writes, []⟩) =
        (g.effects.size, (network lines (g.register ⟨reads, writes, []⟩).2).graph) := by
      simp [Graph.register, network]
    change (((Program.exec depth)
      ((network lines g).graph.register (Flow.program ⟨reads, writes, []⟩)).1).run
      ⟨((network lines g).graph.register (Flow.program ⟨reads, writes, []⟩)).2, lines⟩).map _ = _
    rw [hregister]
    exact acts_exec depth g.effects.size (g.register ⟨reads, writes, []⟩).2

/-- Networks whose effects are flows do what flows do, step by step. -/
theorem acts_performAll (depth : Nat) (steps : List (Step Int)) :
    Acts lines (steps.forM fun s => do let _ ← s.program.run depth)
      (performAll (execute (σ := Int) (β := Flow Int)) depth steps) := by
  induction steps with
  | nil => exact fun _ => rfl
  | cons s rest ih => exact ((acts_perform depth s).andThen ()).seq fun _ => ih

end Flow
end Stencil.Signal
