/-
  Stencil/Proofs/Signal/Veil.lean
  ===============================
  **What is running cannot be told.**

  An effect that is running is passed over by everything that happens meanwhile: writes do
  not start it, and that it becomes a subscriber makes no difference until it has ended.
  So it does not matter what it will do next, which signals it has read, or whether it is
  there at all, except for the numbers of the effects that are registered behind it.

  A `Veil` hides some effects of a graph.  Two graphs are `Alike` under two veils if what is
  left to see is the same.  Whatever is done to both then has the same answer, and they are
  alike again.
-/
import Stencil.Proofs.Signal.Watch
import Mathlib.Data.List.Basic

namespace Stencil.Signal

open Stencil.Signal.Graph

/-- Effects that are out of sight.  One of them may be `own`: it is left out when the others are
    numbered. -/
structure Veil where
  hidden : Nat → Bool
  own : Option Nat
  hides_own : ∀ n ∈ own, hidden n = true

namespace Veil

variable {σ : Type} {v : Veil} {i j k : Nat}

/-- The number of an effect if the own one is not counted. -/
def number (v : Veil) (i : Nat) : Nat :=
  match v.own with
  | some n => if n < i then i - 1 else i
  | none => i

/-- What is seen of an effect. -/
def seen? (v : Veil) (i : Nat) : Option Nat := if v.hidden i then none else some (v.number i)

theorem seen?_eq_none : v.seen? i = none ↔ v.hidden i = true := by
  rw [seen?]
  cases v.hidden i <;> simp

theorem seen?_eq_some : v.seen? i = some k ↔ v.hidden i = false ∧ v.number i = k := by
  rw [seen?]
  cases v.hidden i <;> simp

/-- Effects that can be seen are told apart by their numbers. -/
theorem seen?_inj (hi : v.seen? i = some k) (hj : v.seen? j = some k) : i = j := by
  obtain ⟨hi, hki⟩ := seen?_eq_some.mp hi
  obtain ⟨hj, hkj⟩ := seen?_eq_some.mp hj
  rw [← hkj, number, number] at hki
  rcases hown : v.own with _ | n
  · simpa only [hown] using hki
  · have hn := v.hides_own n hown
    have hin : i ≠ n := fun h => by simp [h, hn] at hi
    have hjn : j ≠ n := fun h => by simp [h, hn] at hj
    simp only [hown] at hki
    split at hki <;> split at hki <;> omega

/-- What is seen of a signal: its value, and the subscribers that can be seen. -/
def look (v : Veil) (c : Cell σ) : σ × List Nat := (c.value, c.subscribers.filterMap v.seen?)

/-- What is seen of a scope: the effect that readings count for. -/
def reader? (v : Veil) : Scope → Option Nat
  | .effect i => v.seen? i
  | .untracked => none

/-- One more subscriber, unless it is one already. -/
def join (o : Option Nat) (c : σ × List Nat) : σ × List Nat :=
  match o with
  | some k => (c.1, if c.2.contains k then c.2 else c.2 ++ [k])
  | none => c

theorem mem_filterMap_seen? (ids : List Nat) (h : v.seen? i = some k) :
    k ∈ ids.filterMap v.seen? ↔ i ∈ ids := by
  rw [List.mem_filterMap]
  constructor
  · rintro ⟨j, hj, hseen⟩
    exact seen?_inj h hseen ▸ hj
  · exact fun hi => ⟨i, hi, h⟩

theorem look_subscribe (c : Cell σ) (i : Nat) :
    v.look (Cell.subscribe c i) = join (v.seen? i) (v.look c) := by
  rw [look, value_subscribe, look]
  rcases hseen : v.seen? i with _ | k
  · rw [join, Cell.subscribe]
    split
    · rfl
    · simp [List.filterMap_append, hseen]
  · have hmem := mem_filterMap_seen? c.subscribers hseen
    rw [join, Cell.subscribe]
    by_cases hi : i ∈ c.subscribers
    · rw [if_pos (by simpa using hi), if_pos (by simpa using hmem.mpr hi)]
    · rw [if_neg (by simpa using hi), if_neg (by simpa [hmem] using hi)]
      simp [List.filterMap_append, hseen]

end Veil

/-! ### Graphs that look the same -/

namespace Graph

variable {σ β : Type} {v v' : Veil} {g g' : Graph σ β} {i i' k : Nat}

/-- What is hidden is running. -/
def Covers (v : Veil) (g : Graph σ β) : Prop :=
  ∀ i, v.hidden i = true → ∃ e, g.effects[i]? = some e ∧ e.running = true

theorem Covers.lt_size (h : Covers v g) (hi : v.hidden i = true) : i < g.effects.size := by
  obtain ⟨e, he, -⟩ := h i hi
  exact (Array.getElem?_eq_some_iff.mp he).1

theorem Covers.hidden_size (h : Covers v g) : v.hidden g.effects.size = false := by
  rw [← Bool.not_eq_true]
  exact fun hi => Nat.lt_irrefl _ (h.lt_size hi)

/-- What is hidden is not started. -/
theorem Covers.start (h : Covers v g) (hi : v.hidden i = true) : g.start i = (none, g) := by
  obtain ⟨e, he, hrunning⟩ := h i hi
  rw [Graph.start, he]
  simp only [hrunning, if_pos]

/-- The graphs are the same except for what is hidden, which is running. -/
structure Alike (v v' : Veil) (g g' : Graph σ β) : Prop where
  cells : g.cells.map (fun p => (p.1, v.look p.2)) = g'.cells.map fun p => (p.1, v'.look p.2)
  effects : ∀ k i i', v.seen? i = some k → v'.seen? i' = some k → g.effects[i]? = g'.effects[i']?
  size : v.number g.effects.size = v'.number g'.effects.size
  scopes : ∀ d : Nat, g.scopes[d]?.bind v.reader? = g'.scopes[d]?.bind v'.reader?
  covers : Covers v g
  covers' : Covers v' g'

namespace Alike

theorem symm (h : Alike v v' g g') : Alike v' v g' g :=
  ⟨h.cells.symm, fun k i i' hi hi' => (h.effects k i' i hi' hi).symm, h.size.symm,
    fun d => (h.scopes d).symm, h.covers', h.covers⟩

/-! #### Signals -/

theorem look (h : Alike v v' g g') (x : String) :
    (g.cell? x).map v.look = (g'.cell? x).map v'.look := by
  have hfind (v : Veil) (g : Graph σ β) : (g.cell? x).map v.look =
      ((g.cells.map fun p => (p.1, v.look p.2)).find? (·.1 == x)).map (·.2) := by
    rw [cell?, List.find?_map, Option.map_map, Option.map_map]
    rfl
  rw [hfind v g, hfind v' g', h.cells]

theorem peek? (h : Alike v v' g g') (x : String) : g.peek? x = g'.peek? x := by
  have hlook := congrArg (Option.map Prod.fst) (h.look x)
  rwa [Option.map_map, Option.map_map] at hlook

/-- A signal changed on both sides in a way that looks the same. -/
theorem updateCell (h : Alike v v' g g') (name : String) (change change' : Cell σ → Cell σ)
    (seen : σ × List Nat → σ × List Nat) (hchange : ∀ c, v.look (change c) = seen (v.look c))
    (hchange' : ∀ c, v'.look (change' c) = seen (v'.look c)) :
    Alike v v' (g.updateCell name change) (g'.updateCell name change') where
  cells := by
    have hmap (v : Veil) (g : Graph σ β) {change : Cell σ → Cell σ}
        (hchange : ∀ c, v.look (change c) = seen (v.look c)) :
        (g.updateCell name change).cells.map (fun p => (p.1, v.look p.2)) =
          (g.cells.map fun p => (p.1, v.look p.2)).map fun p =>
            if p.1 = name then (p.1, seen p.2) else p := by
      rw [Graph.updateCell, List.map_map, List.map_map]
      refine List.map_congr_left fun p _ => ?_
      by_cases hp : p.1 = name <;> simp [hp, hchange]
    rw [hmap v g hchange, hmap v' g' hchange', h.cells]
  effects := h.effects
  size := h.size
  scopes := h.scopes
  covers := h.covers
  covers' := h.covers'

theorem updateCell_id (g : Graph σ β) (name : String) : (g.updateCell name fun c => c) = g := by
  have hsame : (fun p : String × Cell σ => if p.1 = name then (p.1, p.2) else p) = id := by
    funext p
    split <;> rfl
  rw [Graph.updateCell]
  simp only [hsame, List.map_id]

/-- What is seen of the effect that reads. -/
theorem reader?_eq (v : Veil) (g : Graph σ β) :
    g.scopes[0]?.bind v.reader? = g.observer?.bind v.seen? := by
  rw [observer?]
  rcases g.scopes with _ | ⟨scope, scopes⟩
  · rfl
  · cases scope <;> rfl

theorem observer? (h : Alike v v' g g') : g.observer?.bind v.seen? =
    g'.observer?.bind v'.seen? := by
  rw [← reader?_eq, ← reader?_eq, h.scopes]

/-- Reading is joining the subscribers. -/
theorem read_snd (g : Graph σ β) (name : String) :
    (g.read name).2 = g.updateCell name fun c =>
      (g.observer?.map fun i => Cell.subscribe c i).getD c := by
  rw [read]
  rcases g.observer? with _ | i
  · exact (updateCell_id g name).symm
  · rfl

theorem look_read (v : Veil) (g : Graph σ β) (c : Cell σ) :
    v.look ((g.observer?.map fun i => Cell.subscribe c i).getD c) =
      Veil.join (g.observer?.bind v.seen?) (v.look c) := by
  rcases g.observer? with _ | i
  · rfl
  · exact Veil.look_subscribe c i

theorem read (h : Alike v v' g g') (name : String) :
    (g.read name).1 = (g'.read name).1 ∧ Alike v v' (g.read name).2 (g'.read name).2 := by
  refine ⟨h.peek? name, ?_⟩
  rw [read_snd, read_snd]
  refine h.updateCell name _ _ (Veil.join (g.observer?.bind v.seen?)) (look_read v g) fun c => ?_
  rw [look_read, h.observer?]

/-- What is read by an effect that is hidden leaves no trace that can be seen. -/
theorem read_right (h : Alike v v' g g') (hobserver : g'.observer?.bind v'.seen? = none)
    (name : String) :
    Alike v v' g (g'.read name).2 := by
  rw [read_snd, ← updateCell_id g name]
  refine h.updateCell name _ _ (fun c => c) (fun _ => rfl) fun c => ?_
  rw [look_read, hobserver, Veil.join]

theorem write (h : Alike v v' g g') (name : String) (value : σ) :
    (g.write name value).1.filterMap v.seen? = (g'.write name value).1.filterMap v'.seen? ∧
      Alike v v' (g.write name value).2 (g'.write name value).2 := by
  refine ⟨?_, h.updateCell name (fun c => { c with value := value })
    (fun c => { c with value := value }) (fun c => (value, c.2)) (fun _ => rfl) fun _ => rfl⟩
  have hids (v : Veil) (g : Graph σ β) : (g.write name value).1.filterMap v.seen? =
      (((g.cell? name).map v.look).map Prod.snd).getD [] := by
    rw [Graph.write]
    rcases g.cell? name with _ | c <;> rfl
  rw [hids v g, hids v' g', h.look]

/-! #### Effects -/

theorem seen?_size (h : Alike v v' g g') :
    ∃ k, v.seen? g.effects.size = some k ∧ v'.seen? g'.effects.size = some k :=
  ⟨_, Veil.seen?_eq_some.mpr ⟨h.covers.hidden_size, rfl⟩,
    Veil.seen?_eq_some.mpr ⟨h.covers'.hidden_size, h.size.symm⟩⟩

theorem number_succ (hg : Covers v g) :
    v.number (g.effects.size + 1) = v.number g.effects.size + 1 := by
  rw [Veil.number, Veil.number]
  rcases hown : v.own with _ | n
  · rfl
  · have hn := hg.lt_size (v.hides_own n hown)
    simp only [if_pos hn, if_pos (Nat.lt_succ_of_lt hn)]
    omega

theorem covers_push (hg : Covers v g) (b : β) : Covers v (g.register b).2 := by
  intro i hi
  obtain ⟨e, he, hrunning⟩ := hg i hi
  refine ⟨e, ?_, hrunning⟩
  rw [effects_register, if_neg (Nat.ne_of_lt (hg.lt_size hi)), he]

theorem register (h : Alike v v' g g') (b : β) : Alike v v' (g.register b).2 (g'.register b).2 where
  cells := h.cells
  effects k i i' hi hi' := by
    obtain ⟨n, hn, hn'⟩ := h.seen?_size
    have hiff : i = g.effects.size ↔ i' = g'.effects.size := by
      constructor
      · rintro rfl
        obtain rfl := Option.some.inj (hi.symm.trans hn)
        exact Veil.seen?_inj hi' hn'
      · rintro rfl
        obtain rfl := Option.some.inj (hi'.symm.trans hn')
        exact Veil.seen?_inj hi hn
    rw [effects_register, effects_register, h.effects k i i' hi hi']
    simp only [hiff]
  size := by
    have hsize (g : Graph σ β) : (g.register b).2.effects.size = g.effects.size + 1 :=
      Array.size_push _
    rw [hsize, hsize, number_succ h.covers, number_succ h.covers', h.size]
  scopes := h.scopes
  covers := covers_push h.covers b
  covers' := covers_push h.covers' b

/-- The effects changed at one place that can be seen. -/
theorem modify (h : Alike v v' g g') (hi : v.seen? i = some k) (hi' : v'.seen? i' = some k)
    (change : Effect β → Effect β) :
    Alike v v' { g with effects := g.effects.modify i change }
      { g' with effects := g'.effects.modify i' change } where
  cells := h.cells
  effects l j j' hj hj' := by
    have hiff : i = j ↔ i' = j' := by
      constructor
      · rintro rfl
        obtain rfl := Option.some.inj (hi.symm.trans hj)
        exact Veil.seen?_inj hi' hj'
      · rintro rfl
        obtain rfl := Option.some.inj (hi'.symm.trans hj')
        exact Veil.seen?_inj hi hj
    simp only [Array.getElem?_modify, h.effects l j j' hj hj', hiff]
  size := by simpa using h.size
  scopes := h.scopes
  covers j hj := by
    obtain ⟨e, he, hrunning⟩ := h.covers j hj
    have hne : i ≠ j := by
      rintro rfl
      rw [Veil.seen?_eq_none.mpr hj] at hi
      cases hi
    exact ⟨e, by simpa [Array.getElem?_modify, hne] using he, hrunning⟩
  covers' j hj := by
    obtain ⟨e, he, hrunning⟩ := h.covers' j hj
    have hne : i' ≠ j := by
      rintro rfl
      rw [Veil.seen?_eq_none.mpr hj] at hi'
      cases hi'
    exact ⟨e, by simpa [Array.getElem?_modify, hne] using he, hrunning⟩

/-- A scope opened on both sides that looks the same. -/
theorem push (h : Alike v v' g g') {scope scope' : Scope}
    (hscope : v.reader? scope = v'.reader? scope') :
    Alike v v' { g with scopes := scope :: g.scopes }
      { g' with scopes := scope' :: g'.scopes } where
  cells := h.cells
  effects := h.effects
  size := h.size
  scopes
    | 0 => hscope
    | d + 1 => h.scopes d
  covers := h.covers
  covers' := h.covers'

/-- A scope closed on both sides. -/
theorem pop (h : Alike v v' g g') :
    Alike v v' { g with scopes := g.scopes.tail } { g' with scopes := g'.scopes.tail } where
  cells := h.cells
  effects := h.effects
  size := h.size
  scopes d := by
    simp only [List.getElem?_tail]
    exact h.scopes (d + 1)
  covers := h.covers
  covers' := h.covers'

theorem openUntracked (h : Alike v v' g g') : Alike v v' g.openUntracked g'.openUntracked :=
  h.push rfl

theorem closeScope (h : Alike v v' g g') : Alike v v' g.closeScope g'.closeScope := h.pop

theorem start (h : Alike v v' g g') (hi : v.seen? i = some k) (hi' : v'.seen? i' = some k) :
    (g.start i).1 = (g'.start i').1 ∧ Alike v v' (g.start i).2 (g'.start i').2 := by
  rw [Graph.start, Graph.start, ← h.effects k i i' hi hi']
  rcases g.effects[i]? with _ | e
  · exact ⟨rfl, h⟩
  · cases hrunning : e.running with
    | true => simpa only [hrunning, if_pos] using ⟨trivial, h⟩
    | false =>
      have hseen : v.reader? (.effect i) = v'.reader? (.effect i') := hi.trans hi'.symm
      simp only [hrunning, Bool.false_eq_true, if_false]
      exact ⟨trivial, (h.modify hi hi' fun e => { e with running := true }).push hseen⟩

theorem finish (h : Alike v v' g g') (hi : v.seen? i = some k) (hi' : v'.seen? i' = some k)
    (b : β) :
    Alike v v' (g.finish i b) (g'.finish i' b) :=
  (h.modify hi hi' fun _ => ⟨b, false⟩).pop

/-- What is read by a hidden effect can be any number of signals. -/
theorem readAll_right (h : Alike v v' g g') (hobserver : g'.observer?.bind v'.seen? = none)
    (names : List String) : Alike v v' g (g'.readAll names) := by
  induction names generalizing g' with
  | nil => exact h
  | cons name names ih =>
    have hscopes : (g'.read name).2.observer? = g'.observer? := by rw [read_snd]; rfl
    exact ih (h.read_right hobserver name) (by rw [hscopes]; exact hobserver)

end Alike

/-! ### An effect that has just been started -/

/-- All subscribers are effects, and readings count for effects that are running. -/
structure Orderly (g : Graph σ β) : Prop where
  subscribers : ∀ p ∈ g.cells, ∀ i ∈ p.2.subscribers, i < g.effects.size
  scopes : ∀ i, Scope.effect i ∈ g.scopes → ∃ e, g.effects[i]? = some e ∧ e.running = true

theorem orderly_ofValues (values : List (String × σ)) : (ofValues values : Graph σ β).Orderly where
  subscribers p hp i hi := by
    obtain ⟨q, -, rfl⟩ := List.mem_map.mp hp
    exact absurd hi List.not_mem_nil
  scopes _ hi := absurd hi List.not_mem_nil

/-- Whether an effect is running. -/
def running (g : Graph σ β) (i : Nat) : Bool := (g.effects[i]?.map (·.running)).getD false

theorem running_iff : g.running i = true ↔ ∃ e, g.effects[i]? = some e ∧ e.running = true := by
  rw [running]
  rcases g.effects[i]? with _ | e <;> simp

/-- All effects that are running are hidden. -/
def busy (g : Graph σ β) : Veil := ⟨g.running, none, nofun⟩

/-- And the next effect, when it is there, is hidden as well. -/
def busier (g : Graph σ β) : Veil where
  hidden i := g.running i || i == g.effects.size
  own := some g.effects.size
  hides_own n hn := by
    obtain rfl := Option.some.inj hn
    simp

theorem seen?_busier {i : Nat} (hi : i < g.effects.size) : g.busier.seen? i = g.busy.seen? i := by
  have hne : (i == g.effects.size) = false := by simpa using Nat.ne_of_lt hi
  have hle : ¬ g.effects.size < i := Nat.not_lt.mpr (Nat.le_of_lt hi)
  rw [Veil.seen?, Veil.seen?, Veil.number, Veil.number, busier, busy]
  simp only [hne, Bool.or_false, if_neg hle]

/-- No scope that is open counts for anything that can be seen. -/
theorem Orderly.reader?_scopes (h : g.Orderly) {v : Veil}
    (hv : ∀ i, g.running i = true → v.hidden i = true) (d : Nat) :
    g.scopes[d]?.bind v.reader? = none := by
  rcases hscope : g.scopes[d]? with _ | scope
  · rfl
  · cases scope with
    | untracked => rfl
    | effect i =>
      have hi := h.scopes i (List.mem_of_getElem? hscope)
      exact Veil.seen?_eq_none.mpr (hv i (running_iff.mpr hi))

theorem Orderly.observer? (h : g.Orderly) : g.observer?.bind g.busy.seen? = none := by
  rw [← Alike.reader?_eq]
  exact h.reader?_scopes (fun _ hi => hi) 0

theorem alike_self (g : Graph σ β) : Alike g.busy g.busy g g where
  cells := rfl
  effects k i i' hi hi' := by rw [Veil.seen?_inj hi hi']
  size := rfl
  scopes _ := rfl
  covers _ hi := running_iff.mp hi
  covers' _ hi := running_iff.mp hi

/-- A graph with one more effect, which is running, is like the graph without it. -/
theorem Orderly.alike_started (h : g.Orderly) (b : β) :
    ∃ g₁, (g.register b).2.start g.effects.size = (some b, g₁) ∧ Alike g.busy g.busier g g₁ ∧
      g₁.observer?.bind g.busier.seen? = none := by
  obtain ⟨n, hn⟩ : ∃ n, n = g.effects.size := ⟨_, rfl⟩
  obtain ⟨effects, heffects⟩ : ∃ effects : Array (Effect β), effects =
    (g.effects.push ⟨b, false⟩).modify n fun e => { e with running := true } := ⟨_, rfl⟩
  have hlookup (i : Nat) : effects[i]? = if i = n then some ⟨b, true⟩ else g.effects[i]? := by
    rw [heffects, hn, Array.getElem?_modify, Array.getElem?_push]
    by_cases hi : i = g.effects.size
    · rw [if_pos hi.symm, if_pos hi, if_pos hi]
      rfl
    · rw [if_neg (Ne.symm hi), if_neg hi, if_neg hi]
  have hsize : effects.size = n + 1 := by rw [heffects, hn]; simp
  have hbusier (i : Nat) (hi : g.running i = true) : g.busier.hidden i = true := by
    rw [busier]
    simp [hi]
  have hself : g.busier.hidden n = true := by
    rw [busier]
    simp [hn]
  refine ⟨⟨g.cells, effects, .effect n :: g.scopes⟩, ?_,
    ⟨?_, fun k i i' hi hi' => ?_, ?_, fun d => ?_, fun i hi => running_iff.mp hi, fun i hi => ?_⟩,
    Veil.seen?_eq_none.mpr hself⟩
  · rw [Graph.start, effects_register, if_pos rfl, heffects, hn]
    rfl
  · -- the subscribers are all older effects
    refine List.map_congr_left fun p hp => ?_
    rw [Veil.look, Veil.look]
    have hsame : p.2.subscribers.filterMap g.busy.seen? =
        p.2.subscribers.filterMap g.busier.seen? :=
      List.filterMap_congr fun i hi => (seen?_busier (h.subscribers p hp i hi)).symm
    rw [hsame]
  · change g.effects[i]? = effects[i']?
    rw [hlookup, if_neg (fun heq => by rw [heq, Veil.seen?_eq_none.mpr hself] at hi'; cases hi')]
    by_cases hlt : i' < g.effects.size
    · rw [seen?_busier hlt] at hi'
      rw [Veil.seen?_inj hi hi']
    · -- neither is there
      obtain ⟨-, hk⟩ := Veil.seen?_eq_some.mp hi
      obtain ⟨hhidden, hk'⟩ := Veil.seen?_eq_some.mp hi'
      have hne : i' ≠ g.effects.size := by
        rintro rfl
        rw [← hn, hself] at hhidden
        cases hhidden
      have hgt : g.effects.size < i' := by omega
      simp only [Veil.number, busy, busier, if_pos hgt] at hk hk'
      rw [Array.getElem?_eq_none (by omega), Array.getElem?_eq_none (by omega)]
  · change g.busy.number g.effects.size = g.busier.number effects.size
    rw [hsize, Veil.number, Veil.number, busy, busier, hn]
    simp
  · rw [h.reader?_scopes (fun _ hi => hi)]
    cases d with
    | zero => exact (Veil.seen?_eq_none.mpr hself).symm
    | succ d => exact (h.reader?_scopes hbusier d).symm
  · change ∃ e, effects[i]? = some e ∧ e.running = true
    rw [hlookup]
    by_cases hi' : i = n
    · rw [if_pos hi']
      exact ⟨_, rfl, rfl⟩
    · rw [if_neg hi']
      refine running_iff.mp ?_
      rw [busier] at hi
      simpa [hn ▸ hi'] using hi

end Graph
end Stencil.Signal
