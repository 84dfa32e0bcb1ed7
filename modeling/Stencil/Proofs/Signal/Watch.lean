/-
  Stencil/Proofs/Signal/Watch.lean
  ================================
  **What a run of an effect leaves behind in the graph.**

  While an effect runs, every signal that is read gets it as a subscriber, and nothing
  else about the signals changes (`watch`).  `Ran` is the whole of a run seen from
  outside: the effect has the body for the next time, the signals that were read have it
  as a subscriber, and the scopes are as they were.
-/
import Stencil.Signal.Tracking

namespace Stencil.Signal.Graph

variable {σ β : Type} {g g' : Graph σ β}

/-! ### Subscriptions -/

theorem value_subscribe (c : Cell σ) (id : Nat) : (Cell.subscribe c id).value = c.value := by
  rw [Cell.subscribe]
  split <;> rfl

theorem mem_subscribe {c : Cell σ} {id j : Nat} :
    j ∈ (Cell.subscribe c id).subscribers ↔ j ∈ c.subscribers ∨ j = id := by
  rw [Cell.subscribe]
  split
  · rename_i h
    have hmem : id ∈ c.subscribers := by simpa using h
    constructor
    · exact Or.inl
    · rintro (h | rfl)
      · exact h
      · exact hmem
  · simp

theorem nodup_subscribe {c : Cell σ} (h : c.subscribers.Nodup) (id : Nat) :
    (Cell.subscribe c id).subscribers.Nodup := by
  rw [Cell.subscribe]
  split
  · exact h
  · rename_i hnew
    refine List.nodup_append.mpr ⟨h, List.pairwise_singleton _ id, fun a ha b hb heq => ?_⟩
    obtain rfl := List.mem_singleton.mp hb
    exact hnew (by simpa [heq] using ha)

theorem subscribe_subscribe (c : Cell σ) (id : Nat) :
    Cell.subscribe (Cell.subscribe c id) id = Cell.subscribe c id := by
  have hmem : id ∈ (Cell.subscribe c id).subscribers := mem_subscribe.mpr (Or.inr rfl)
  rw [Cell.subscribe, if_pos (by simpa using hmem)]

theorem cell?_updateCell (g : Graph σ β) (name other : String) (f : Cell σ → Cell σ) :
    (g.updateCell name f).cell? other =
      if other = name then (g.cell? other).map f else g.cell? other := by
  rw [cell?, cell?, updateCell]
  induction g.cells with
  | nil => simp
  | cons p ps ih =>
    obtain ⟨n, c⟩ := p
    rw [List.map_cons]
    by_cases hn : n = name <;> by_cases ho : n = other <;> grind

/-- The signals named get a subscriber. -/
def watch (g : Graph σ β) (id : Nat) (names : List String) : Graph σ β :=
  names.foldl (fun g name => g.updateCell name fun c => Cell.subscribe c id) g

theorem cell?_watch (g : Graph σ β) (id : Nat) (names : List String) (x : String) :
    (g.watch id names).cell? x =
      (g.cell? x).map fun c => if x ∈ names then Cell.subscribe c id else c := by
  induction names generalizing g with
  | nil => simp [watch]
  | cons name names ih =>
    rw [watch, List.foldl_cons, ← watch, ih, cell?_updateCell]
    by_cases hx : x = name
    · by_cases hmem : x ∈ names <;> simp [hx, Function.comp_def, subscribe_subscribe]
    · simp [hx]

theorem effects_watch (g : Graph σ β) (id : Nat) (names : List String) :
    (g.watch id names).effects = g.effects := by
  induction names generalizing g with
  | nil => rfl
  | cons name names ih => exact ih _

theorem scopes_watch (g : Graph σ β) (id : Nat) (names : List String) :
    (g.watch id names).scopes = g.scopes := by
  induction names generalizing g with
  | nil => rfl
  | cons name names ih => exact ih _

/-! ### Readings -/

/-- Several signals read one after the other. -/
def readAll (g : Graph σ β) (names : List String) : Graph σ β :=
  names.foldl (fun g name => (g.read name).2) g

theorem readAll_append (g : Graph σ β) (names more : List String) :
    g.readAll (names ++ more) = (g.readAll names).readAll more := List.foldl_append

/-- Readings count for the effect that runs. -/
theorem readAll_eq_watch {id : Nat} (h : g.observer? = some id) (names : List String) :
    g.readAll names = g.watch id names := by
  induction names generalizing g with
  | nil => rfl
  | cons name names ih =>
    have hread : (g.read name).2 = g.updateCell name fun c => Cell.subscribe c id := by
      rw [read, h]
    have hobserver : (g.read name).2.observer? = some id := by
      rw [hread]
      exact h
    rw [readAll, List.foldl_cons, ← readAll, ih hobserver, hread]
    rfl

theorem peek?_read (g : Graph σ β) (name x : String) : (g.read name).2.peek? x = g.peek? x := by
  rw [read]
  split
  · rw [peek?, peek?, cell?_updateCell]
    split
    · rw [Option.map_map]
      congr 1
      funext c
      exact value_subscribe c _
    · rfl
  · rfl

theorem peek?_readAll (g : Graph σ β) (names : List String) (x : String) :
    (g.readAll names).peek? x = g.peek? x := by
  induction names generalizing g with
  | nil => rfl
  | cons name names ih =>
    rw [readAll, List.foldl_cons, ← readAll, ih, peek?_read]

/-! ### Runs -/

/-- `Ran g g' id b names`: effect `id` has run, has read the signals named, and has the body `b`
    now. -/
structure Ran (g g' : Graph σ β) (id : Nat) (b : β) (names : List String) : Prop where
  cell : ∀ x, g'.cell? x = (g.cell? x).map fun c => if x ∈ names then Cell.subscribe c id else c
  effect : ∀ j : Nat, g'.effects[j]? = if j = id then some ⟨b, false⟩ else g.effects[j]?
  scopes : g'.scopes = g.scopes
  size : g'.effects.size = g.effects.size

/-- What an effect that is not running starts with. -/
theorem start_eq {id : Nat} {b : β} (h : g.effects[id]? = some ⟨b, false⟩) :
    ∃ g₁, g.start id = (some b, g₁) ∧ g₁.observer? = some id ∧ (∀ x, g₁.peek? x = g.peek? x) ∧
      ∀ names b', Ran g ((g₁.readAll names).finish id b') id b' names := by
  refine ⟨{ g with
    effects := g.effects.modify id fun e => { e with running := true }
    scopes := .effect id :: g.scopes }, ?_, rfl, fun x => rfl, fun names b' => ?_⟩
  · rw [start, h]
    rfl
  · rw [readAll_eq_watch rfl]
    refine ⟨fun x => cell?_watch _ id names x, fun j => ?_, ?_, ?_⟩
    · rw [finish, effects_watch]
      by_cases hj : j = id
      · subst hj
        simp only [Array.getElem?_modify, if_pos, h, Option.map_some]
      · simp [Array.getElem?_modify, hj, Ne.symm hj]
    · rw [finish, scopes_watch]
      rfl
    · rw [finish, effects_watch, Array.size_modify, Array.size_modify]

theorem Ran.peek? {id : Nat} {b : β} {names : List String} (h : Ran g g' id b names) (x : String) :
    g'.peek? x = g.peek? x := by
  rw [Graph.peek?, Graph.peek?, h.cell, Option.map_map]
  congr 1
  funext c
  change (if x ∈ names then Cell.subscribe c id else c).value = c.value
  split
  · exact value_subscribe c id
  · rfl

/-- The subscribers of a signal; one that is not there has none. -/
def subscribers (g : Graph σ β) (name : String) : List Nat :=
  ((g.cell? name).map (·.subscribers)).getD []

theorem cell?_ofValues (values : List (String × σ)) (x : String) :
    (ofValues values : Graph σ β).cell? x = (values.find? (·.1 == x)).map fun p => ⟨p.2, []⟩ := by
  rw [cell?, ofValues, List.find?_map, Option.map_map]
  rfl

theorem isSome_cell?_ofValues {values : List (String × σ)} {x : String}
    (hx : x ∈ values.map (·.1)) : ((ofValues values : Graph σ β).cell? x).isSome = true := by
  obtain ⟨p, hp, rfl⟩ := List.mem_map.mp hx
  rw [cell?_ofValues, Option.isSome_map, List.find?_isSome]
  exact ⟨p, hp, beq_self_eq_true _⟩

/-- Nothing has been read yet. -/
theorem subscribers_ofValues (values : List (String × σ)) (x : String) :
    (ofValues values : Graph σ β).subscribers x = [] := by
  rw [subscribers, cell?_ofValues]
  cases values.find? (·.1 == x) <;> rfl

theorem Ran.isSome_cell? {id : Nat} {b : β} {names : List String} (h : Ran g g' id b names)
    (x : String) : (g'.cell? x).isSome = (g.cell? x).isSome := by
  rw [h.cell, Option.isSome_map]

theorem Ran.mem_subscribers {id : Nat} {b : β} {names : List String} (h : Ran g g' id b names)
    {x : String} {j : Nat} : j ∈ g'.subscribers x ↔
      j ∈ g.subscribers x ∨ j = id ∧ x ∈ names ∧ (g.cell? x).isSome = true := by
  rw [subscribers, subscribers, h.cell]
  rcases g.cell? x with _ | c
  · simp
  · by_cases hx : x ∈ names
    · simp [hx, mem_subscribe]
    · simp [hx]

theorem Ran.nodup_subscribers {id : Nat} {b : β} {names : List String} (h : Ran g g' id b names)
    {x : String} (hnodup : (g.subscribers x).Nodup) : (g'.subscribers x).Nodup := by
  rw [subscribers] at hnodup ⊢
  rw [h.cell]
  rcases hcell : g.cell? x with _ | c
  · simp
  · rw [hcell] at hnodup
    by_cases hx : x ∈ names
    · simpa [hx] using nodup_subscribe (c := c) hnodup id
    · simpa [hx] using hnodup

/-- A write changes no subscription. -/
theorem subscribers_write (g : Graph σ β) (name : String) (value : σ) (x : String) :
    (g.write name value).2.subscribers x = g.subscribers x := by
  rw [subscribers, write, cell?_updateCell, subscribers]
  split
  · rw [Option.map_map]
    rfl
  · rfl

theorem isSome_cell?_write (g : Graph σ β) (name : String) (value : σ) (x : String) :
    ((g.write name value).2.cell? x).isSome = (g.cell? x).isSome := by
  rw [write, cell?_updateCell]
  split <;> simp

/-- A write changes one value at most, and none if there is no such signal. -/
theorem peek?_write (g : Graph σ β) {name : String} (value : σ) {x : String}
    (hx : x ≠ name ∨ (g.cell? x).isSome = false) :
    (g.write name value).2.peek? x = g.peek? x := by
  rw [write, peek?, cell?_updateCell, peek?]
  split
  · next heq =>
    rcases hx with hne | hnone
    · exact absurd heq hne
    · rw [Option.isSome_eq_false_iff, Option.isNone_iff_eq_none] at hnone
      rw [hnone]
      rfl
  · rfl

theorem isSome_cell?_read (g : Graph σ β) (name x : String) :
    ((g.read name).2.cell? x).isSome = (g.cell? x).isSome := by
  rw [read]
  split
  · rw [cell?_updateCell]
    split <;> simp
  · rfl

/-- Reading takes no subscription away. -/
theorem subscribers_read {g : Graph σ β} {x : String} {j : Nat} (h : j ∈ g.subscribers x)
    (name : String) : j ∈ (g.read name).2.subscribers x := by
  rw [read]
  split
  · rw [subscribers] at h ⊢
    rw [cell?_updateCell]
    split
    · rcases hcell : g.cell? x with _ | c
      · simp [hcell] at h
      · rw [hcell] at h
        exact mem_subscribe.mpr (Or.inl h)
    · exact h
  · exact h

/-! ### Starts and ends of runs -/

theorem cells_start (g : Graph σ β) (id : Nat) : (g.start id).2.cells = g.cells := by
  rw [start]
  split
  · rfl
  · split <;> rfl

theorem effects_start_of_ne (g : Graph σ β) {id j : Nat} (h : j ≠ id) :
    (g.start id).2.effects[j]? = g.effects[j]? := by
  rw [start]
  split
  · rfl
  · split
    · rfl
    · simp [Array.getElem?_modify, Ne.symm h]

/-- A start changes no body. -/
theorem body_start {g : Graph σ β} {id j : Nat} {e : Effect β}
    (h : (g.start id).2.effects[j]? = some e) :
    ∃ e', g.effects[j]? = some e' ∧ e'.body = e.body := by
  rw [start] at h
  split at h
  · exact ⟨e, h, rfl⟩
  · split at h
    · exact ⟨e, h, rfl⟩
    · simp only [Array.getElem?_modify] at h
      split at h
      · obtain ⟨e', he', rfl⟩ := Option.map_eq_some_iff.mp h
        exact ⟨e', he', rfl⟩
      · exact ⟨e, h, rfl⟩

/-- What is started is the body of the effect. -/
theorem start_body {g : Graph σ β} {id : Nat} {b : β} (h : (g.start id).1 = some b) :
    ∃ e, g.effects[id]? = some e ∧ e.body = b := by
  rw [start] at h
  split at h
  · cases h
  · rename_i e he
    split at h
    · cases h
    · exact ⟨e, he, Option.some.inj h⟩

/-- Nothing happens if nothing is started. -/
theorem start_none {g : Graph σ β} {id : Nat} (h : (g.start id).1 = none) : (g.start id).2 = g := by
  rw [start] at h ⊢
  split
  · rfl
  · rename_i e he
    rw [he] at h
    cases hrunning : e.running
    · simp [hrunning] at h
    · rfl

theorem effects_finish (g : Graph σ β) (id j : Nat) (b : β) :
    (g.finish id b).effects[j]? =
      if j = id then g.effects[j]?.map fun _ => ⟨b, false⟩ else g.effects[j]? := by
  rw [finish, Array.getElem?_modify]
  by_cases h : j = id
  · rw [if_pos h, if_pos h.symm]
  · rw [if_neg h, if_neg (Ne.symm h)]

theorem effects_read (g : Graph σ β) (name : String) : (g.read name).2.effects = g.effects := by
  rw [read]
  split <;> rfl

theorem cell?_start (g : Graph σ β) (id : Nat) (x : String) :
    (g.start id).2.cell? x = g.cell? x := by
  rw [cell?, cells_start, ← cell?]

theorem peek?_start (g : Graph σ β) (id : Nat) (x : String) :
    (g.start id).2.peek? x = g.peek? x := by
  rw [peek?, cell?_start, ← peek?]

theorem effects_register (g : Graph σ β) (b : β) (i : Nat) :
    (g.register b).2.effects[i]? =
      if i = g.effects.size then some ⟨b, false⟩ else g.effects[i]? := by
  rw [register, Array.getElem?_push]

end Stencil.Signal.Graph
