/-
  Stencil/Proofs/Render/Shared.lean
  =================================
  **Holes that share a node.**

  The holes of `Holes` have readers that yield one and the same node, or nothing; what the
  signals hold decides which of them yields it.  A hole that yields the node takes it to its
  marker.  A hole that no longer does takes it away if it has put it there, wherever it stands
  by now.  So the runs of their effects are those of a `Custody` (`Kept.effect_run`), and a write
  is a sequence of such runs, in the order of subscription (`Kept.writeSignal`).
-/
import Stencil.Proofs.Render.Custody
import Stencil.Proofs.Render.Incremental
import Stencil.Proofs.Render.Replace

namespace Stencil.Render

open Document

/-! ### Where the node stands -/

section

variable {d : Page} {n m p : Nat}

/-- One node stands directly before another. -/
def StandsBefore (d : Page) (n m : NodeId) : Prop :=
  ∃ p front back, d.children p = front ++ n :: m :: back

/-- A marker that the node can be put before: it stands somewhere, and not in the node. -/
def Takes (d : Page) (n m : NodeId) : Prop :=
  m ≠ n ∧ ∃ p, d.parent? m = some p ∧ ¬ d.AncestorOrSelf n p

theorem StandsBefore.parent?_ne_none (h : StandsBefore d n m) (hforest : d.IsForest) :
    d.parent? n ≠ none := by
  obtain ⟨p, front, back, hplace⟩ := h
  have hparent : d.parent? n = some p := hforest.parent?_of_mem (by simp [hplace])
  simp [hparent]

theorem Takes.detach (h : Takes d n m) (hforest : d.IsForest) (x : NodeId) (hx : m ≠ x) :
    Takes (d.detach x) n m := by
  obtain ⟨hne, p, hparent, hout⟩ := h
  refine ⟨hne, p, ?_, ?_⟩
  · rw [parent?_detach hforest, if_neg hx, hparent]
  · rintro (heq | hanc)
    · exact hout (Or.inl heq)
    · exact hout (Or.inr (ancestor_of_detach hforest hanc))

theorem Takes.fits (h : Takes d n m) (hforest : d.IsForest) (hn : n < d.size)
    (hkind : d.isFragment n = false) (hparent : d.parent? m = some p) : d.Fits p n (some m) where
  parent_lt := hforest.parent_lt_size hparent
  child_lt := hn
  notFragment := hkind
  ne_ref heq := h.1 (Option.some.inj heq).symm
  notAbove := by
    obtain ⟨-, p', hparent', hout⟩ := h
    obtain rfl : p' = p := Option.some.inj (hparent'.symm.trans hparent)
    exact hout

/-- The markers can still take the node when one of them has. -/
theorem Takes.insertBefore (h : Takes d n m) (hforest : d.IsForest) {ref : Option NodeId}
    (hfit : d.Fits p n ref) : Takes (d.insertBefore p n ref) n m := by
  obtain ⟨hne, q, hparent, hout⟩ := h
  refine ⟨hne, q, ?_, ?_⟩
  · rw [parent?_insertBefore hforest hfit, if_neg hne, hparent]
  · rintro (heq | hanc)
    · exact hout (Or.inl heq)
    · rcases ancestor_of_insertBefore hforest hfit hanc with hold | ⟨-, hnew⟩
      · exact hout (Or.inr hold)
      · exact hout hnew

theorem standsBefore_insertBefore (hforest : d.IsForest) (hfit : d.Fits p n (some m))
    (hparent : d.parent? m = some p) : StandsBefore (d.insertBefore p n (some m)) n m := by
  obtain ⟨front, back, hplace⟩ := List.append_of_mem (hforest.mem_of_parent? hparent)
  have hne : m ≠ n := fun heq => hfit.ne_ref (congrArg some heq.symm)
  have hfront : m ∉ front.filter (· != n) := fun hmem => by
    have hnodup := hforest.nodup_children p
    rw [hplace] at hnodup
    exact (List.nodup_append.mp hnodup).2.2 m (List.mem_filter.mp hmem).1 m List.mem_cons_self rfl
  refine ⟨p, front.filter (· != n), back.filter (· != n), ?_⟩
  rw [children_insertBefore hforest hfit, if_pos rfl, hplace, List.filter_append,
    List.filter_cons_of_pos (by simpa using hne), insertAt_before hfront]

end

/-! ### Holes that share a node -/

/-- Holes that share a node, by the numbers of their effects: the marker and the reader of each,
    whether it yields the node when the signals hold what they hold, and what it has read for
    that. -/
structure Holes where
  marker : Nat → NodeId
  reader : Nat → Reader
  gives : (String → Script) → Nat → Bool
  reads : (String → Script) → Nat → List String

/-- `H.Offers ids c n stored`: the readers do what `H` says of them.  They yield the node `n` or
    nothing, and it depends on nothing but what they read. -/
structure Holes.Offers (H : Holes) (ids : List Nat) (c : Calls) (n : NodeId)
    (stored : List (String × Value)) : Prop where
  resolve : ∀ id ∈ ids, ∀ w : World, w.live = true → w.stored = stored →
    ∃ w', c.resolve (.reactive (H.reader id)) w =
        some (if H.gives w.held id then .node n else .empty, w') ∧
      Stirs w w' (H.reads w.held id) ∧ w'.page = w.page
  congr : ∀ id ∈ ids, ∀ σ σ' : String → Script, (∀ x ∈ H.reads σ id, σ' x = σ x) →
    H.gives σ' id = H.gives σ id ∧ H.reads σ' id = H.reads σ id

theorem Holes.Offers.mono {H : Holes} {all ids : List Nat} {c : Calls} {n : NodeId}
    {stored : List (String × Value)} (h : H.Offers all c n stored) (hsub : ∀ id ∈ ids, id ∈ all) :
    H.Offers ids c n stored :=
  ⟨fun id hid => h.resolve id (hsub id hid), fun id hid => h.congr id (hsub id hid)⟩

/-- The node, or nothing. -/
def handed (n : NodeId) (gives : Bool) : List NodeId := if gives then [n] else []

theorem eq_of_mem_handed {n x : NodeId} {gives : Bool} (h : x ∈ handed n gives) : x = n := by
  cases gives with
  | false => cases h
  | true => exact List.mem_singleton.mp h

theorem ofList_handed (n : NodeId) (gives : Bool) :
    (if gives then Value.node n else .empty) = Value.ofList ((handed n gives).map .node) := by
  cases gives <;> rfl

/-- The node stands where it is said to stand, and all markers can take it. -/
structure Placed (H : Holes) (ids : List Nat) (n : NodeId) (d : Page) (place : Option Nat) :
    Prop where
  forest : d.IsForest
  lt_size : n < d.size
  notFragment : d.isFragment n = false
  takes : ∀ id ∈ ids, Takes d n (H.marker id)
  standing : ∀ id, place = some id → StandsBefore d n (H.marker id)
  apart : place = none → d.parent? n = none

section

variable {H : Holes} {ids : List Nat} {n : NodeId} {d : Page} {id : Nat}

theorem Placed.detach {place : Option Nat} (h : Placed H ids n d place) :
    Placed H ids n (d.detach n) none where
  forest := h.forest.detach n
  lt_size := by
    rw [size_detach]
    exact h.lt_size
  notFragment := by
    rw [isFragment_detach h.forest]
    exact h.notFragment
  takes x hx := (h.takes x hx).detach h.forest n (h.takes x hx).1
  standing := nofun
  apart _ := by rw [parent?_detach h.forest, if_pos rfl]

theorem Placed.insertBefore {place : Option Nat} (h : Placed H ids n d place) (hid : id ∈ ids)
    {p : Nat} (hparent : d.parent? (H.marker id) = some p) :
    Placed H ids n (d.insertBefore p n (some (H.marker id))) (some id) := by
  have hfit := (h.takes id hid).fits h.forest h.lt_size h.notFragment hparent
  constructor
  · exact h.forest.insertBefore hfit
  · exact (size_insertBefore h.forest hfit).symm ▸ h.lt_size
  · exact (isFragment_insertBefore h.forest hfit n).trans h.notFragment
  · intro x hx
    exact (h.takes x hx).insertBefore h.forest hfit
  · intro x hx
    obtain rfl := Option.some.inj hx
    exact standsBefore_insertBefore h.forest hfit hparent
  · nofun

/-- What the run of an effect does to the page is what it does to the custody. -/
theorem Placed.run {d₁ : Page} {k : Custody} (h : Placed H ids n d k.place) (gives : Nat → Bool)
    (hid : id ∈ ids)
    (hd₁ : d₁ = (handed n (decide (id ∈ k.memory))).foldl (fun d n => d.detach n) d) :
    ∃ p, d₁.parent? (H.marker id) = some p ∧ d₁.isFragment n = false ∧
      Placed H ids n (insertAll d₁ p (some (H.marker id)) (handed n (gives id)))
        (k.run gives id).place := by
  -- the page without the node, if the effect remembers it
  have h₁ : Placed H ids n d₁ (if id ∈ k.memory then none else k.place) := by
    by_cases hmem : id ∈ k.memory
    · have heq : d₁ = d.detach n := by simp [hd₁, handed, hmem]
      rw [heq, if_pos hmem]
      exact h.detach
    · have heq : d₁ = d := by simp [hd₁, handed, hmem]
      rw [heq, if_neg hmem]
      exact h
  obtain ⟨-, p, hparent, -⟩ := h₁.takes id hid
  refine ⟨p, hparent, h₁.notFragment, ?_⟩
  cases hgives : gives id with
  | false =>
    rw [Custody.run_of_not_gives hgives]
    exact h₁
  | true =>
    rw [Custody.run, if_pos hgives]
    exact h₁.insertBefore hid hparent

end

/-! ### Runs of effects -/

/-- Those of the holes `all` that have been mounted, `ids`, have come to what the custody says of
    the node, and each that is not due subscribes to what it has read. -/
structure Kept (H : Holes) (all ids : List Nat) (n : NodeId) (stored : List (String × Value))
    (due : List Nat) (w : World) (k : Custody) : Prop where
  live : w.live = true
  stored_eq : w.stored = stored
  placed : Placed H all n w.page k.place
  among : ∀ id ∈ ids, id ∈ all
  effect : ∀ id ∈ ids, w.graph.effects[id]? =
    some ⟨.content (H.marker id) (H.reader id) (handed n (decide (id ∈ k.memory))), false⟩
  known : ∀ id ∈ k.memory, id ∈ ids
  watches : ∀ id ∈ ids, id ∈ due ∨ Watches w.graph id (H.reads w.held id)
  subscriber : ∀ name, ∀ id ∈ w.graph.subscribers name, id ∈ ids
  nodup : ∀ name, (w.graph.subscribers name).Nodup

/-- An effect that has run is a subscriber of what it has read, and the others are what they
    were. -/
theorem Rerun.watches {w w' : World} {id : Nat} {b : Binding} {reads : List String}
    (h : Rerun w w' id b reads) : Watches w'.graph id reads ∧
      ∀ j reads', Watches w.graph j reads' → Watches w'.graph j reads' := by
  refine ⟨fun name hname hsome => ?_, fun j reads' hwatches name hname hsome => ?_⟩
  · rw [h.graph.isSome_cell?] at hsome
    exact h.graph.mem_subscribers.mpr (Or.inr ⟨rfl, hname, hsome⟩)
  · rw [h.graph.isSome_cell?] at hsome
    exact h.graph.mem_subscribers.mpr (Or.inl (hwatches name hname hsome))

section

variable {f : Factory} {H : Holes} {all ids : List Nat} {n : NodeId}
  {stored : List (String × Value)}
  {w : World} {k : Custody}

/-- What the graph and the page have become by a run is what the custody has become by it. -/
theorem Kept.rerun {w' : World} {id : Nat} {due : List Nat}
    (h : Kept H all ids n stored (id :: due) w k) (hid : id ∈ ids)
    (hrerun : Rerun w w' id (.content (H.marker id) (H.reader id) (handed n (H.gives w.held id)))
      (H.reads w.held id))
    (hplaced : Placed H all n w'.page (k.run (H.gives w.held) id).place) :
    Kept H all ids n stored due w' (k.run (H.gives w.held) id) where
  live := hrerun.live.trans h.live
  stored_eq := hrerun.stored.trans h.stored_eq
  placed := hplaced
  among := h.among
  effect x hx := by
    have hremembers : decide (x ∈ (k.run (H.gives w.held) id).memory) =
        if x = id then H.gives w.held id else decide (x ∈ k.memory) := by
      by_cases hxid : x = id <;> simp [Custody.mem_memory_run, hxid]
    rw [hrerun.graph.effect, hremembers]
    by_cases hxid : x = id
    · rw [if_pos hxid, if_pos hxid, hxid]
    · rw [if_neg hxid, if_neg hxid, h.effect x hx]
  known x hx := by
    rw [Custody.mem_memory_run] at hx
    split at hx
    · next heq => exact heq ▸ hid
    · exact h.known x hx
  watches x hx := by
    rw [hrerun.held]
    rcases h.watches x hx with hdue | hwatches
    · rcases List.mem_cons.mp hdue with rfl | hdue
      · exact Or.inr hrerun.watches.1
      · exact Or.inl hdue
    · exact Or.inr (hrerun.watches.2 x _ hwatches)
  subscriber name x hx := by
    rcases hrerun.graph.mem_subscribers.mp hx with hx | ⟨rfl, -, -⟩
    · exact h.subscriber name x hx
    · exact hid
  nodup name := hrerun.graph.nodup_subscribers (h.nodup name)

/-- One effect that is due has run. -/
theorem Kept.effect_run {c : Calls} (hoffers : H.Offers ids c n stored) {id : Nat} {due : List Nat}
    (h : Kept H all ids n stored (id :: due) w k) (hid : id ∈ ids) :
    ∃ w', runEffect f c id w = some ((), w') ∧ w'.held = w.held ∧ w'.known = w.known ∧
      w'.graph.effects.size = w.graph.effects.size ∧
      Kept H all ids n stored due w' (k.run (H.gives w.held) id) := by
  obtain ⟨w', b', hrun, hrerun, rfl, hplaced⟩ :=
    runEffect_run (f := f) (c := c) (H.reads w.held id)
      (P := fun d b' => b' = .content (H.marker id) (H.reader id) (handed n (H.gives w.held id)) ∧
        Placed H all n d (k.run (H.gives w.held) id).place)
      h.live (h.effect id hid) fun w₀ hpage hheld hstored hlive₀ => by
      obtain ⟨w₁, hread, hstirs, hsame⟩ :=
        hoffers.resolve id hid w₀ hlive₀ (hstored.trans h.stored_eq)
      rw [hheld, ofList_handed] at hread
      rw [hpage] at hsame
      -- the page without what the effect remembers
      obtain ⟨d₁, hd₁⟩ : ∃ d₁, d₁ =
        (handed n (decide (id ∈ k.memory))).foldl (fun d n => d.detach n) w₁.page := ⟨_, rfl⟩
      obtain ⟨p, hparent, hkind, hplaced⟩ :=
        h.placed.run (H.gives w.held) (h.among id hid) (hsame ▸ hd₁)
      refine ⟨_, _, runBinding_nodes hlive₀ hread (replaceContent_nodes hd₁ hparent ?_),
        (hheld ▸ hstirs).onPage _, rfl, hplaced⟩
      intro x hx
      rw [eq_of_mem_handed hx, hkind]
  refine ⟨w', hrun, hrerun.held, ?_, hrerun.graph.size, h.rerun hid hrerun hplaced⟩
  funext x
  exact hrerun.graph.isSome_cell? x

theorem Kept.executeAll {j : Nat} (hoffers : H.Offers ids (machine f j) n stored) {due : List Nat}
    (h : Kept H all ids n stored due w k) (hdue : ∀ id ∈ due, id ∈ ids) :
    ∃ w', Signal.executeAll (machine f (j + 1)).effect due w = some ((), w') ∧ w'.held = w.held ∧
      w'.known = w.known ∧
      Kept H all ids n stored [] w' (due.foldl (Custody.run (H.gives w.held)) k) := by
  induction due generalizing w k with
  | nil => exact ⟨w, rfl, rfl, rfl, h⟩
  | cons id due ih =>
    obtain ⟨hid, hdue'⟩ := List.forall_mem_cons.mp hdue
    obtain ⟨w₁, hrun, hheld, hknown, -, h₁⟩ := h.effect_run (f := f) hoffers hid
    obtain ⟨w', hrun', hheld', hknown', h'⟩ := ih h₁ hdue'
    refine ⟨w', ?_, hheld'.trans hheld, hknown'.trans hknown, hheld ▸ h'⟩
    rw [Signal.executeAll, run_bind ((machine_effect f j id w).trans hrun)]
    exact hrun'

/-! ### Writes -/

/-- A hole that does not subscribe to a signal has not read it, so a write changes nothing for
    it. -/
theorem Kept.unread {c : Calls} (hoffers : H.Offers ids c n stored)
    (h : Kept H all ids n stored [] w k) {name : String} {id : Nat} (hid : id ∈ ids)
    (hno : id ∉ w.graph.subscribers name) (code : Script) :
    H.gives (holding w.known w.held name code) id = H.gives w.held id ∧
      H.reads (holding w.known w.held name code) id = H.reads w.held id := by
  refine hoffers.congr id hid w.held _ fun x hx => ?_
  rw [holding, if_neg]
  rintro ⟨rfl, hknown⟩
  rcases h.watches id hid with hdue | hwatches
  · cases hdue
  · exact hno (hwatches x hx hknown)

/-- What subscribes to a signal that is written is due. -/
theorem Kept.write {c : Calls} (hoffers : H.Offers ids c n stored)
    (h : Kept H all ids n stored [] w k) (name : String) (code : Script) :
    Kept H all ids n stored (w.graph.subscribers name)
      { w with graph := (w.graph.write name code).2 } k where
  live := h.live
  stored_eq := h.stored_eq
  placed := h.placed
  among := h.among
  effect := h.effect
  known := h.known
  watches id hid := by
    by_cases hdue : id ∈ w.graph.subscribers name
    · exact Or.inl hdue
    · rcases h.watches id hid with hno | hwatches
      · cases hno
      · rw [held_write, (h.unread hoffers hid hdue code).2]
        exact Or.inr (watches_write code hwatches)
  subscriber x id hid := by
    rw [Signal.Graph.subscribers_write] at hid
    exact h.subscriber x id hid
  nodup x := by
    rw [Signal.Graph.subscribers_write]
    exact h.nodup x

theorem Kept.writeSignal {j : Nat} (hoffers : H.Offers ids (machine f j) n stored)
    (h : Kept H all ids n stored [] w k) (name : String) (code : Script) :
    ∃ w', Render.writeSignal (machine f (j + 1)) name code w = some ((), w') ∧
      w'.held = holding w.known w.held name code ∧ w'.known = w.known ∧
      Kept H all ids n stored [] w'
        ((w.graph.subscribers name).foldl (Custody.run (H.gives w'.held)) k) := by
  obtain ⟨w', hrun, hheld, hknown, h'⟩ :=
    (h.write hoffers name code).executeAll hoffers (h.subscriber name)
  refine ⟨w', ?_, hheld.trans (held_write w name code), hknown.trans (known_write w name code),
    hheld ▸ h'⟩
  have hwrite : (modifyGet fun g : SignalGraph => g.write name code : Run (List Nat)) w =
      some (w.graph.subscribers name, { w with graph := (w.graph.write name code).2 }) := rfl
  rw [Render.writeSignal, Signal.write, run_bind hwrite]
  exact hrun

end

end Stencil.Render
