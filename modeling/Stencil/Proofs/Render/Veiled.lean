/-
  Stencil/Proofs/Render/Veiled.lean
  =================================
  **The renderer does not notice what is running around it.**

  Two worlds are alike under two veils if they differ in their signal graphs only, and
  there only in what is hidden.  Everything that the renderer does in one of them, it does
  in the other as well, with the same page and the same log (`Veiled.serves`): an effect
  that is running cannot be started once more, so neither what it is nor whether it is
  there makes a difference.
-/
import Stencil.Proofs.Render.Deeper
import Stencil.Proofs.Render.Primitive
import Stencil.Proofs.Signal.Veil

namespace Stencil.Render

open Signal (Veil)

variable {v v' : Veil} {w w' : World} {α : Type}

/-- Two worlds are the same except for effects that are hidden in one or the other. -/
structure World.Alike (v v' : Veil) (w w' : World) : Prop where
  graph : w.graph.Alike v v' w'.graph
  rest : w' = { w with graph := w'.graph }

theorem World.Alike.symm (h : w.Alike v v' w') : w'.Alike v' v w where
  graph := h.graph.symm
  rest := by rw [h.rest]

/-- Both graphs changed. -/
theorem World.Alike.onGraph (h : w.Alike v v' w') {g g' : SignalGraph} (hg : g.Alike v v' g') :
    World.Alike v v' { w with graph := g } { w' with graph := g' } where
  graph := hg
  rest := by rw [h.rest]

/-- An action that has nothing to do with the signals. -/
def Aloof (act : Run α) : Prop :=
  ∀ w (g : SignalGraph), act { w with graph := g } = (act w).map fun r =>
    (r.1, { r.2 with graph := g })

theorem aloof_onPage (act : Page → α × Page) : Aloof (onPage act) := fun _ _ => rfl

theorem aloof_changePage (act : Page → Page) : Aloof (changePage act) := fun _ _ => rfl

theorem aloof_log (e : LogEntry) : Aloof (log e) := fun _ _ => rfl

theorem aloof_compile (f : Factory) (l : Literal) : Aloof (compile f l) := fun _ _ => rfl

theorem aloof_storedValue (name : String) : Aloof (storedValue name) := fun _ _ => rfl

theorem aloof_container (name : String) : Aloof (container name) := by
  intro w g
  rcases hfind : w.containers.find? (·.1 == name) with _ | p
  · have hfind' : ({ w with graph := g } : World).containers.find? (·.1 == name) = none := hfind
    rw [run_container_new hfind, run_container_new hfind']
    rfl
  · have hfind' : ({ w with graph := g } : World).containers.find? (·.1 == name) = some p := hfind
    rw [run_container_old hfind, run_container_old hfind']
    rfl

/-- Pairs of worlds that are alike. -/
def veiledRegime (v v' : Veil) : Regime where
  Kind := Unit
  State := { p : World × World // p.1.Alike v v' p.2 }
  world s := s.1.1
  other s := s.1.2
  same_page s := by rw [s.2.rest]
  same_live s := by rw [s.2.rest]
  bounds _ _ := Bounds.free
  place _ _ _ := True
  hub _ _ _ := True
  Next _ _ _ := True

namespace Veiled

variable {f : Factory} {s : (veiledRegime v v').State} {c c' : Calls}

/-- An action that has nothing to do with the signals. -/
theorem does {act : Run α} {Q : α → (veiledRegime v v').State → Prop} (h : Aloof act)
    (hQ : ∀ a s', Q a s') : (veiledRegime v v').Does () s act act Q := by
  obtain ⟨⟨w, w'⟩, halike⟩ := s
  intro a w₁ hrun
  have halike : w.Alike v v' w' := halike
  have hrun : act w = some (a, w₁) := hrun
  have hkept : w₁.graph = w.graph := by
    have hself := h w w.graph
    rw [hrun] at hself
    have hsame : w₁ = { w₁ with graph := w.graph } := by simpa using hself
    rw [hsame]
  have hrun' : act w' = some (a, { w₁ with graph := w'.graph }) := by
    rw [halike.rest, h, hrun]
    rfl
  have halike₁ : w₁.Alike v v' { w₁ with graph := w'.graph } := ⟨hkept.symm ▸ halike.graph, rfl⟩
  exact ⟨⟨(w₁, _), halike₁⟩, hrun', rfl, trivial, hQ _ _⟩

/-- An action on the signals that has the same answer on graphs that are alike, and leaves them
    so. -/
theorem does_graph (act act' : SignalGraph → α × SignalGraph)
    {Q : α → (veiledRegime v v').State → Prop} (h : ∀ g g' : SignalGraph, g.Alike v v' g' →
      (act g).1 = (act' g').1 ∧ (act g).2.Alike v v' (act' g').2) (hQ : ∀ a s', Q a s') :
    (veiledRegime v v').Does () s (modifyGet act) (modifyGet act') Q := by
  obtain ⟨⟨w, w'⟩, halike⟩ := s
  intro a w₁ hrun
  obtain ⟨hsame, hgraphs⟩ := h _ _ halike.graph
  have heq :
      (modifyGet act : Run α) w = some ((act w.graph).1, { w with graph := (act w.graph).2 }) := rfl
  have heq' : (modifyGet act' : Run α) w' =
      some ((act' w'.graph).1, { w' with graph := (act' w'.graph).2 }) := rfl
  obtain ⟨rfl, rfl⟩ := by simpa using heq.symm.trans hrun
  exact ⟨⟨(_, _), halike.onGraph hgraphs⟩, by rw [hsame]; exact heq', rfl, trivial, hQ _ _⟩

theorem lawful (f : Factory) (v v' : Veil) : (veiledRegime v v').Lawful f where
  refl _ _ := trivial
  trans _ _ _ _ _ _ := trivial
  mono _ _ _ _ _ := ⟨fun _ h => h, fun _ h => h, fun _ h => h, fun _ h => h, fun _ _ h => h,
    fun _ h => h, fun _ h => h, fun _ h => h, fun _ h => h⟩
  place_mono _ _ _ _ _ _ := trivial
  hub_mono _ _ _ _ _ _ := trivial
  coherent _ _ := ⟨fun _ _ _ _ => trivial, fun _ _ _ _ => trivial, fun _ _ _ _ => trivial⟩
  setter _ _ _ := trivial
  content _ _ _ _ := trivial
  component _ _ _ _ _ _ := ⟨trivial, fun _ _ => trivial⟩
  literal _ _ _ _ _ := trivial
  site _ _ _ _ := trivial
  place _ _ _ _ := trivial
  parent _ _ _ _ _ _ := trivial
  fragment _ _ _ _ _ := trivial
  children _ _ _ _ _ _ := trivial
  log _ _ e := does (aloof_log e) fun _ _ => trivial
  create _ _ _ _ := does (aloof_onPage _) fun _ _ => trivial
  detach _ _ _ _ := does (aloof_changePage _) fun _ _ => trivial
  setText _ _ _ _ _ := does (aloof_changePage _) fun _ _ => trivial
  insert _ _ _ _ _ _ _ := does (aloof_changePage _) fun _ _ => trivial
  apply _ _ _ _ _ _ _ _ _ := does (aloof_changePage _) fun _ _ => trivial
  copy _ _ _ _ _ _ _ := does (aloof_onPage _) fun _ _ => ⟨trivial, fun _ _ => ⟨trivial, trivial⟩⟩
  compile _ _ l _ := does (aloof_compile f l) fun _ _ _ _ => trivial
  read _ _ name := does_graph (fun g => ((g.read name).1.getD .empty, (g.read name).2))
    (fun g => ((g.read name).1.getD .empty, (g.read name).2))
    (fun _ _ h => ⟨congrArg (Option.getD · .empty) (h.read name).1, (h.read name).2⟩)
    fun _ _ _ => trivial
  untrack _ _ := does_graph (fun g => ((), g.openUntracked)) (fun g => ((), g.openUntracked))
    (fun _ _ h => ⟨rfl, h.openUntracked⟩) fun _ _ => trivial
  track _ _ := does_graph (fun g => ((), g.closeScope)) (fun g => ((), g.closeScope))
    (fun _ _ h => ⟨rfl, h.closeScope⟩) fun _ _ => trivial
  container _ _ name _ := does (aloof_container name) fun _ _ => trivial
  stored _ _ name _ := does (aloof_storedValue name) fun u _ => Regime.within_free u

/-! ### Effects -/

/-- What is hidden is passed over. -/
theorem runEffect_hidden (f : Factory) (c : Calls) {i : Nat} (hg : w.graph.Covers v)
    (hi : v.hidden i = true) : runEffect f c i w = some ((), w) := by
  have hopen : (modifyGet fun g : SignalGraph => g.start i : Run (Option Binding)) w =
      some (none, w) := by
    change some ((w.graph.start i).1, { w with graph := (w.graph.start i).2 }) = _
    rw [hg.start hi]
  rw [runEffect, Signal.execute, run_bind hopen]
  rfl

theorem effect_does (hc : (veiledRegime v v').Serves c c') {k i i' : Nat} (hi : v.seen? i = some k)
    (hi' : v'.seen? i' = some k) :
    (veiledRegime v v').Does () s (runEffect f c i) (runEffect f c' i') fun _ _ => True := by
  refine Regime.runEffect_does (P := fun _ _ => True) (lawful f v v')
    (fun s b _ => ?_) ?_ fun s b _ => ?_
  · exact (Regime.runBinding_does (lawful f v v') hc (Regime.within_free_binding b)).weaken
      fun _ _ _ _ => trivial
  · exact does_graph (·.start i) (·.start i') (fun _ _ h => h.start hi hi') fun _ _ _ _ => trivial
  · exact does_graph (fun g => ((), g.finish i b)) (fun g => ((), g.finish i' b))
      (fun _ _ h => ⟨rfl, h.finish hi hi' b⟩) fun _ _ => trivial

/-- What running effects has to come to: those that are hidden are passed over, and the others do
    the same on both sides. -/
structure Executes (v v' : Veil) (exec exec' : Nat → Run Unit) : Prop where
  does : ∀ (s : (veiledRegime v v').State) (k i i' : Nat), v.seen? i = some k →
    v'.seen? i' = some k →
    (veiledRegime v v').Does () s (exec i) (exec' i') fun _ _ => True
  skips : ∀ (w w₁ : World) i, w.graph.Covers v → v.hidden i = true → exec i w = some ((), w₁) →
    w₁ = w
  skips' : ∀ (w : World) i, w.graph.Covers v' → v'.hidden i = true → exec' i w = some ((), w)

section

variable {exec exec' : Nat → Run Unit}

/-- Effects that are hidden are all passed over. -/
theorem Executes.passes (h : Executes v v' exec exec') {ids : List Nat} (hw : w.graph.Covers v')
    (hids : ∀ i ∈ ids, v'.seen? i = none) : Signal.executeAll exec' ids w = some ((), w) := by
  induction ids with
  | nil => rfl
  | cons i ids ih =>
    obtain ⟨hi, hids⟩ := List.forall_mem_cons.mp hids
    rw [Signal.executeAll, run_bind (h.skips' w i hw (Veil.seen?_eq_none.mp hi))]
    exact ih hids

theorem executeAll_append (exec : Nat → Run Unit) (ids more : List Nat) :
    Signal.executeAll exec (ids ++ more) = Signal.executeAll exec ids >>= fun _ =>
      Signal.executeAll exec more := by
  induction ids with
  | nil => rfl
  | cons i ids ih => rw [List.cons_append, Signal.executeAll, Signal.executeAll, ih, bind_assoc]

/-- Effects run on both sides, of which the same can be seen. -/
theorem Executes.all (h : Executes v v' exec exec') {ids ids' : List Nat}
    (hids : ids.filterMap v.seen? = ids'.filterMap v'.seen?) :
    (veiledRegime v v').Does () s (Signal.executeAll exec ids) (Signal.executeAll exec' ids')
      fun _ _ => True := by
  induction ids generalizing ids' s with
  | nil =>
    intro a w₁ hrun
    have hsame : (veiledRegime v v').world s = w₁ := (Prod.mk.inj (Option.some.inj hrun)).2
    refine ⟨s, h.passes s.2.graph.covers' fun i hi => ?_, hsame, trivial, trivial⟩
    exact List.filterMap_eq_nil_iff.mp hids.symm i hi
  | cons i ids ih =>
    rcases hi : v.seen? i with _ | k
    · -- a hidden one on the first side only
      rw [List.filterMap_cons_none hi] at hids
      intro a w₁ hrun
      obtain ⟨⟨⟩, w₂, hfirst, hrest⟩ := run_of_bind hrun
      obtain rfl := h.skips _ w₂ i s.2.graph.covers (Veil.seen?_eq_none.mp hi) hfirst
      exact ih hids a w₁ hrest
    · -- one that can be seen, and hidden ones in front of it on the second side
      rw [List.filterMap_cons_some hi] at hids
      obtain ⟨front, i', back, rfl, hfront, hi', hback⟩ := List.filterMap_eq_cons_iff.mp hids.symm
      intro a w₁ hrun
      obtain ⟨⟨⟩, w₂, hfirst, hrest⟩ := run_of_bind hrun
      obtain ⟨s₂, hfirst', rfl, -, -⟩ := h.does s k i i' hi hi' () w₂ hfirst
      obtain ⟨s', hrest', hworld, -, -⟩ := ih hback.symm a w₁ hrest
      refine ⟨s', ?_, hworld, trivial, trivial⟩
      have hskipped : Signal.executeAll exec' front ((veiledRegime v v').other s) =
          some ((), (veiledRegime v v').other s) := h.passes s.2.graph.covers' hfront
      rw [executeAll_append, run_bind hskipped, Signal.executeAll, run_bind hfirst']
      exact hrest'

/-- A write, and a registration, with all that they set off. -/
theorem Executes.runs (h : Executes v v' exec exec') : (veiledRegime v v').Runs exec exec' where
  write _ s name code _ _ := by
    intro a w₁ hrun
    obtain ⟨hids, hgraphs⟩ := s.2.graph.write name code
    have hrest : Signal.executeAll exec (s.1.1.graph.write name code).1
        { s.1.1 with graph := (s.1.1.graph.write name code).2 } = some (a, w₁) := hrun
    exact h.all hids (s := ⟨(_, _), s.2.onGraph hgraphs⟩) a w₁ hrest
  register _ s b _ := by
    intro a w₁ hrun
    obtain ⟨k, hk, hk'⟩ := s.2.graph.seen?_size
    have hrest : exec s.1.1.graph.effects.size { s.1.1 with graph := (s.1.1.graph.register b).2 } =
        some (a, w₁) := hrun
    exact h.does ⟨(_, _), s.2.onGraph (s.2.graph.register b)⟩ k _ _ hk hk' a w₁ hrest

end

/-- Whatever the renderer does in one world, it does in the other. -/
theorem serves (f : Factory) (v v' : Veil) (n : Nat) :
    (veiledRegime v v').Serves (machine f n) (machine f (n + 1)) := by
  have hskips (n : Nat) (w : World) (i : Nat) (hw : w.graph.Covers v') (hi : v'.hidden i = true) :
      runEffect f (machine f n) i w = some ((), w) := runEffect_hidden f _ hw hi
  refine Regime.machine_serves (lawful f v v') (Executes.runs ?_) (fun n hc => Executes.runs ?_) n
  · exact ⟨fun _ _ _ _ _ _ => .failure, fun _ _ _ _ _ hrun => absurd hrun nofun, hskips 0⟩
  · refine ⟨fun s k i i' hi hi' => effect_does hc hi hi', fun w w₁ i hw hi hrun => ?_,
      hskips (n + 1)⟩
    have hsame := runEffect_hidden f (machine f n) hw hi
    simpa using (hsame.symm.trans hrun).symm

end Veiled
end Stencil.Render
