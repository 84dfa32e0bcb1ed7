/-
  Stencil/Proofs/Signal/Reentry.lean
  ==================================
  **Every write ends, also where effects feed each other in a circle.**

  Flows need not be ranked here: a flow may set a signal that it reads itself, or one that
  leads back to it over others.  Values may then go round without ever settling, and the
  lists of subscribers grow meanwhile.  What ends is the nesting of the runs: an effect that
  is running is passed over, so a run has fewer effects at its disposal than the run that it
  lies in (`runs_end`).

  `nested` runs effects like the runtime does, but knows the runs that it lies in.  It has no
  result as soon as a run begins inside another run of the same effect, or deeper than there
  are effects.  Wherever the runtime ends, it has the same result (`performAll_ends`).
-/
import Stencil.Proofs.Signal.Flow

namespace Stencil.Signal.Flow

variable {σ : Type} [Inhabited σ] {g g' g₁ g₂ : Graph σ (Flow σ)} {around : List Nat} {n : Nat}

/-- An effect run inside the runs of the effects `around`, the innermost first.  There is no result
    if a run begins inside a run of the same effect, or inside as many runs as there are effects. -/
def nested : Nat → List Nat → Nat → Flows σ Unit
  | 0, _, _ => failure
  | depth + 1, around, id =>
    execute (σ := σ) (β := Flow σ)
      (fun f => do
        let g ← get
        if id ∈ around ∨ g.effects.size ≤ around.length then failure
        else run (nested depth (id :: around)) f)
      id

/-- A step from outside, where `exec` runs an effect. -/
def Step.take (exec : Nat → Flows σ Unit) : Step σ → Flows σ Unit
  | register reads writes => Signal.register (σ := σ) (β := Flow σ) exec ⟨reads, writes, []⟩
  | set name value => write (σ := σ) (β := Flow σ) exec name value

/-- Steps one after the other, where `exec` runs an effect. -/
def takeAll (exec : Nat → Flows σ Unit) : List (Step σ) → Flows σ Unit
  | [] => pure ()
  | s :: rest => do
    s.take exec
    takeAll exec rest

theorem performAll_eq (go : Runner σ) (depth : Nat) (steps : List (Step σ)) :
    performAll go depth steps = takeAll (exec go depth) steps := by
  induction steps with
  | nil => rfl
  | cons s rest ih =>
    have hstep : s.perform go depth = s.take (exec go depth) := by cases s <;> rfl
    rw [performAll, takeAll, hstep, ih]

/-! ### What a run leaves behind -/

/-- The effects are those that there were; they run or rest as before, and may have read something
    else. -/
structure Kept (g g' : Graph σ (Flow σ)) : Prop where
  size : g'.effects.size = g.effects.size
  effect : ∀ (j : Nat) f running, g.effects[j]? = some ⟨f, running⟩ →
    ∃ seen, g'.effects[j]? = some ⟨{ f with seen := seen }, running⟩

namespace Kept

omit [Inhabited σ]

theorem refl (g : Graph σ (Flow σ)) : Kept g g := ⟨rfl, fun _ f _ h => ⟨f.seen, h⟩⟩

theorem trans (h : Kept g g₁) (h' : Kept g₁ g₂) : Kept g g₂ where
  size := h'.size.trans h.size
  effect j f running hf := by
    obtain ⟨_, hf₁⟩ := h.effect j f running hf
    obtain ⟨seen, hf₂⟩ := h'.effect j _ running hf₁
    exact ⟨seen, hf₂⟩

/-- What is there afterwards was there before. -/
theorem back (h : Kept g g') {j : Nat} {f' : Flow σ} {running : Bool}
    (hf' : g'.effects[j]? = some ⟨f', running⟩) :
    ∃ f, g.effects[j]? = some ⟨f, running⟩ ∧ { f' with seen := [] } = { f with seen := [] } := by
  have hj : j < g.effects.size := h.size ▸ (Array.getElem?_eq_some_iff.mp hf').1
  rcases he : g.effects[j] with ⟨f, running'⟩
  have hf : g.effects[j]? = some ⟨f, running'⟩ := Array.getElem?_eq_some_iff.mpr ⟨hj, he⟩
  obtain ⟨seen, hseen⟩ := h.effect j f running' hf
  cases hf'.symm.trans hseen
  exact ⟨f, hf, rfl⟩

theorem idle (h : Kept g g') : idle g' = idle g := by
  ext j
  rw [mem_idle, mem_idle]
  constructor
  · rintro ⟨f', hf'⟩
    obtain ⟨f, hf, -⟩ := h.back hf'
    exact ⟨f, hf⟩
  · rintro ⟨f, hf⟩
    obtain ⟨seen, hseen⟩ := h.effect j f false hf
    exact ⟨_, hseen⟩

theorem flows (h : Kept g g') : flows g' = flows g := by
  refine List.ext_getElem? fun j => ?_
  rw [Flow.flows, Flow.flows, List.getElem?_map, List.getElem?_map, Array.getElem?_toList,
    Array.getElem?_toList]
  rcases hj : g.effects[j]? with _ | ⟨f, running⟩
  · rw [Array.getElem?_eq_none_iff] at hj
    rw [Array.getElem?_eq_none_iff.mpr (h.size ▸ hj)]
  · obtain ⟨seen, hseen⟩ := h.effect j f running hj
    rw [hseen]
    rfl

end Kept

/-! ### The runs around a run -/

omit [Inhabited σ] in
/-- A write leaves the effects alone. -/
theorem kept_write (g : Graph σ (Flow σ)) (name : String) (v : σ) : Kept g (g.write name v).2 :=
  ⟨rfl, fun _ f _ h => ⟨f.seen, h⟩⟩

/-- The runs around are runs of different effects, which are all running. -/
structure Enclosed (g : Graph σ (Flow σ)) (around : List Nat) : Prop where
  nodup : around.Nodup
  running : ∀ j ∈ around, ∃ f, g.effects[j]? = some ⟨f, true⟩

namespace Enclosed

omit [Inhabited σ]

theorem kept (h : Enclosed g around) (hkept : Kept g g') : Enclosed g' around where
  nodup := h.nodup
  running j hj := by
    obtain ⟨f, hf⟩ := h.running j hj
    obtain ⟨seen, hseen⟩ := hkept.effect j f true hf
    exact ⟨_, hseen⟩

theorem not_mem (h : Enclosed g around) {j : Nat} {f : Flow σ}
    (hf : g.effects[j]? = some ⟨f, false⟩) : j ∉ around := by
  intro hj
  obtain ⟨f', hf'⟩ := h.running j hj
  cases hf.symm.trans hf'

/-- An effect that is not running is one more than there are runs around. -/
theorem length_lt (h : Enclosed g around) {j : Nat} {f : Flow σ}
    (hf : g.effects[j]? = some ⟨f, false⟩) : around.length < g.effects.size := by
  have hnodup : (j :: around).Nodup := List.nodup_cons.mpr ⟨h.not_mem hf, h.nodup⟩
  have hsub : j :: around ⊆ List.range g.effects.size := by
    refine List.cons_subset.mpr ⟨List.mem_range.mpr (Array.getElem?_eq_some_iff.mp hf).1,
      fun i hi => ?_⟩
    obtain ⟨f', hf'⟩ := h.running i hi
    exact List.mem_range.mpr (Array.getElem?_eq_some_iff.mp hf').1
  have hlength := (List.subperm_of_subset hnodup hsub).length_le
  rwa [List.length_cons, List.length_range] at hlength

/-- Inside the run of one more effect. -/
theorem cons {j : Nat} {f : Flow σ} (h : Enclosed g around) (hreading : Reading g g₁ j f)
    (hf : g.effects[j]? = some ⟨f, false⟩) : Enclosed g₁ (j :: around) where
  nodup := List.nodup_cons.mpr ⟨h.not_mem hf, h.nodup⟩
  running := by
    refine List.forall_mem_cons.mpr ⟨⟨f, by rw [hreading.effect, if_pos rfl]⟩, fun i hi => ?_⟩
    obtain ⟨f', hf'⟩ := h.running i hi
    have hne : i ≠ j := fun heq => h.not_mem hf (heq ▸ hi)
    exact ⟨f', by rw [hreading.effect_of_ne hne, hf']⟩

end Enclosed

omit [Inhabited σ] in
/-- The end of a run puts its effect to rest, as it was before. -/
theorem Kept.finish {j : Nat} {f : Flow σ} (hf : g.effects[j]? = some ⟨f, false⟩)
    (hreading : Reading g g₁ j f) (hkept : Kept g₁ g₂) (seen : List σ) :
    Kept g (g₂.finish j { f with seen := seen }) where
  size := by rw [Graph.finish, Array.size_modify, hkept.size, hreading.size]
  effect i fi running hfi := by
    obtain ⟨_, hrunning⟩ := hkept.effect j f true (by rw [hreading.effect, if_pos rfl])
    rw [Graph.effects_finish]
    by_cases hi : i = j
    · subst hi
      cases hfi.symm.trans hf
      exact ⟨seen, by rw [if_pos rfl, hrunning]; rfl⟩
    · rw [if_neg hi]
      exact hkept.effect i fi running (hreading.effect_of_ne hi ▸ hfi)

/-! ### Runs end -/

/-- The action ends with `g'`, to whatever depth of at least `n`, and no run in it lies in a run of
    the same effect. -/
def Ends (n : Nat) (around : List Nat) (act : (Nat → Flows σ Unit) → Flows σ Unit)
    (g g' : Graph σ (Flow σ)) : Prop :=
  ∀ depth, n ≤ depth → (act (exec (execute (σ := σ) (β := Flow σ)) depth)).run g = some ((), g') ∧
    (act (nested depth around)).run g = some ((), g')

theorem Ends.seq {act act' : (Nat → Flows σ Unit) → Flows σ Unit} (h : Ends n around act g g₁)
    (h' : Ends n around act' g₁ g₂) :
    Ends n around (fun exec => act exec >>= fun _ => act' exec) g g₂ := by
  intro depth hdepth
  simp only [StateT.run_bind, (h depth hdepth).1, (h depth hdepth).2, Option.bind_eq_bind,
    Option.bind_some]
  exact h' depth hdepth

/-- Every effect that is asked to run comes to an end; `n` bounds the number of those that are not
    running. -/
def Halts (σ : Type) [Inhabited σ] (n : Nat) : Prop :=
  ∀ (g : Graph σ (Flow σ)) (around : List Nat) (id : Nat), Enclosed g around → (idle g).card ≤ n →
    ∃ g', Ends (n + 1) around (fun exec => exec id) g g' ∧ Kept g g'

theorem Halts.executeAll (h : Halts σ n) (hg : Enclosed g around) (hcard : (idle g).card ≤ n)
    (ids : List Nat) :
    ∃ g', Ends (n + 1) around (fun exec => Signal.executeAll exec ids) g g' ∧ Kept g g' := by
  induction ids generalizing g with
  | nil => exact ⟨g, fun _ _ => ⟨rfl, rfl⟩, .refl g⟩
  | cons id rest ih =>
    obtain ⟨g₁, hends, hkept⟩ := h g around id hg hcard
    obtain ⟨g₂, hends₂, hkept₂⟩ := ih (hg.kept hkept) (hkept.idle ▸ hcard)
    exact ⟨g₂, hends.seq hends₂, hkept.trans hkept₂⟩

theorem Halts.write (h : Halts σ n) (hg : Enclosed g around) (hcard : (idle g).card ≤ n)
    (name : String) (v : σ) :
    ∃ g', Ends (n + 1) around (fun exec => Signal.write (σ := σ) (β := Flow σ) exec name v) g g' ∧
      Kept g g' := by
  have hwrite := kept_write g name v
  obtain ⟨g', hends, hkept⟩ :=
    h.executeAll (hg.kept hwrite) (hwrite.idle ▸ hcard) (g.subscribers name)
  exact ⟨g', hends, hwrite.trans hkept⟩

theorem Halts.setAll (h : Halts σ n) (hg : Enclosed g around) (hcard : (idle g).card ≤ n)
    (ps : List (String × σ)) :
    ∃ g', Ends (n + 1) around (fun exec => Flow.setAll exec ps) g g' ∧ Kept g g' := by
  induction ps generalizing g with
  | nil => exact ⟨g, fun _ _ => ⟨rfl, rfl⟩, .refl g⟩
  | cons p rest ih =>
    obtain ⟨g₁, hends, hkept⟩ := h.write hg hcard p.1 p.2
    obtain ⟨g₂, hends₂, hkept₂⟩ := ih (hg.kept hkept) (hkept.idle ▸ hcard)
    exact ⟨g₂, hends.seq hends₂, hkept.trans hkept₂⟩

/-- An effect that is not there, or is running, is passed over. -/
theorem ends_of_start {id : Nat} (hstart : g.start id = (none, g)) :
    Ends (n + 1) around (fun exec => exec id) g g := by
  intro depth hdepth
  obtain ⟨depth, rfl⟩ : ∃ d, depth = d + 1 := ⟨depth - 1, by omega⟩
  simp only [exec, nested, run_execute_eq, hstart, and_self]

/-- A run of an effect that is not running: what it has read, what it sets, and the end. -/
theorem ends_of_setAll {id : Nat} {f : Flow σ} (hg : Enclosed g around)
    (hf : g.effects[id]? = some ⟨f, false⟩) (hstart : g.start id = (some f, g₁))
    (hread : (readAll f.reads).run g₁ = some (f.reads.map g.value, g₂))
    (hset : Ends n (id :: around) (fun exec =>
      setAll exec (f.writes (f.reads.map g.value))) g₂ g') :
    Ends (n + 1) around (fun exec => exec id) g
      (g'.finish id { f with seen := f.reads.map g.value }) := by
  intro depth hdepth
  obtain ⟨depth, rfl⟩ : ∃ d, depth = d + 1 := ⟨depth - 1, by omega⟩
  obtain ⟨hset, hset'⟩ := hset depth (Nat.le_of_succ_le_succ hdepth)
  have hbody {exec : Nat → Flows σ Unit} (hexec :
      (setAll exec (f.writes (f.reads.map g.value))).run g₂ =
      some ((), g')) : (run exec f).run g₁ = some ({ f with seen := f.reads.map g.value }, g') := by
    simp only [run, StateT.run_bind, hread, Option.bind_eq_bind, Option.bind_some, hexec]
    rfl
  have hsize : g₁.effects.size = g.effects.size := by
    have heffects : g₁ = (g.start id).2 := by rw [hstart]
    rw [heffects, Graph.start, hf]
    exact Array.size_modify
  have hnew : ¬ (id ∈ around ∨ g₁.effects.size ≤ around.length) := by
    rw [hsize]
    exact not_or.mpr ⟨hg.not_mem hf, Nat.not_le.mpr (hg.length_lt hf)⟩
  refine ⟨run_execute hstart (hbody hset), run_execute hstart ?_⟩
  simp only [StateT.run_bind, StateT.run_get, Option.pure_def, Option.bind_eq_bind,
    Option.bind_some, if_neg hnew]
  exact hbody hset'

/-- Every effect that is asked to run comes to an end: inside its run one effect less can be run. -/
theorem runs_end (n : Nat) : Halts σ n := by
  induction n with
  | zero =>
    intro g around id _ hcard
    refine ⟨g, ends_of_start ?_, .refl g⟩
    rcases he : g.effects[id]? with _ | ⟨f, running⟩
    · rw [Graph.start, he]
    · cases running with
      | true => rw [Graph.start, he]; rfl
      | false =>
        have hmem : id ∈ idle g := mem_idle.mpr ⟨f, he⟩
        exact absurd (Finset.card_pos.mpr ⟨id, hmem⟩) (Nat.not_lt.mpr hcard)
  | succ n ih =>
    intro g around id hg hcard
    rcases he : g.effects[id]? with _ | ⟨f, running⟩
    · exact ⟨g, ends_of_start (by rw [Graph.start, he]), .refl g⟩
    · cases running with
      | true => exact ⟨g, ends_of_start (by rw [Graph.start, he]; rfl), .refl g⟩
      | false =>
        obtain ⟨g₁, g₂, hstart, hread, hreading⟩ := exists_reading he
        have hless : (idle g₂).card ≤ n :=
          Nat.le_of_lt_succ (Nat.lt_of_lt_of_le (hreading.card_idle he) hcard)
        obtain ⟨g₃, hset, hkept⟩ := ih.setAll (hg.cons hreading he) hless
          (f.writes (f.reads.map g.value))
        exact ⟨_, ends_of_setAll hg he hstart hread hset, Kept.finish he hreading hkept _⟩

/-! ### Steps from outside -/

omit [Inhabited σ] in
theorem enclosed_nil (g : Graph σ (Flow σ)) : Enclosed g [] := ⟨List.nodup_nil, nofun⟩

/-- A step from outside ends, and adds its effect to those that rest. -/
theorem Step.ends (s : Step σ) (hrest : ∀ e ∈ g.effects, e.running = false) :
    ∃ g', Ends (g.effects.size + 2) [] (fun exec => s.take exec) g g' ∧
      (∀ e ∈ g'.effects, e.running = false) ∧ flows g' = flows g ++ s.flow?.toList := by
  have hresting {g g' : Graph σ (Flow σ)} (hkept : Kept g g')
      (hrest : ∀ e ∈ g.effects, e.running = false) : ∀ e ∈ g'.effects, e.running = false := by
    rintro ⟨f', running⟩ he
    obtain ⟨j, hj, heq⟩ := Array.mem_iff_getElem.mp he
    obtain ⟨f, hf, -⟩ := hkept.back (Array.getElem?_eq_some_iff.mpr ⟨hj, heq⟩)
    exact hrest ⟨f, running⟩ (Array.mem_of_getElem? hf)
  cases s with
  | set name v =>
    obtain ⟨g', hends, hkept⟩ :=
      (runs_end g.effects.size).write (enclosed_nil g) (card_idle_le g) name v
    refine ⟨g', fun depth hdepth => hends depth (by omega), hresting hkept hrest, ?_⟩
    rw [hkept.flows]
    exact (List.append_nil _).symm
  | register reads writes =>
    obtain ⟨g₁, hg₁⟩ : ∃ g₁, g₁ = (g.register ⟨reads, writes, []⟩).2 := ⟨_, rfl⟩
    have hsize : g₁.effects.size = g.effects.size + 1 := by rw [hg₁]; exact Array.size_push _
    have hrest₁ : ∀ e ∈ g₁.effects, e.running = false := by
      intro e he
      rw [hg₁] at he
      rcases Array.mem_push.mp he with he | rfl
      · exact hrest e he
      · rfl
    obtain ⟨g', hends, hkept⟩ :=
      runs_end (g.effects.size + 1) g₁ [] g.effects.size (enclosed_nil g₁)
      (hsize ▸ card_idle_le g₁)
    refine ⟨g', fun depth hdepth => ?_, hresting hkept hrest₁, ?_⟩
    · rw [hg₁] at hends
      exact hends depth hdepth
    · rw [hkept.flows, flows, flows, hg₁, Graph.register, Array.toList_push, List.map_append]
      rfl

theorem takeAll_ends (steps : List (Step σ)) (hrest : ∀ e ∈ g.effects, e.running = false) :
    ∃ g', Ends (g.effects.size + steps.length + 1) [] (fun exec => takeAll exec steps) g g' ∧
      (∀ e ∈ g'.effects, e.running = false) ∧
      flows g' = flows g ++ steps.filterMap Step.flow? := by
  induction steps generalizing g with
  | nil => exact ⟨g, fun _ _ => ⟨rfl, rfl⟩, hrest, (List.append_nil _).symm⟩
  | cons s rest ih =>
    obtain ⟨g₁, hends, hrest₁, hflows⟩ := s.ends hrest
    obtain ⟨g₂, hends₂, hrest₂, hflows₂⟩ := ih hrest₁
    have hsize : g₁.effects.size ≤ g.effects.size + 1 := by
      rw [← length_flows, ← length_flows, hflows, List.length_append]
      cases s.flow? <;> simp
    refine ⟨g₂, Ends.seq (fun depth hdepth => hends depth ?_) (fun depth hdepth => hends₂ depth ?_),
      hrest₂, ?_⟩
    · rw [List.length_cons] at hdepth
      omega
    · rw [List.length_cons] at hdepth
      omega
    · rw [hflows₂, hflows, List.append_assoc, List.filterMap_cons]
      cases s.flow? <;> rfl

/-- Whatever flows are registered and whatever is set from outside, every step ends.  No run of an
    effect ever lies in another run of the same effect, and runs lie in each other no deeper than
    there are effects.  In the end all effects are there that were registered, and each can be run
    again. -/
theorem performAll_ends (values : List (String × σ)) (steps : List (Step σ)) :
    ∃ g : Graph σ (Flow σ), (∀ depth, steps.length < depth →
        (performAll (execute (σ := σ) (β := Flow σ)) depth steps).run (.ofValues values) =
          some ((), g) ∧
        (takeAll (nested depth []) steps).run (.ofValues values) = some ((), g)) ∧
      (g.effects.toList.map fun e => { e.body with seen := [] }) = steps.filterMap Step.flow? ∧
      ∀ j < g.effects.size, ∃ f, (g.start j).1 = some f := by
  have hsize : (Graph.ofValues values : Graph σ (Flow σ)).effects.size = 0 := rfl
  obtain ⟨g, hends, hrest, hflows⟩ := takeAll_ends (g := Graph.ofValues values) steps
    (by simp [Graph.ofValues])
  refine ⟨g, fun depth hdepth => ?_, hflows, fun j hj => ?_⟩
  · rw [performAll_eq]
    exact hends depth (by omega)
  · have he : g.effects[j]? = some ⟨g.effects[j].body, false⟩ := by
      rw [Array.getElem?_eq_getElem hj, ← hrest _ (Array.getElem_mem hj)]
    exact ⟨g.effects[j].body, by rw [Graph.start, he]; rfl⟩

/-- Two effects that follow each other's signal.  The write of `b` runs the second, which sets `a`
    and so runs the first, which sets `b` again; the second is passed over then. -/
example : ((performAll (execute (σ := Int) (β := Flow Int)) 4
    [.register ["a"] fun vs => [("b", vs.sum + 1)], .register ["b"] fun vs => [("a", vs.sum + 1)],
      .set "b" 7]).run (.ofValues [("a", 0), ("b", 0)])).map (·.2.values) =
    some [("a", 8), ("b", 9)] := by
  decide +kernel

end Stencil.Signal.Flow
