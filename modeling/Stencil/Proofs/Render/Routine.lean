/-
  Stencil/Proofs/Render/Routine.lean
  ==================================
  **One effect among others.**

  What an effect has done to the world after any number of writes depends on what the signals
  held at each of its runs, and on nothing else if the other effects leave its doings alone.
  So one *stage* is followed from run to run: `At a w` says that in the world `w` the effect
  has come to stage `a`, and `next σ a` is the stage after a run while the signals hold `σ`.

  What a run does from any stage (`Routine.run`), and that other effects do not disturb it
  (`Routine.calm`, `Bystanders`), is proved for the effect in question.  From there on it is
  the same for all effects: which runs a sequence of writes sets off (`rerunsAt`), and that the
  effect has come to the stage that these lead to (`Going.writeAll`).
-/
import Stencil.Proofs.Render.Incremental

namespace Stencil.Render

/-! ### Which writes lead to runs -/

/-- What the signals hold at the runs of an effect after the first, when they are written one
    after the other.  A write sets off a run if the signal is one of those watched, which are all
    that have been read at any run. -/
def rerunsAt (reads : (String → Script) → List String) (known : String → Bool) :
    List (String × Script) → List String → (String → Script) → List (String → Script)
  | [], _, _ => []
  | (name, code) :: rest, watched, σ =>
    if name ∈ watched ∧ known name = true then
      holding known σ name code :: rerunsAt reads known rest
        (watched ++ reads (holding known σ name code)) (holding known σ name code)
    else rerunsAt reads known rest watched (holding known σ name code)

/-- What the signals hold at all runs, the first included. -/
def runsAt (reads : (String → Script) → List String) (known : String → Bool)
    (writes : List (String × Script)) (σ : String → Script) : List (String → Script) :=
  σ :: rerunsAt reads known writes (reads σ) σ

/-- What depends on nothing but what is read is, after the writes, still what it was at the last
    run: no write since has been to a signal that was read there. -/
theorem getLast?_rerunsAt {β : Type} {gives : (String → Script) → β}
    {reads : (String → Script) → List String} (hcongr : ∀ σ τ : String → Script,
      (∀ x ∈ reads σ, τ x = σ x) → gives τ = gives σ ∧ reads τ = reads σ)
    {known : String → Bool} {writes : List (String × Script)} {watched : List String}
    {ρ σ : String → Script} (hwatched : ∀ x ∈ reads ρ, x ∈ watched)
    (hsame : ∀ x ∈ reads ρ, σ x = ρ x) :
    ((rerunsAt reads known writes watched σ).map gives).getLast?.getD (gives ρ) =
      gives (holdingAll known writes σ) := by
  induction writes generalizing watched ρ σ with
  | nil => exact (hcongr ρ σ hsame).1.symm
  | cons write rest ih =>
    obtain ⟨name, code⟩ := write
    rw [rerunsAt, holdingAll]
    split
    · rw [List.map_cons, List.getLast?_cons, Option.getD_some]
      exact ih (fun x hx => List.mem_append_right _ hx) fun _ _ => rfl
    · rename_i hskip
      refine ih hwatched fun x hx => ?_
      rw [holding, if_neg, hsame x hx]
      rintro ⟨rfl, hknown⟩
      exact hskip ⟨hwatched x hx, hknown⟩

theorem getLast?_runsAt {β : Type} {gives : (String → Script) → β}
    {reads : (String → Script) → List String} (hcongr : ∀ σ τ : String → Script,
      (∀ x ∈ reads σ, τ x = σ x) → gives τ = gives σ ∧ reads τ = reads σ)
    (known : String → Bool) (writes : List (String × Script)) (σ : String → Script) :
    ((runsAt reads known writes σ).map gives).getLast? =
      some (gives (holdingAll known writes σ)) := by
  rw [runsAt, List.map_cons, List.getLast?_cons]
  exact congrArg some (getLast?_rerunsAt hcongr (fun _ h => h) fun _ _ => rfl)

/-! ### What other effects do -/

/-- What is done elsewhere leaves the effect as it is, and the signals. -/
structure Aside (i : Nat) (w w' : World) : Prop where
  live : w'.live = w.live
  effect : w'.graph.effects[i]? = w.graph.effects[i]?
  held : w'.held = w.held
  known : w'.known = w.known
  watches : ∀ x, i ∈ w'.graph.subscribers x ↔ i ∈ w.graph.subscribers x
  nodup : ∀ x, (w.graph.subscribers x).Nodup → (w'.graph.subscribers x).Nodup

theorem Aside.refl (i : Nat) (w : World) : Aside i w w :=
  ⟨rfl, rfl, rfl, rfl, fun _ => Iff.rfl, fun _ h => h⟩

/-- As long as `Inv` is true, and it stays so, other effects can be run, and what they do to the
    page is `Calm`. -/
structure Bystanders (c : Calls) (i : Nat) (Calm : World → World → Prop) (Inv : World → Prop) :
    Prop where
  other : ∀ j ≠ i, ∀ w, Inv w → ∃ w', c.effect j w = some ((), w') ∧ Inv w' ∧ Aside i w w' ∧
    Calm w w'
  own : ∀ w w', Inv w → c.effect i w = some ((), w') → Inv w'
  write : ∀ w name code, Inv w → Inv { w with graph := (w.graph.write name code).2 }

/-- Where there is no effect, nothing is run. -/
theorem runEffect_none {f : Factory} {c : Calls} {j : Nat} {w : World}
    (h : w.graph.effects[j]? = none) :
    runEffect f c j w = some ((), w) := by
  have hstart : w.graph.start j = (none, w.graph) := by rw [Signal.Graph.start, h]
  have hopen : (modifyGet fun g : SignalGraph => g.start j : Run (Option Binding)) w =
      some (none, w) := by
    change some ((w.graph.start j).1, { w with graph := (w.graph.start j).2 }) = _
    rw [hstart]
  rw [runEffect, Signal.execute, run_bind hopen]
  rfl

/-! ### From stage to stage -/

/-- A run takes the effect from a stage to the next one and reads the signals named, and nothing
    else disturbs it. -/
structure Routine {α : Type} (c : Calls) (i : Nat) (reads : (String → Script) → List String)
    (next : (String → Script) → α → α) (Calm : World → World → Prop) (At : α → World → Prop) :
    Prop where
  run : ∀ a w, w.live = true → At a w → ∃ w' b, c.effect i w = some ((), w') ∧
    Rerun w w' i b (reads w.held) ∧ At (next w.held a) w'
  calm : ∀ a w w', At a w → Aside i w w' → Calm w w' → At a w'
  write : ∀ a w name code, At a w → At a { w with graph := (w.graph.write name code).2 }

/-- The effect has come to stage `a` and watches the signals named. -/
structure Going {α : Type} (At : α → World → Prop) (i : Nat) (watched : List String) (a : α)
    (w : World) : Prop where
  live : w.live = true
  stage : At a w
  watches : ∀ x, i ∈ w.graph.subscribers x ↔ x ∈ watched ∧ w.known x = true
  nodup : ∀ x, (w.graph.subscribers x).Nodup

section

variable {α : Type} {f : Factory} {c : Calls} {i : Nat} {reads : (String → Script) → List String}
  {next : (String → Script) → α → α} {Calm : World → World → Prop} {At : α → World → Prop}
  {Inv : World → Prop} {watched : List String} {a : α} {w w' : World}

theorem Going.calm (hroutine : Routine c i reads next Calm At) (h : Going At i watched a w)
    (haside : Aside i w w') (hcalm : Calm w w') : Going At i watched a w' where
  live := haside.live.trans h.live
  stage := hroutine.calm a w w' h.stage haside hcalm
  watches x := by rw [haside.watches, h.watches, haside.known]
  nodup x := haside.nodup x (h.nodup x)

theorem Going.run (hroutine : Routine c i reads next Calm At) (h : Going At i watched a w) :
    ∃ w', c.effect i w = some ((), w') ∧ w'.held = w.held ∧ w'.known = w.known ∧
      Going At i (watched ++ reads w.held) (next w.held a) w' := by
  obtain ⟨w', b, hrun, hrerun, hstage⟩ := hroutine.run a w h.live h.stage
  have hknown : w'.known = w.known := funext fun x => hrerun.graph.isSome_cell? x
  refine ⟨w', hrun, hrerun.held, hknown, hrerun.live.trans h.live, hstage, fun x => ?_,
    fun x => hrerun.graph.nodup_subscribers (h.nodup x)⟩
  rw [hrerun.graph.mem_subscribers, h.watches, hknown, List.mem_append]
  constructor
  · rintro (⟨hx, hsome⟩ | ⟨-, hx, hsome⟩)
    · exact ⟨Or.inl hx, hsome⟩
    · exact ⟨Or.inr hx, hsome⟩
  · rintro ⟨hx | hx, hsome⟩
    · exact Or.inl ⟨hx, hsome⟩
    · exact Or.inr ⟨rfl, hx, hsome⟩

/-- Effects that are due are run; this one is one of them, or it is not. -/
theorem Going.executeAll (hroutine : Routine c i reads next Calm At)
    (hothers : Bystanders c i Calm Inv) {due : List Nat} (hdue : due.Nodup) (hinv : Inv w)
    (h : Going At i watched a w) :
    ∃ w', Signal.executeAll c.effect due w = some ((), w') ∧ w'.held = w.held ∧ w'.known = w.known ∧
      Inv w' ∧ Going At i (if i ∈ due then watched ++ reads w.held else watched)
        (if i ∈ due then next w.held a else a) w' := by
  induction due generalizing w watched a with
  | nil => exact ⟨w, rfl, rfl, rfl, hinv, h⟩
  | cons j due ih =>
    obtain ⟨hj, hdue⟩ := List.nodup_cons.mp hdue
    by_cases hij : j = i
    · subst hij
      obtain ⟨w₁, hrun, hheld, hknown, h₁⟩ := h.run hroutine
      obtain ⟨w', hrest, hheld', hknown', hinv', h'⟩ := ih hdue (hothers.own w w₁ hinv hrun) h₁
      rw [if_neg hj, if_neg hj] at h'
      refine ⟨w', ?_, hheld'.trans hheld, hknown'.trans hknown, hinv', ?_⟩
      · rw [Signal.executeAll, run_bind hrun]
        exact hrest
      · rw [if_pos List.mem_cons_self, if_pos List.mem_cons_self]
        exact h'
    · obtain ⟨w₁, hrun, hinv₁, haside, hcalm⟩ := hothers.other j hij w hinv
      obtain ⟨w', hrest, hheld', hknown', hinv', h'⟩ := ih hdue hinv₁ (h.calm hroutine haside hcalm)
      have hmem : i ∈ j :: due ↔ i ∈ due := by simp [Ne.symm hij]
      refine ⟨w', ?_, hheld'.trans haside.held, hknown'.trans haside.known, hinv', ?_⟩
      · rw [Signal.executeAll, run_bind hrun]
        exact hrest
      · rw [haside.held] at h'
        simp only [hmem]
        exact h'

/-- A write runs the effect if it watches the signal. -/
theorem Going.writeSignal (hroutine : Routine c i reads next Calm At)
    (hothers : Bystanders c i Calm Inv) (hinv : Inv w) (h : Going At i watched a w) (name : String)
    (code : Script) :
    ∃ w', Render.writeSignal c name code w = some ((), w') ∧
      w'.held = holding w.known w.held name code ∧ w'.known = w.known ∧ Inv w' ∧
      Going At i
        (if name ∈ watched ∧ w.known name = true then watched ++ reads w'.held else watched)
        (if name ∈ watched ∧ w.known name = true then next w'.held a else a) w' := by
  obtain ⟨w₁, hw₁⟩ : ∃ w₁ : World, w₁ = { w with graph := (w.graph.write name code).2 } := ⟨_, rfl⟩
  have hwrite : (modifyGet fun g : SignalGraph => g.write name code : Run (List Nat)) w =
      some (w.graph.subscribers name, w₁) := hw₁ ▸ rfl
  have hheld₁ : w₁.held = holding w.known w.held name code := hw₁ ▸ held_write w name code
  have hknown₁ : w₁.known = w.known := hw₁ ▸ known_write w name code
  have hsubscribers (x : String) : w₁.graph.subscribers x = w.graph.subscribers x := by
    rw [hw₁, Signal.Graph.subscribers_write]
  have h₁ : Going At i watched a w₁ := by
    refine ⟨hw₁ ▸ h.live, hw₁ ▸ hroutine.write a w name code h.stage, fun x => ?_, fun x => ?_⟩
    · rw [hsubscribers, hknown₁]
      exact h.watches x
    · rw [hsubscribers]
      exact h.nodup x
  have hinv₁ : Inv w₁ := hw₁ ▸ hothers.write w name code hinv
  obtain ⟨w', hrun, hheld, hknown, hinv', h'⟩ := h₁.executeAll hroutine hothers (h.nodup name) hinv₁
  refine ⟨w', ?_, hheld.trans hheld₁, hknown.trans hknown₁, hinv', ?_⟩
  · rw [Render.writeSignal, Signal.write, run_bind hwrite]
    exact hrun
  · rw [hheld]
    simp only [h.watches] at h'
    exact h'

/-- Writes lead the effect through the stages of its runs. -/
theorem Going.writeAll (hroutine : Routine c i reads next Calm At)
    (hothers : Bystanders c i Calm Inv) (hinv : Inv w) (h : Going At i watched a w)
    (writes : List (String × Script)) :
    ∃ w', Render.writeAll c writes w = some ((), w') ∧ w'.held = holdingAll w.known writes w.held ∧
      At ((rerunsAt reads w.known writes watched w.held).foldl (fun a σ => next σ a) a) w' := by
  induction writes generalizing w watched a with
  | nil => exact ⟨w, rfl, rfl, h.stage⟩
  | cons write rest ih =>
    obtain ⟨name, code⟩ := write
    obtain ⟨w₁, hrun, hheld, hknown, hinv₁, h₁⟩ := h.writeSignal hroutine hothers hinv name code
    obtain ⟨w', hrun', hheld', hstage⟩ := ih hinv₁ h₁
    refine ⟨w', ?_, ?_, ?_⟩
    · rw [Render.writeAll, run_bind hrun]
      exact hrun'
    · rw [hheld', hheld, hknown]
      rfl
    · rw [hknown, hheld] at hstage
      rw [rerunsAt]
      split at hstage
      · rename_i hruns
        rw [if_pos hruns]
        exact hstage
      · rename_i hruns
        rw [if_neg hruns]
        exact hstage

/-- Nothing disturbs an effect that is the only one. -/
theorem Routine.alone {m : Nat} (hroutine : Routine (machine f (m + 1)) 0 reads next Calm At)
    (hcalm : ∀ w, Calm w w) :
    Bystanders (machine f (m + 1)) 0 Calm fun w =>
      w.live = true ∧ (∃ a, At a w) ∧ w.graph.effects.size = 1 where
  other j hj w hinv := by
    have hnone : w.graph.effects[j]? = none := by
      refine Array.getElem?_eq_none ?_
      rw [hinv.2.2]
      exact Nat.one_le_iff_ne_zero.mpr hj
    exact ⟨w, runEffect_none hnone, hinv, .refl 0 w, hcalm w⟩
  own w w' hinv hrun := by
    obtain ⟨hlive, ⟨a, hstage⟩, hsize⟩ := hinv
    obtain ⟨w₁, b, hrun₁, hrerun, hstage₁⟩ := hroutine.run a w hlive hstage
    obtain rfl : w₁ = w' := by simpa using hrun₁.symm.trans hrun
    exact ⟨hrerun.live.trans hlive, ⟨_, hstage₁⟩, hrerun.graph.size.trans hsize⟩
  write w name code hinv := by
    obtain ⟨hlive, ⟨a, hstage⟩, hsize⟩ := hinv
    exact ⟨hlive, ⟨a, hroutine.write a w name code hstage⟩, hsize⟩

/-- A new effect runs for the first time. -/
theorem newBinding_going {b : Binding} (htracking : f.tracking = true) (hlive : w.live = true)
    (hi : i = w.graph.effects.size) (hw' : w' = { w with graph := (w.graph.register b).2 })
    (hnodup : ∀ x, (w.graph.subscribers x).Nodup) (hnew : ∀ x, i ∉ w.graph.subscribers x)
    (hroutine : Routine c i reads next Calm At) (hstage : At a w') :
    ∃ w₀, newBinding f c b w = some ((), w₀) ∧ c.effect i w' = some ((), w₀) ∧ w₀.held = w.held ∧
      w₀.known = w.known ∧ Going At i (reads w.held) (next w.held a) w₀ := by
  have hstart : Going At i [] a w' := by
    refine ⟨hw' ▸ hlive, hstage, fun x => ?_, hw' ▸ hnodup⟩
    have hno : i ∉ w'.graph.subscribers x := hw' ▸ hnew x
    simp [hno]
  obtain ⟨w₀, hrun, hheld, hknown, h⟩ := hstart.run hroutine
  have hheld' : w'.held = w.held := hw' ▸ rfl
  have hknown' : w'.known = w.known := hw' ▸ rfl
  rw [List.nil_append, hheld'] at h
  refine ⟨w₀, ?_, hrun, hheld.trans hheld', hknown.trans hknown', h⟩
  rw [newBinding_eq htracking, ← hw', ← hi]
  exact hrun

end

end Stencil.Render
