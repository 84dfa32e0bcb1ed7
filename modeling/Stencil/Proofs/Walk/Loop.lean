/-
  Stencil/Proofs/Walk/Loop.lean
  =============================
  **Loops that keep their work on a stack.**

  Such a loop takes the entry on top off its stack, hands something out for it, and puts
  what follows from the entry on top of the others, the first of it uppermost.  It ends
  when the stack is empty (`Loop`), or at the first entry that is wanted, with whatever is
  left on the stack (`Search`).  A loop is a relation here and no function: it has a result
  if it ends by itself, after any number of steps.

  Loops take the same course if the same follows from their entries, whatever they hand
  out and whatever else they carry on the stack.  So the list of the entries that one of
  them visits tells the results of all (`Visits.loop`, `Visits.search`).
-/
import Mathlib.Data.List.Basic

namespace Stencil.Walk

variable {α β γ : Type} {next : α → List α} {give : α → List β} {wanted : α → Bool}
  {stack : List α}

/-- `Loop next give stack out`: started with `stack`, the loop hands out `out` and ends. -/
inductive Loop (next : α → List α) (give : α → List β) : List α → List β → Prop where
  | done : Loop next give [] []
  | step {a : α} {stack : List α} {out : List β} (h : Loop next give (next a ++ stack) out) :
      Loop next give (a :: stack) (give a ++ out)

/-- `Search next wanted stack r`: started with `stack`, the loop ends with `r`, the first
    entry that it takes off and that is wanted. -/
inductive Search (next : α → List α) (wanted : α → Bool) : List α → Option α → Prop where
  | done : Search next wanted [] none
  | found {a : α} {stack : List α} (h : wanted a = true) : Search next wanted (a :: stack) (some a)
  | step {a : α} {stack : List α} {r : Option α} (h : wanted a = false)
      (hr : Search next wanted (next a ++ stack) r) : Search next wanted (a :: stack) r

/-- The loop that hands out the entries themselves. -/
abbrev Visits (next : α → List α) : List α → List α → Prop := Loop next fun a => [a]

/-! ### One result -/

theorem Loop.unique {out out' : List β} (h : Loop next give stack out)
    (h' : Loop next give stack out') : out' = out := by
  induction h generalizing out' with
  | done =>
    cases h'
    rfl
  | step _ ih =>
    cases h' with
    | step hrest => rw [ih hrest]

theorem Search.unique {r r' : Option α} (h : Search next wanted stack r)
    (h' : Search next wanted stack r') : r' = r := by
  induction h generalizing r' with
  | done =>
    cases h'
    rfl
  | found ha =>
    cases h' with
    | found _ => rfl
    | step hna _ => simp [ha] at hna
  | step hna _ ih =>
    cases h' with
    | found ha => simp [ha] at hna
    | step _ hr => exact ih hr

theorem Loop.iff {out : List β} (h : Loop next give stack out) (out' : List β) :
    Loop next give stack out' ↔ out' = out :=
  ⟨h.unique, fun heq => heq ▸ h⟩

theorem Search.iff {r : Option α} (h : Search next wanted stack r) (r' : Option α) :
    Search next wanted stack r' ↔ r' = r :=
  ⟨h.unique, fun heq => heq ▸ h⟩

/-! ### One course -/

/-- A loop whose entries are seen through `f` goes along with the loop that visits them. -/
theorem Visits.along {next' : γ → List γ} {f : α → γ} (hf : ∀ a, next' (f a) = (next a).map f)
    (give : γ → List β) {l : List α} (h : Visits next stack l) :
    Loop next' give (stack.map f) (l.flatMap fun a => give (f a)) := by
  induction h with
  | done => exact .done
  | step _ ih =>
    rw [List.map_append, ← hf] at ih
    exact .step ih

/-- What a loop hands out is what the entries give that are visited. -/
theorem Visits.loop (give : α → List β) {l : List α} (h : Visits next stack l) :
    Loop next give stack (l.flatMap give) := by
  have hnext (a : α) : next a = (next a).map id := (List.map_id _).symm
  have hloop := h.along hnext give
  rwa [List.map_id'] at hloop

/-- What a search finds is the first wanted entry that is visited. -/
theorem Visits.search {l : List α} (h : Visits next stack l) (wanted : α → Bool) :
    Search next wanted stack (l.find? wanted) := by
  induction h with
  | done => exact .done
  | @step a stack l _ ih =>
    rw [List.singleton_append, List.find?_cons]
    cases ha : wanted a with
    | true => exact .found ha
    | false => exact .step ha ih

end Stencil.Walk
