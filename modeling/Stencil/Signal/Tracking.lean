/-
  Stencil/Signal/Tracking.lean
  ============================
  **Running effects on a graph that is part of a larger state.**

  A write stores the value and then runs the subscribers that the signal had at that
  moment, one after the other.  An effect that is still running is passed over, so no
  run of an effect ever lies inside another run of the same effect.  Every operation
  closes the scopes that it opens.

  What running a body means is a parameter; it may use all operations here again.
-/
import Stencil.Signal.Graph

namespace Stencil.Signal

variable {σ β : Type} {m : Type → Type} [Monad m] [MonadStateOf (Graph σ β) m]

def read (name : String) : m (Option σ) :=
  modifyGet fun g : Graph σ β => g.read name

/-- Run the given action so that its readings count for nothing. -/
def untracked {α : Type} (act : m α) : m α := do
  modify fun g : Graph σ β => g.openUntracked
  let a ← act
  modify fun g : Graph σ β => g.closeScope
  pure a

/-- Run an effect, unless it is running.  `run` runs a body and answers with the body
    for the next time. -/
def execute (run : β → m β) (id : Nat) : m Unit := do
  match ← modifyGet fun g : Graph σ β => g.start id with
  | none => pure ()
  | some body =>
    let next ← run body
    modify fun g : Graph σ β => g.finish id next

def executeAll (exec : Nat → m Unit) : List Nat → m Unit
  | [] => pure ()
  | id :: ids => do
    exec id
    executeAll exec ids

/-- Write a signal and run its subscribers. -/
def write (exec : Nat → m Unit) (name : String) (value : σ) : m Unit := do
  let ids ← modifyGet fun g : Graph σ β => g.write name value
  executeAll exec ids

def register (exec : Nat → m Unit) (body : β) : m Unit := do
  let id ← modifyGet fun g : Graph σ β => g.register body
  exec id

end Stencil.Signal
