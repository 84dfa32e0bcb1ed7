/-
  Stencil/Document/Event.lean
  ===========================
  **Dispatching events.**

  An event goes to its target and then up through the ancestors that the target had
  when the event began.  At each element the listeners for it are listed when it gets
  there; then they run one after the other, and whatever they do to the document, to
  the ancestors or to the listeners does not change this list.

  What running a handler means is a parameter, in a monad `m` that lets the document
  be looked at.
-/
import Stencil.Document.Forest

namespace Stencil.Document

/-- What a handler is told. -/
structure Event where
  name : String
  target : NodeId
  current : NodeId
deriving DecidableEq, Repr

section
variable {π η : Type} {m : Type → Type} [Monad m]

def runListeners (run : η → Event → m Unit) (e : Event) : List (Listener η) → m Unit
  | [] => pure ()
  | l :: ls => do
    run l.handler e
    runListeners run e ls

/-- An event brought to the given nodes; the answer is the number of handlers run. -/
def visit (look : m (Document π η)) (run : η → Event → m Unit) (name : String) (target : NodeId) :
    List NodeId → m Nat
  | [] => pure 0
  | id :: rest => do
    let d ← look
    let ls := d.listenersFor id name
    runListeners run ⟨name, target, id⟩ ls
    let n ← visit look run name target rest
    pure (ls.length + n)

/-- An event dispatched at a target; the answer is the number of handlers run. -/
def dispatch (look : m (Document π η)) (run : η → Event → m Unit) (target : NodeId)
    (name : String) : m Nat := do
  let d ← look
  visit look run name target (d.lineage target)

end
end Stencil.Document
