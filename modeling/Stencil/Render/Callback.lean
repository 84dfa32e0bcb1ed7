/-
  Stencil/Render/Callback.lean
  ============================
  **Calling the code of the application.**
-/
import Stencil.Render.World

namespace Stencil.Render

def callRef (label : String) (id : NodeId) : Run Unit := do
  log (.referred label ((← page).toHtml id))

/-- A callback with a result, called: it gives the result it was made with, or its
    argument. -/
def callFunc (c : Calls) (f : Func) (argument : Value) : Run Value := do
  log (.called f.label (argument.describe (← page)))
  match f.result with
  | some code => c.build none code
  | none => pure argument

def callBack (c : Calls) (node : NodeId) : Callback → Run Unit
  | .ref label => callRef label node
  | .func f => discard (callFunc c f (.node node))

def runHandler (c : Calls) (h : Handler) (e : Document.Event) : Run Unit := do
  let d ← page
  log (.handled h.label e.name (nodeLabel d e.target) (nodeLabel d e.current))
  match h.assigns with
  | some (name, code) => writeSignal c name code
  | none => pure ()

def runAction (c : Calls) (a : Action) (e : Document.Event) : Run Unit :=
  match a with
  | .handler h => runHandler c h e
  | .read r => discard (c.read r)
  | .call f => discard (callFunc c f (.text e.name))

/-- A setter applied to an element, and the value called if the setter says so. -/
def applySetter (f : Factory) (c : Calls) (node : NodeId) (setter : Setter) (name : String)
    (v : Value) : Run Unit := do
  changePage fun d => d.updateElement node (setter.write f.config name v)
  match setter.callback? v with
  | some callback => callBack c node callback
  | none => pure ()

/-- An event dispatched on the page; the answer is the number of listeners run. -/
def dispatch (c : Calls) (target : NodeId) (event : String) : Run Nat :=
  Document.dispatch page (runAction c) target event

end Stencil.Render
