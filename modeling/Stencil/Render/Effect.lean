/-
  Stencil/Render/Effect.lean
  ==========================
  **What the run of a binding does.**

  The content before a marker is replaced as a whole each time its reader is read, with
  one exception: where a single text node stands and a text is to stand, that node gets
  the new text.

  Once the factory is gone the runs of its bindings do nothing.
-/
import Stencil.Render.Callback

namespace Stencil.Render

/-! ### Values as nodes -/

mutual

/-- The nodes that show a value: new text nodes for texts and numbers, a node itself, the
    children of a fragment.  A reader in a list is read once.  Values that can only be
    called show nothing. -/
def nodesOf (c : Calls) : Value → Run (List NodeId)
  | .text s => do return [← onPage (·.createText s)]
  | .number n => do return [← onPage (·.createText n.text)]
  | .node id => do
    let d ← page
    return if d.isFragment id then d.children id else [id]
  | .list items => nodesOfAll c items
  | .reactive r => do
    let v ← c.read r
    c.nodes v
  | _ => pure []

def nodesOfAll (c : Calls) : List Value → Run (List NodeId)
  | [] => pure []
  | v :: vs => do
    let front ← nodesOf c v
    let back ← nodesOfAll c vs
    return front ++ back

end

def insertAll (d : Page) (parent : NodeId) (reference : Option NodeId) (nodes : List NodeId) :
    Page :=
  nodes.foldl (fun d n => d.insertBefore parent n reference) d

/-- The text that can be written into a text node that is there. -/
def plainText? : Value → Option String
  | .text s => some s
  | .number n => some n.text
  | _ => none

/-- The text node that is all of the current content. -/
def onlyText? (d : Page) : List NodeId → Option NodeId
  | [n] => if d.kind n = some .text then some n else none
  | _ => none

/-- The content before a marker replaced by the nodes of a value; the answer is what then
    stands there on account of this binding. -/
def replaceContent (c : Calls) (marker : NodeId) (current : List NodeId) (v : Value) :
    Run (List NodeId) := do
  changePage fun d => current.foldl (fun d n => d.detach n) d
  let nodes ← nodesOf c v
  match (← page).parent? marker with
  | none => pure []
  | some parent => do
    changePage fun d => insertAll d parent (some marker) nodes
    pure nodes

/-- The content before a marker brought up to date. -/
def updateContent (c : Calls) (marker : NodeId) (current : List NodeId) (v : Value) :
    Run (List NodeId) := do
  match onlyText? (← page) current, plainText? v with
  | some n, some s => do
    changePage fun d => d.setText n s
    pure current
  | _, _ => replaceContent c marker current v

/-! ### Spreads -/

/-- Whether a later attribute has the name of a spread entry. -/
def isShadowed (shadowed : List String) (name : String) : Bool :=
  shadowed.any fun later => Text.sameName later name

/-- The entries of a spread applied, except the shadowed ones; what has to be read is read
    now. -/
def applyEntries (f : Factory) (c : Calls) (node : NodeId) (shadowed : List String) :
    Props → Run Unit
  | [] => pure ()
  | (name, e) :: rest => do
    if isShadowed shadowed name then pure ()
    else
      let v ← c.resolve e.toValue
      let (rule, stripped) := f.policy.resolve name
      applySetter f c node rule.setter stripped v
    applyEntries f c node shadowed rest

/-! ### Runs -/

/-- One run of a binding, and the binding for the next run. -/
def runBinding (f : Factory) (c : Calls) (b : Binding) : Run Binding := do
  if !(← getThe World).live then pure b
  else
    match b with
    | .attribute node setter name reader => do
      let v ← c.resolve (.reactive reader)
      applySetter f c node setter name v
      pure b
    | .spread node shadowed reader => do
      match ← c.resolve (.reactive reader) with
      | .spread entries => applyEntries f c node shadowed entries
      | _ => pure ()
      pure b
    | .content marker reader current => do
      let v ← c.resolve (.reactive reader)
      let next ← updateContent c marker current v
      pure (.content marker reader next)

/-- A binding that is to be kept up to date: registered as an effect, or run just once if
    nothing is tracked. -/
def newBinding (f : Factory) (c : Calls) (b : Binding) : Run Unit :=
  if f.tracking then Signal.register (σ := Script) (β := Binding) c.effect b
  else discard (runBinding f c b)

def runEffect (f : Factory) (c : Calls) (id : Nat) : Run Unit :=
  Signal.execute (σ := Script) (β := Binding) (runBinding f c) id

end Stencil.Render
