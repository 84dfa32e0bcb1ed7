/-
  Stencil/Document/Command.lean
  =============================
  **Documents under command.**

  A command makes a node, changes one, asks about one, or brings an event to one.  What a
  listener does is data as well: it leaves a line and then carries out commands of its own.

  A listener may dispatch events, and the listeners that these reach may do the same.
  `obey` takes a bound on how deep that goes and has no result beyond it; a result does not
  depend on the bound.
-/
import Stencil.Document.Event
import Stencil.Document.Walk

namespace Stencil.Document

/-! ### Commands -/

/-- A node to be made. -/
inductive Blueprint where
  | element (name : String) (space : Space)
  | text (value : String)
  | comment (value : String)
  | fragment
  | copy (id : NodeId)
deriving DecidableEq, Repr

inductive Change (π : Type) where
  | append (child : NodeId)
  | insert (child : NodeId) (reference : Option NodeId)
  | setText (value : String)
  | setAttribute (space : Option String) (name value : String)
  | removeAttribute (name : String)
  | setProperty (name : String) (value : π)
  | toggleClass (name : String) (on : Bool)
  | setStyle (property : String) (value : Option String)

inductive Question where
  | kind
  | name
  | space
  | parent
  | firstChild
  | nextSibling
  | children
  | attributeValue (name : String)
  | attributeSpace (name : String)
  | attributes
  | property (name : String)
  | classes
  | styleValue (property : String)
  | listenerCount (event : String)
  | isDelegated (event : String)
  | textContent
  | find (name : String)
  | html
  | innerHtml
deriving DecidableEq, Repr

inductive Command (π : Type) where
  | make (node : Blueprint)
  | change (id : NodeId) (how : Change π)
  | ask (id : NodeId) (what : Question)
  /-- Take a node out of its parent. -/
  | remove (id : NodeId)
  /-- The number of nodes ever made. -/
  | count
  /-- Register a listener with a label and with the commands that it carries out. -/
  | listen (id : NodeId) (event label : String) (delegated : Bool) (commands : List (Command π))
  | dispatch (id : NodeId) (event : String)

instance {π : Type} : Inhabited (Command π) := ⟨.count⟩

/-- What a listener does. -/
structure Routine (π : Type) where
  label : String
  commands : List (Command π)

inductive Reply (π : Type) where
  | done
  | node (id : Option NodeId)
  | nodes (ids : List NodeId)
  | kind (k : Option Kind)
  | space (s : Option Space)
  | text (s : Option String)
  | texts (ss : List String)
  | attributes (as : Attributes)
  | property (p : Option π)
  | flag (b : Bool)
  | count (n : Nat)
  /-- The number of listeners run, and the lines that they have left. -/
  | dispatched (n : Nat) (lines : List String)

/-- A document whose listeners have routines. -/
abbrev Commanded (π : Type) := Document π (Routine π)

variable {π : Type}

/-! ### What commands do -/

/-- A node made as planned; the answer is its number. -/
def Blueprint.build {η : Type} (d : Document π η) : Blueprint → NodeId × Document π η
  | element name space => d.createElement name space
  | text value => d.createText value
  | comment value => d.createComment value
  | fragment => d.createFragment
  | copy id => d.copy id

def Change.apply {η : Type} (d : Document π η) (id : NodeId) : Change π → Document π η
  | append child => d.append id child
  | insert child reference => d.insertBefore id child reference
  | setText value => d.setText id value
  | setAttribute space name value =>
    d.updateAttributes id fun as => Document.setAttribute as space name value
  | removeAttribute name => d.updateAttributes id fun as => Document.removeAttribute as name
  | setProperty name value => d.setProperty id name value
  | toggleClass name on => d.updateAttributes id fun as => Document.toggleClass as name on
  | setStyle property value =>
    d.updateAttributes id fun as => Document.setStyle as property value

def Question.answer {η : Type} (d : Document π η) (id : NodeId) : Question → Reply π
  | kind => .kind (d.kind id)
  | name => .text (d.name? id)
  | space => .space ((d.element? id).map (·.space))
  | parent => .node (d.parent? id)
  | firstChild => .node (d.children id).head?
  | nextSibling => .node (d.nextSibling? id)
  | children => .nodes (d.children id)
  | attributeValue key => .text (Document.attributeValue (d.attributes id) key)
  | attributeSpace key => .text ((findAttribute (d.attributes id) key).bind (·.space))
  | attributes => .attributes (d.attributes id)
  | property key => .property (d.property? id key)
  | classes => .texts (Document.classes (d.attributes id))
  | styleValue key => .text (Document.styleValue (d.attributes id) key)
  | listenerCount event => .count (d.listenersFor id event).length
  | isDelegated event => .flag ((d.listenersFor id event).any (·.delegated))
  | textContent => .text (some (d.textContent id))
  | find key => .node (d.findElement? id key)
  | html => .text (some (d.toHtml id))
  | innerHtml => .text (some (d.innerHtml id))

/-! ### Carrying them out -/

/-- A document together with the lines that its listeners have left. -/
structure Desk (π : Type) where
  document : Commanded π
  lines : Array String

def Desk.empty : Desk π := ⟨.empty, #[]⟩

/-- Work at a desk, or none if it goes deeper than allowed. -/
abbrev Work (π : Type) := StateT (Desk π) Option

def look : Work π (Commanded π) := do return (← get).document

/-- The document changed, with an answer. -/
def onDocument {α : Type} (f : Commanded π → α × Commanded π) : Work π α :=
  modifyGet fun desk =>
    let (a, document) := f desk.document
    (a, { desk with document })

/-- The written form of a node as it is now. -/
def written (id : NodeId) : Work π (Reply π) := do return .text (some ((← look).toHtml id))

/-- The lines left so far, which are cleared. -/
def takeLines : Work π (List String) :=
  modifyGet fun desk => (desk.lines.toList, { desk with lines := #[] })

/-- One command carried out, where `run` runs a listener.  A change is answered by the
    written form of the node changed, a removal by that of the former parent. -/
def obeyWith (run : Routine π → Event → Work π Unit) : Command π → Work π (Reply π)
  | .make node => do
    let id ← onDocument fun d => node.build d
    pure (.node (some id))
  | .change id how => do
    onDocument fun d => ((), how.apply d id)
    written id
  | .ask id what => do return what.answer (← look) id
  | .remove id => do
    let former := (← look).parent? id
    onDocument fun d => ((), d.detach id)
    match former with
    | some parent => written parent
    | none => pure (.text none)
  | .count => do return .count (← look).size
  | .listen id event label delegated commands => do
    onDocument fun d => ((), d.addListener id ⟨event, ⟨label, commands⟩, delegated⟩)
    pure .done
  | .dispatch id event => do
    let n ← Document.dispatch look run id event
    let lines ← takeLines
    pure (.dispatched n lines)

def obeyAll (run : Routine π → Event → Work π Unit) : List (Command π) → Work π Unit
  | [] => pure ()
  | c :: cs => do
    let _ ← obeyWith run c
    obeyAll run cs

def Event.line (e : Event) (label : String) : String :=
  label ++ " " ++ e.name ++ " #" ++ toString e.target ++ " #" ++ toString e.current

/-- A listener run, with dispatches in dispatches at most `depth` deep. -/
def runRoutine : Nat → Routine π → Event → Work π Unit
  | 0, _, _ => failure
  | depth + 1, r, e => do
    modify fun desk => { desk with lines := desk.lines.push (e.line r.label) }
    obeyAll (runRoutine depth) r.commands

/-- One command carried out, with dispatches in dispatches at most `depth` deep. -/
def obey (depth : Nat) (c : Command π) : Work π (Reply π) := obeyWith (runRoutine depth) c

def diagnostic {η : Type} (d : Document π η) : String :=
  "Document \x7b nodes: " ++ toString d.size ++ " \x7d"

end Stencil.Document
