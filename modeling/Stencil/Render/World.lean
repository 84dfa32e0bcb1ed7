/-
  Stencil/Render/World.lean
  =========================
  **The state that rendering works on, and the shape of the renderer.**

  A *factory* is what does not change while an application runs: how literals are
  compiled, which literals there are, and whether effects run again when a signal that
  they have read is written.  The *world* is everything that changes: the page, the
  signals with the effects that watch them, the compiled literals, and a log of what the
  application's own code was called with.

  An effect of the renderer is a *binding*: an attribute, the attributes that a spread
  brings, or the content before a marker.  It is data; what its run does is said in
  `Stencil.Render.Effect`.

  The parts of the renderer call each other in a circle: a script renders a literal, a
  literal invokes a component, a component builds a script.  So each part is written
  against `Calls`, the parts as they are one level further down, and the circle is closed
  once and for all by counting levels, in `Stencil.Render.Machine`.
-/
import Stencil.Document.Event
import Stencil.Signal.Tracking
import Stencil.Template.Cache
import Stencil.Template.Skeleton

namespace Stencil

/-- What is set up once for an application. -/
structure Factory extends Setup Script where
  literals : List Literal
  tracking : Bool

/-- A literal of the application; one that it does not have is without segments. -/
def Factory.literal (f : Factory) (name : String) : Literal :=
  (f.literals.find? (·.name == name)).getD ⟨name, []⟩

namespace Render

/-- An effect of the renderer.  The last form remembers the nodes that it has put before
    its marker. -/
inductive Binding where
  | attribute (node : NodeId) (setter : Setter) (name : String) (reader : Reader)
  | spread (node : NodeId) (shadowed : List String) (reader : Reader)
  | content (marker : NodeId) (reader : Reader) (current : List NodeId)

/-- What the code of the application was called with, as it can be told from outside. -/
inductive LogEntry where
  | handled (label event target current : String)
  | referred (label html : String)
  | called (label : String) (argument : Described)
  | invoked (component : String)
  | noted (line : String)
  | listed (props : List (String × Bool × Described))
deriving Repr

/-- Signals hold scripts, and effects are bindings. -/
abbrev SignalGraph := Signal.Graph Script Binding

/-- Everything that changes. -/
structure World where
  page : Page
  graph : SignalGraph
  cache : Cache Compiled
  log : Array LogEntry
  stored : List (String × Value)
  containers : List (String × NodeId)
  live : Bool

def World.initial (signals : List (String × Script)) : World :=
  ⟨.empty, .ofValues signals, .empty, #[], [], [], true⟩

/-- An action on the world, or none if it goes deeper than it was allowed to. -/
abbrev Run := StateT World Option

instance : MonadStateOf SignalGraph Run where
  get := do return (← getThe World).graph
  set g := modifyThe World fun w => { w with graph := g }
  modifyGet f := modifyGetThe World fun w =>
    let (a, g) := f w.graph
    (a, { w with graph := g })

/-- The parts of the renderer that call each other in a circle. -/
structure Calls where
  /-- Build a script, in the body of a component with the given props. -/
  build : Option Props → Script → Run Value
  /-- Read a reader once. -/
  read : Reader → Run Value
  /-- Read a value until it is no reader. -/
  resolve : Value → Run Value
  /-- The nodes that show a value. -/
  nodes : Value → Run (List NodeId)
  /-- Render a container of a compiled literal with values for its holes. -/
  container : Compiled → List Value → Nat → List Markup.Node → Run Value
  /-- Run an effect. -/
  effect : Nat → Run Unit

/-! ### The page and the log -/

def page : Run Page := do return (← getThe World).page

/-- The page changed, with an answer. -/
def onPage {α : Type} (f : Page → α × Page) : Run α :=
  modifyGetThe World fun w =>
    let (a, page) := f w.page
    (a, { w with page })

def changePage (f : Page → Page) : Run Unit :=
  modifyThe World fun w => { w with page := f w.page }

def log (e : LogEntry) : Run Unit :=
  modifyThe World fun w => { w with log := w.log.push e }

/-- What a node is called in the log: the name of an element, the kind of another. -/
def nodeLabel (d : Page) (id : NodeId) : String :=
  match d.node? id with
  | some ⟨.element e, _, _⟩ => e.name
  | some ⟨.text _, _, _⟩ => "text"
  | some ⟨.comment _, _, _⟩ => "comment"
  | some ⟨.fragment, _, _⟩ => "fragment"
  | none => ""

/-! ### Signals -/

/-- The script that a signal holds; reading it counts for the effect that runs. -/
def readSignal (name : String) : Run Script := do
  return (← Signal.read (σ := Script) (β := Binding) name).getD .empty

/-- A signal set to a script, and its subscribers run. -/
def writeSignal (c : Calls) (name : String) (code : Script) : Run Unit :=
  Signal.write (σ := Script) (β := Binding) c.effect name code

/-- An action whose readings count for nothing, if anything keeps count. -/
def untracked {α : Type} (f : Factory) (act : Run α) : Run α :=
  if f.tracking then Signal.untracked (σ := Script) (β := Binding) act else act

def valueAt (values : List Value) (i : Nat) : Value := values.getD i .empty

end Render
end Stencil
