/-
  Stencil/Render/Session.lean
  ===========================
  **An application at work, step by step.**

  A session sets signals, renders literals, mounts what comes out of it in containers,
  brings events to nodes and looks at the page.  Each step has an answer.  The factory can
  be given up: from then on every literal comes to nothing, nothing is mounted any more, and
  effects are still run but do nothing.
-/
import Stencil.Render.Machine

namespace Stencil.Render

/-- Where a step is directed: a node of a container, by the indexes of the children on the
    way to it. -/
structure Place where
  container : String
  path : List Nat
deriving DecidableEq, Repr

/-- A step of a session. -/
inductive Step where
  /-- Render a literal, and perhaps store the result. -/
  | render (literal : String) (values : List Script) (store : Option String)
  /-- Render a literal and mount the result. -/
  | display (literal : String) (values : List Script) (container : String)
  | mount (value : Script) (container : String)
  /-- Build a script, and perhaps store the value. -/
  | evaluate (value : Script) (store : Option String)
  | set (signal : String) (value : Script)
  | compile (literal : String)
  | statistics
  | find (container name : String)
  | dispatch (place : Place) (event : String)
  | textContent (place : Place)
  | remove (place : Place)
  | inspect (place : Place) (props events : List String)
  /-- Give up the factory. -/
  | drop

/-- What can be seen of a node. -/
structure Inspection where
  kind : Document.Kind
  name : Option String
  space : Option Document.Space
  attributes : Document.Attributes
  properties : List (Option Described)
  events : List (Nat × Bool)
deriving Repr

inductive Answer where
  | done
  | failed (e : TemplateError)
  | described (v : Described)
  | dropped
  | noSuchNode
  | compiled (slotCount : Nat) (skeletons : List (Option String))
  | statistics (parses hits : Nat) (subscribers : List (String × Nat)) (effects : Option Nat)
  | found (html : Option String)
  | count (n : Nat)
  | text (s : String)
  | inspected (i : Inspection)
deriving Repr

def store (name : Option String) (v : Value) : Run Unit :=
  match name with
  | none => pure ()
  | some name =>
    modifyThe World fun w =>
      { w with stored := (name, v) :: w.stored.filter (·.1 != name) }

/-- The node at the end of a path. -/
def follow (d : Page) (id : NodeId) : List Nat → Option NodeId
  | [] => some id
  | i :: path =>
    match (d.children id)[i]? with
    | some child => follow d child path
    | none => none

def nodeAt (p : Place) : Run (Option NodeId) := do
  let id ← container p.container
  return follow (← page) id p.path

def inspection (d : Page) (id : NodeId) (props events : List String) : Inspection where
  kind := (d.kind id).getD .fragment
  name := d.name? id
  space := (d.element? id).map (·.space)
  attributes := d.attributes id
  properties := props.map fun name => (d.property? id name).map (·.describe d)
  events := events.map fun name =>
    let ls := d.listenersFor id name
    (ls.length, ls.any (·.delegated))

def atPlace (p : Place) (act : NodeId → Run Answer) : Run Answer := do
  match ← nodeAt p with
  | some id => act id
  | none => pure .noSuchNode

/-- A value mounted in a container.  The container is made if it is not there, even when the
    factory is gone and nothing is put into it. -/
def mountIn (f : Factory) (c : Calls) (name : String) (v : Value) : Run Answer := do
  let parent ← container name
  if (← getThe World).live then
    mount f c parent v
    pure .done
  else pure .dropped

/-- One step, taken by the renderer `c`. -/
def perform (f : Factory) (c : Calls) : Step → Run Answer
  | .render literal values name => do
    let vs ← buildScripts f c none values
    match ← renderNamed f c literal vs with
    | .ok v => do
      store name v
      return .described (v.describe (← page))
    | .error e => pure (.failed e)
  | .display literal values name => do
    let vs ← buildScripts f c none values
    match ← renderNamed f c literal vs with
    | .ok v => mountIn f c name v
    | .error e => pure (.failed e)
  | .mount value name => do
    let v ← buildScript f c none value
    mountIn f c name v
  | .evaluate value name => do
    let v ← buildScript f c none value
    store name v
    return .described (v.describe (← page))
  | .set signal value => do
    writeSignal c signal value
    pure .done
  | .compile literal => do
    if (← getThe World).live then
      match ← compile f (f.literal literal) with
      | .ok source => do
        let d ← page
        pure (.compiled source.tree.slotCount (source.skeletons.map (·.map d.toHtml)))
      | .error e => pure (.failed e)
    else pure .dropped
  | .statistics => do
    let w ← getThe World
    let effects := if f.tracking then some w.graph.effects.size else none
    let (parses, hits) := if w.live then (w.cache.parses, w.cache.hits) else (0, 0)
    pure (.statistics parses hits w.graph.subscriberCounts effects)
  | .find name element => do
    let id ← container name
    let d ← page
    pure (.found ((d.findElement? id element).map d.toHtml))
  | .dispatch place event =>
    atPlace place fun id => do
      let n ← dispatch c id event
      pure (.count n)
  | .textContent place => atPlace place fun id => do return .text ((← page).textContent id)
  | .remove place =>
    atPlace place fun id => do
      changePage (·.detach id)
      pure .done
  | .inspect place props events =>
    atPlace place fun id => do return .inspected (inspection (← page) id props events)
  | .drop => do
    modifyThe World fun w => { w with live := false }
    pure .done

/-- What is seen after a step: its answer, what every container holds, and the entries that
    the step has added to the log. -/
structure View where
  answer : Answer
  containers : List (String × String)
  log : List LogEntry

/-- One step, at most `depth` levels deep, and what is seen after it. -/
def step (f : Factory) (depth : Nat) (s : Step) : Run View := do
  let answer ← perform f (machine f depth) s
  let w ← getThe World
  modifyThe World fun w => { w with log := #[] }
  pure ⟨answer, w.containers.map fun (name, id) => (name, w.page.innerHtml id), w.log.toList⟩

end Stencil.Render
