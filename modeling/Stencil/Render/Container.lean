/-
  Stencil/Render/Container.lean
  =============================
  **Rendering a container: copying its skeleton and binding the values to the copy.**

  The places of a container where something has to be done are its *points*, in document
  order: its holes, its plain elements and its components.  The skeleton has a comment for
  a hole or a component and an element for an element, so going over the elements and
  comments of the copy in document order meets the points one by one.  All of them are
  paired before the first is bound, for binding changes the copy.

  A container without a skeleton is rendered node by node, and the values of its holes are
  handed on as they are.

  A component runs without subscriptions, with props from its attributes and with its
  content under `children`: a reader that renders the content afresh each time.
-/
import Stencil.Render.Bind

namespace Stencil.Render

open Markup (Attr Node Tag)

/-! ### Components -/

/-- The props that an attribute of a component sets. -/
def attrProps (c : Calls) (values : List Value) (ps : Props) : Attr → Run Props
  | .flag name => pure (ps.set name (.immediate (.bool true)))
  | .fixed name value _ => pure (ps.set name (.immediate (.text value)))
  | .dynamic name i _ => pure (ps.set name (.forProp name (valueAt values i)))
  | .mixed name parts _ => pure (ps.set name (.forProp name (joinedValue values parts)))
  | .spread i => do
    match ← c.resolve (valueAt values i) with
    | .spread entries => pure (ps.setAll entries)
    | _ => pure ps

def attrsProps (c : Calls) (values : List Value) (ps : Props) : List Attr → Run Props
  | [] => pure ps
  | a :: as => do
    let ps ← attrProps c values ps a
    attrsProps c values ps as

/-- The props of a component: those of its attributes, and its content if it has any. -/
def componentProps (c : Calls) (source : Compiled) (values : List Value) (t : Tag)
    (children : List Node) : Run Props := do
  let ps ← attrsProps c values [] t.attrs
  match t.slot, children with
  | some slot, _ :: _ =>
    pure (ps.set Props.childrenName (.reactive (.children source values slot children)))
  | _, _ => pure ps

def invoke (f : Factory) (c : Calls) (source : Compiled) (values : List Value) (t : Tag)
    (children : List Node) : Run Value :=
  match f.registry.componentFor? t with
  | none => pure .empty
  | some body =>
    untracked f do
      let ps ← componentProps c source values t children
      log (.invoked t.name)
      c.build (some ps) body

/-! ### Points -/

/-- A place of a container where something has to be done. -/
inductive Point where
  | hole (index : Nat)
  | element (tag : Tag)
  | component (tag : Tag) (children : List Node)

mutual

/-- The points of a node.  The content of a component is a container of its own. -/
def pointsOf (f : Factory) : Node → List Point
  | .text _ => []
  | .hole i => [.hole i]
  | .element tag children =>
    if f.registry.isComponent tag then [.component tag children]
    else .element tag :: pointsOfAll f children

def pointsOfAll (f : Factory) : List Node → List Point
  | [] => []
  | n :: ns => pointsOf f n ++ pointsOfAll f ns

end

/-- The elements and comments below a node, in document order. -/
def stations (d : Page) (root : NodeId) : List NodeId :=
  ((d.subtree root).drop 1).filter fun n =>
    d.kind n == some .element || d.kind n == some .comment

def bindPoint (f : Factory) (c : Calls) (source : Compiled) (values : List Value) (node : NodeId) :
    Point → Run Unit
  | .hole i => insertValue f c node (valueAt values i)
  | .element tag => bindTag f c values node tag
  | .component tag children => do
    let v ← invoke f c source values tag children
    insertValue f c node v

def bindPoints (f : Factory) (c : Calls) (source : Compiled) (values : List Value) :
    List (Point × NodeId) → Run Unit
  | [] => pure ()
  | (point, node) :: rest => do
    bindPoint f c source values node point
    bindPoints f c source values rest

/-! ### Containers -/

/-- The values of the nodes of a container without a skeleton. -/
def looseValues (f : Factory) (c : Calls) (source : Compiled) (values : List Value) :
    List Node → Run (List Value)
  | [] => pure []
  | n :: ns => do
    let v ←
      match n with
      | .text s => do
        let id ← onPage (·.createText s)
        pure (Value.node id)
      | .hole i => pure (valueAt values i)
      | .element tag children => invoke f c source values tag children
    let vs ← looseValues f c source values ns
    pure (v :: vs)

/-- A container rendered: one value for all that stands in it. -/
def renderContainer (f : Factory) (c : Calls) (source : Compiled) (values : List Value)
    (slot : Nat) (nodes : List Node) : Run Value :=
  match source.skeleton? slot with
  | none => do
    let vs ← looseValues f c source values nodes
    pure (Value.ofList vs)
  | some skeleton => do
    let root ← onPage (·.copy skeleton)
    let d ← page
    bindPoints f c source values ((pointsOfAll f nodes).zip (stations d root))
    let d ← page
    pure (Value.ofList ((d.children root).map Value.node))

/-! ### Literals -/

/-- A literal compiled, unless it has been before. -/
def compile (f : Factory) (l : Literal) : Run (Except TemplateError Compiled) :=
  modifyGetThe World fun w =>
    let (answer, cache, page) := w.cache.getOrCompile l.key (f.compile l) w.page
    (answer.outcome, { w with cache, page })

def renderLiteral (f : Factory) (c : Calls) (l : Literal) (values : List Value) :
    Run (Except TemplateError Value) := do
  if values.length ≠ l.holeCount then
    pure (.error (.holeCount l.holeCount values.length))
  else
    match ← compile f l with
    | .error e => pure (.error e)
    | .ok source => do
      let v ← c.container source values Markup.rootSlot source.tree.children
      pure (.ok v)

end Stencil.Render
