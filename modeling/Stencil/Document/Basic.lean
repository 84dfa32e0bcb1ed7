/-
  Stencil/Document/Basic.lean
  ===========================
  **Documents: a store of nodes.**

  A document keeps every node ever made, by number.  A node is an element, a text, a
  comment or a fragment; it has at most one parent and a list of children.  A node
  that is not in use has no parent, nothing more.

  The store does not look into the properties of elements or into their listeners:
  their types `π` and `η` are parameters.  `Document.update` changes one node and is
  how every operation writes.
-/
import Stencil.Document.Attribute

namespace Stencil

abbrev NodeId := Nat

namespace Document

inductive Space where
  | html
  | svg
deriving DecidableEq, Repr

inductive Kind where
  | element
  | text
  | comment
  | fragment
deriving DecidableEq, Repr

/-- A listener of an element.  A delegated one is served by a single listener of the
    page. -/
structure Listener (η : Type) where
  event : String
  handler : η
  delegated : Bool

/-- What an element is, apart from its place in the tree. -/
structure ElementData (π η : Type) where
  name : String
  space : Space
  attributes : Attributes
  properties : List (String × π)
  listeners : List (Listener η)

inductive Content (π η : Type) where
  | element (e : ElementData π η)
  | text (value : String)
  | comment (value : String)
  | fragment

/-- A node with its place in the tree. -/
structure NodeData (π η : Type) where
  content : Content π η
  parent : Option NodeId
  children : List NodeId

end Document

/-- A store of nodes; the number of a node is its index. -/
structure Document (π η : Type) where
  nodes : Array (Document.NodeData π η)

namespace Document

variable {π η : Type}

def Content.kind : Content π η → Kind
  | .element _ => .element
  | .text _ => .text
  | .comment _ => .comment
  | .fragment => .fragment

def empty : Document π η := ⟨#[]⟩

/-- The number of nodes ever made. -/
def size (d : Document π η) : Nat := d.nodes.size

def node? (d : Document π η) (id : NodeId) : Option (NodeData π η) := d.nodes[id]?

def update (d : Document π η) (id : NodeId) (f : NodeData π η → NodeData π η) : Document π η :=
  ⟨d.nodes.modify id f⟩

@[simp] theorem size_update (d : Document π η) (id : NodeId) (f : NodeData π η → NodeData π η) :
    (d.update id f).size = d.size := by simp [update, size]

theorem node?_update (d : Document π η) (id other : NodeId) (f : NodeData π η → NodeData π η) :
    (d.update id f).node? other = if id = other then (d.node? other).map f else d.node? other := by
  simp [update, node?, Array.getElem?_modify]

/-! ### Making nodes -/

/-- A new node without a parent and without children; its number is the next one. -/
def create (d : Document π η) (c : Content π η) : NodeId × Document π η :=
  (d.nodes.size, ⟨d.nodes.push ⟨c, none, []⟩⟩)

@[simp] theorem size_create (d : Document π η) (c : Content π η) :
    (d.create c).2.size = d.size + 1 := by simp [create, size]

theorem node?_create (d : Document π η) (c : Content π η) (other : NodeId) :
    (d.create c).2.node? other = if other = d.size then some ⟨c, none, []⟩ else d.node? other := by
  simp only [create, node?, size, Array.getElem?_push]
  rfl

def createElement (d : Document π η) (name : String) (space : Space) : NodeId × Document π η :=
  d.create (.element ⟨name, space, [], [], []⟩)

def createText (d : Document π η) (value : String) : NodeId × Document π η :=
  d.create (.text value)

def createComment (d : Document π η) (value : String) : NodeId × Document π η :=
  d.create (.comment value)

def createFragment (d : Document π η) : NodeId × Document π η :=
  d.create .fragment

/-! ### Looking at nodes -/

def kind (d : Document π η) (id : NodeId) : Option Kind :=
  (d.node? id).map (·.content.kind)

/-- What an element is; nothing for the other kinds of nodes. -/
def element? (d : Document π η) (id : NodeId) : Option (ElementData π η) :=
  match d.node? id with
  | some ⟨.element e, _, _⟩ => some e
  | _ => none

def name? (d : Document π η) (id : NodeId) : Option String := (d.element? id).map (·.name)

def parent? (d : Document π η) (id : NodeId) : Option NodeId :=
  (d.node? id).bind (·.parent)

def children (d : Document π η) (id : NodeId) : List NodeId :=
  ((d.node? id).map (·.children)).getD []

def isFragment (d : Document π η) (id : NodeId) : Bool := d.kind id == some .fragment

def nextSibling? (d : Document π η) (id : NodeId) : Option NodeId := do
  let p ← d.parent? id
  ((d.children p).dropWhile (· != id))[1]?

def attributes (d : Document π η) (id : NodeId) : Attributes :=
  ((d.element? id).map (·.attributes)).getD []

def property? (d : Document π η) (id : NodeId) (name : String) : Option π :=
  (d.element? id).bind fun e => (e.properties.find? (·.1 == name)).map (·.2)

/-! ### Changing what a node holds -/

/-- The text of a text node or a comment replaced; other nodes stay as they are. -/
def setText (d : Document π η) (id : NodeId) (value : String) : Document π η :=
  d.update id fun n =>
    match n.content with
    | .text _ => { n with content := .text value }
    | .comment _ => { n with content := .comment value }
    | _ => n

/-- An element changed; other nodes stay as they are. -/
def updateElement (d : Document π η) (id : NodeId)
    (f : ElementData π η → ElementData π η) : Document π η :=
  d.update id fun n =>
    match n.content with
    | .element e => { n with content := .element (f e) }
    | _ => n

def updateAttributes (d : Document π η) (id : NodeId) (f : Attributes → Attributes) :
    Document π η :=
  d.updateElement id fun e => { e with attributes := f e.attributes }

/-- A property set: in its old place, or at the end. -/
def setPropertyIn (ps : List (String × π)) (name : String) (value : π) : List (String × π) :=
  match ps with
  | [] => [(name, value)]
  | p :: rest => if p.1 = name then (name, value) :: rest else p :: setPropertyIn rest name value

def setProperty (d : Document π η) (id : NodeId) (name : String) (value : π) : Document π η :=
  d.updateElement id fun e => { e with properties := setPropertyIn e.properties name value }

/-- A listener added to an element, behind those it has. -/
def addListener (d : Document π η) (id : NodeId) (l : Listener η) : Document π η :=
  d.updateElement id fun e => { e with listeners := e.listeners ++ [l] }

/-- The listeners of an element for an event, in the order of their registration. -/
def listenersFor (d : Document π η) (id : NodeId) (event : String) : List (Listener η) :=
  ((d.element? id).map fun e => e.listeners.filter (·.event == event)).getD []

end Document
end Stencil
