/-
  Stencil/Document/Walk.lean
  ==========================
  **The written form of a subtree, its text, and looking for an element in it.**

  Each of the three goes over the subtree with a stack of what is still to do.  In a
  forest no node comes up twice, so twice the number of nodes bounds the steps.
-/
import Stencil.Document.Forest
import Stencil.Text.Escape

namespace Stencil.Document

variable {π η : Type}

/-! ### The written form -/

/-- Elements that are written without content and without a close tag. -/
def unclosedElements : List String :=
  ["area", "base", "br", "col", "embed", "hr", "img", "input", "link", "meta", "param", "source",
    "track", "wbr"]

/-- Elements whose texts are written to the letter. -/
def verbatimElements : List String := ["script", "style"]

def attributeHtml (a : Attribute) : String :=
  " " ++ a.name ++ "=\"" ++ Text.escapeAttribute a.value ++ "\""

def startTag (name : String) (as : Attributes) : String :=
  "<" ++ name ++ String.join (as.map attributeHtml) ++ ">"

def closeTag (name : String) : String := "</" ++ name ++ ">"

/-- A text as written under the element `parent`. -/
def textHtml (parent : Option String) (value : String) : String :=
  if parent.any verbatimElements.contains then value else Text.escapeContent value

def commentHtml (value : String) : String := "<!--" ++ value ++ "-->"

/-- What is left to write: a node with its subtree, or the end of an element. -/
inductive Pending where
  | node (id : NodeId)
  | close (name : String)
deriving DecidableEq, Repr

/-- One step of writing: the text it writes and what it leaves to do. -/
def writeNode (d : Document π η) (id : NodeId) : String × List Pending :=
  match d.node? id with
  | none => ("", [])
  | some n =>
    match n.content with
    | .text value => (textHtml (n.parent.bind d.name?) value, [])
    | .comment value => (commentHtml value, [])
    | .fragment => ("", n.children.map .node)
    | .element e =>
      (startTag e.name e.attributes,
        if unclosedElements.contains e.name then []
        else n.children.map .node ++ [.close e.name])

/-- Writing, for at most the given number of steps. -/
def writeAll (d : Document π η) : Nat → List Pending → String
  | 0, _ => ""
  | _, [] => ""
  | n + 1, .close name :: stack => closeTag name ++ writeAll d n stack
  | n + 1, .node id :: stack =>
    let (text, next) := d.writeNode id
    text ++ writeAll d n (next ++ stack)

/-- The number of steps that a walk can take. -/
def walkBound (d : Document π η) : Nat := 2 * d.size + 1

/-- The written form of a node and its subtree; of a fragment, that of its children. -/
def toHtml (d : Document π η) (id : NodeId) : String := d.writeAll d.walkBound [.node id]

def innerHtml (d : Document π η) (id : NodeId) : String :=
  String.join ((d.children id).map d.toHtml)

/-! ### Document order -/

/-- The nodes below a stack of nodes, for at most the given number of steps. -/
def walkAll (d : Document π η) : Nat → List NodeId → List NodeId
  | 0, _ => []
  | _, [] => []
  | n + 1, id :: stack => id :: walkAll d n (d.children id ++ stack)

/-- A node and everything below it, in document order. -/
def subtree (d : Document π η) (id : NodeId) : List NodeId := d.walkAll d.walkBound [id]

def text? (d : Document π η) (id : NodeId) : Option String :=
  match d.node? id with
  | some ⟨.text value, _, _⟩ => some value
  | _ => none

def textContent (d : Document π η) (id : NodeId) : String :=
  String.join ((d.subtree id).filterMap d.text?)

def findElement? (d : Document π η) (id : NodeId) (name : String) : Option NodeId :=
  (d.subtree id).find? fun n => d.name? n == some name

end Stencil.Document
