/-
  Stencil/Document/Tree.lean
  ==========================
  **A subtree as a value.**

  `Document.tree` reads the subtree of a node off the store, as a tree with no
  numbers in it.  Properties and listeners are left out, and so are children of texts and
  comments, which are not written: two subtrees with equal trees are written alike.  On
  such a tree the written form is plain structural recursion.
-/
import Stencil.Document.Walk

namespace Stencil.Document

/-- A subtree without its place in a document. -/
inductive Tree where
  | element (name : String) (space : Space) (attributes : Attributes) (children : List Tree)
  | text (value : String)
  | comment (value : String)
  | fragment (children : List Tree)
deriving Repr, Inhabited

namespace Tree

/-- The written form of a tree that stands under the element `parent`. -/
def html (parent : Option String) : Tree → String
  | element name _ as children =>
    startTag name as ++
      if unclosedElements.contains name then ""
      else htmlAll (some name) children ++ closeTag name
  | text value => textHtml parent value
  | comment value => commentHtml value
  | fragment children => htmlAll none children
where
  /-- The written form of trees, one after the other. -/
  htmlAll (parent : Option String) : List Tree → String
    | [] => ""
    | t :: ts => t.html parent ++ htmlAll parent ts

end Tree

variable {π η : Type}

/-- The subtree of a node, down to `n` levels. -/
def treeUpTo (d : Document π η) : Nat → NodeId → Tree
  | 0, _ => .fragment []
  | n + 1, id =>
    match d.node? id with
    | none => .fragment []
    | some data =>
      let below := data.children.map (treeUpTo d n)
      match data.content with
      | .element e => .element e.name e.space e.attributes below
      | .text value => .text value
      | .comment value => .comment value
      | .fragment => .fragment below

def tree (d : Document π η) (id : NodeId) : Tree := d.treeUpTo (d.size + 1) id

def childTrees (d : Document π η) (id : NodeId) : List Tree := (d.children id).map d.tree

end Stencil.Document
