/-
  Stencil/Document/Forest.lean
  ============================
  **Moving nodes about.**

  Parents and children of a document describe a forest, and the operations here keep
  it one: a node leaves its parent before it enters another, a node never enters its
  own subtree, and a fragment never enters anything: its children do, one by one.

  `Document.lineage` lists a node and its ancestors.  A chain of parents in a forest
  is no longer than the number of nodes, which is the bound that the recursion uses;
  `Document.IsForest` is the property that makes the bound good.
-/
import Stencil.Document.Basic

namespace Stencil.Document

variable {π η : Type}

/-! ### The forest -/

/-- A node and its ancestors, the node first; at most `n` of them. -/
def lineageUpTo (d : Document π η) : Nat → NodeId → List NodeId
  | 0, _ => []
  | n + 1, id =>
    match d.parent? id with
    | some p => id :: lineageUpTo d n p
    | none => [id]

def lineage (d : Document π η) (id : NodeId) : List NodeId := d.lineageUpTo (d.size + 1) id

/-- `Ancestor d a b`: following parents from `b` leads to `a`, in one step or more. -/
inductive Ancestor (d : Document π η) : NodeId → NodeId → Prop where
  | parent {a b : NodeId} (h : d.parent? b = some a) : Ancestor d a b
  | step {a b c : NodeId} (h : d.parent? c = some b) (hb : Ancestor d a b) : Ancestor d a c

/-- Parents and children fit together, nobody is a child twice, nobody is their own
    ancestor, and fragments have no parent. -/
structure IsForest (d : Document π η) : Prop where
  mem_children_iff : ∀ p c, c ∈ d.children p ↔ d.parent? c = some p
  nodup_children : ∀ p, (d.children p).Nodup
  irrefl : ∀ c, ¬ d.Ancestor c c
  fragment_root : ∀ c, d.isFragment c = true → d.parent? c = none

/-! ### Leaving and entering -/

def detach (d : Document π η) (id : NodeId) : Document π η :=
  match d.parent? id with
  | none => d
  | some p =>
    (d.update id fun n => { n with parent := none }).update p fun n =>
      { n with children := n.children.filter (· != id) }

/-- A list with an element put in front of a reference, at the end if the reference is
    absent. -/
def insertAt (children : List NodeId) (child : NodeId) (reference : Option NodeId) :
    List NodeId :=
  match children with
  | [] => [child]
  | c :: cs => if some c = reference then child :: c :: cs else c :: insertAt cs child reference

/-- A node that is no fragment put into a parent, in front of a reference.  Nothing
    happens if it is the reference itself, or if the parent lies in its subtree. -/
def insertNode (d : Document π η) (parent child : NodeId) (reference : Option NodeId) :
    Document π η :=
  if some child = reference || (d.lineage parent).contains child then d
  else
    let d := d.detach child
    let d := d.update parent fun n => { n with children := insertAt n.children child reference }
    d.update child fun n => { n with parent := some parent }

/-- A node put into a parent, in front of a reference or at the end; of a fragment,
    its children in order. -/
def insertBefore (d : Document π η) (parent child : NodeId) (reference : Option NodeId) :
    Document π η :=
  if d.isFragment child then
    if some child = reference || (d.lineage parent).contains child then d
    else
      let moved := d.children child
      let d := d.update child fun n => { n with children := [] }
      moved.foldl
        (fun d c => (d.update c fun n => { n with parent := none }).insertNode parent c reference) d
  else d.insertNode parent child reference

def append (d : Document π η) (parent child : NodeId) : Document π η :=
  d.insertBefore parent child none

/-! ### Copies -/

/-- What a copy of a node holds: all but the properties and listeners. -/
def Content.copy : Content π η → Content π η
  | .element e => .element { e with properties := [], listeners := [] }
  | c => c

/-- A copy of a node with its subtree, down to `n` levels.  Copies are numbered in the
    order of the subtree, a node before its children. -/
def copyUpTo : Nat → Document π η → NodeId → NodeId × Document π η
  | 0, d, _ => (d.size, d)
  | n + 1, d, id =>
    match d.node? id with
    | none => (d.size, d)
    | some data =>
      let (copy, d) := d.create data.content.copy
      let d := data.children.foldl
        (fun d child =>
          let (c, d) := copyUpTo n d child
          (d.update c fun m => { m with parent := some copy }).update copy fun m =>
            { m with children := m.children ++ [c] })
        d
      (copy, d)

def copy (d : Document π η) (id : NodeId) : NodeId × Document π η :=
  copyUpTo (d.size + 1) d id

end Stencil.Document
