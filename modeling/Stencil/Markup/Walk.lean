/-
  Stencil/Markup/Walk.lean
  ========================
  **Going over a tree in document order.**

  A walk keeps the nodes that it has still to visit on a stack, so it needs no
  recursion; each node comes with its depth.  What a walk visits is what structural
  recursion over the tree lists, a node before its children: `Node.preorder`.
-/
import Stencil.Markup.Tree

namespace Stencil.Markup

namespace Node

/-- A tree as a list, every node with its depth and before its children. -/
def preorder (depth : Nat) : Node → List (Nat × Node)
  | text value => [(depth, text value)]
  | hole i => [(depth, hole i)]
  | element tag children => (depth, element tag children) :: preorderAll (depth + 1) children
where
  /-- A list of trees, one after the other. -/
  preorderAll (depth : Nat) : List Node → List (Nat × Node)
    | [] => []
    | n :: ns => n.preorder depth ++ preorderAll depth ns

theorem preorderAll_eq (depth : Nat) (ns : List Node) :
    preorder.preorderAll depth ns = ns.flatMap (preorder depth) := by
  induction ns with
  | nil => rfl
  | cons n ns ih => rw [preorder.preorderAll, ih, List.flatMap_cons]

/-- A tree in document order: its root, and then the trees below it. -/
theorem preorder_eq (depth : Nat) (n : Node) :
    n.preorder depth = (depth, n) :: n.children.flatMap (preorder (depth + 1)) := by
  cases n with
  | text value => rfl
  | hole i => rfl
  | element tag children => rw [preorder, preorderAll_eq, Node.children]

/-- The holes of a node that are not holes of its children. -/
def ownHoles : Node → List Nat
  | text _ => []
  | hole i => [i]
  | element tag _ => tag.attrs.flatMap Attr.holes

end Node

def stackSize (stack : List (Nat × Node)) : Nat := Node.size.sizeAll (stack.map (·.2))

theorem sizeAll_append (a b : List Node) :
    Node.size.sizeAll (a ++ b) = Node.size.sizeAll a + Node.size.sizeAll b := by
  induction a with
  | nil => simp [Node.size.sizeAll]
  | cons n ns ih => simp [Node.size.sizeAll, ih]; omega

theorem sizeAll_children_lt (n : Node) : Node.size.sizeAll n.children < n.size := by
  cases n <;> simp [Node.children, Node.size, Node.size.sizeAll]

/-- The nodes below a stack of nodes, in document order. -/
def walk : List (Nat × Node) → List (Nat × Node)
  | [] => []
  | (depth, n) :: stack => (depth, n) :: walk (n.children.map (depth + 1, ·) ++ stack)
termination_by stack => stackSize stack
decreasing_by
  simp only [stackSize, List.map_append, sizeAll_append, List.map_cons, Node.size.sizeAll,
    List.map_map]
  have := sizeAll_children_lt n
  have : (fun m : Nat × Node => m.2) ∘ (fun c => (depth + 1, c)) = id := rfl
  rw [this, List.map_id]
  omega

/-- A walk visits the trees on its stack one after the other, each in document order. -/
theorem walk_eq (stack : List (Nat × Node)) :
    walk stack = stack.flatMap fun e => e.2.preorder e.1 := by
  fun_induction walk stack with
  | case1 => rfl
  | case2 depth n stack ih =>
    rw [ih, List.flatMap_append, List.flatMap_cons, Node.preorder_eq, List.flatMap_map]
    rfl

namespace Template

def nodes (t : Template) : List (Nat × Node) := walk (t.children.map (0, ·))

/-- The walk over a literal visits its nodes in document order. -/
theorem nodes_eq (t : Template) : t.nodes = Node.preorder.preorderAll 0 t.children := by
  rw [nodes, walk_eq, List.flatMap_map, Node.preorderAll_eq]

/-- All holes that the tree refers to, in document order: those of the attributes of
    an element come before those of its children. -/
def holes (t : Template) : List Nat := t.nodes.flatMap fun e => e.2.ownHoles

/-- The tags of all elements, parents before children. -/
def tags (t : Template) : List Tag :=
  t.nodes.filterMap fun
    | (_, .element tag _) => some tag
    | _ => none

end Template
end Stencil.Markup
