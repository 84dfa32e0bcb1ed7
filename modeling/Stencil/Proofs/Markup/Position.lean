/-
  Stencil/Proofs/Markup/Position.lean
  ===================================
  **Walks over a tree visit every node once, in document order.**

  A node of a literal is told by its *address*, the numbers of the children on the way down
  to it.  Two nodes may be equal and stand at different addresses.  Document order is the
  lexicographic order of addresses: a node comes before what is below it, and what is
  below a child before the next child.  `Template.Lists` says of a list of nodes with their
  addresses that it has all of them, in this order, so none twice.

  There are three walks over a tree.  Two of them have nodes on their stack, and one has
  nodes with their depth (`deeper`).  All three visit the nodes of that list in its order,
  and the depth of a node is the length of its address.
-/
import Stencil.Markup.Outline
import Stencil.Proofs.Walk.Loop

namespace Stencil.Markup

open Stencil.Walk

/-! ### Addresses -/

namespace Node

/-- The node at an address below a node. -/
def at? : Node → List Nat → Option Node
  | n, [] => some n
  | n, i :: p => n.children[i]?.bind fun c => c.at? p

/-- What an element is, with its children. -/
def element? : Node → Option (Tag × List Node)
  | element tag children => some (tag, children)
  | _ => none

/-- All nodes of a tree with their addresses, a node before its children. -/
def places : Node → List (List Nat × Node)
  | text value => [([], text value)]
  | hole i => [([], hole i)]
  | element tag children => ([], element tag children) :: placesFrom 0 children
where
  /-- The nodes of several trees, which are numbered from `i` on. -/
  placesFrom (i : Nat) : List Node → List (List Nat × Node)
    | [] => []
    | n :: ns => n.places.map (fun e => (i :: e.1, e.2)) ++ placesFrom (i + 1) ns

theorem places_eq (n : Node) : n.places = ([], n) :: places.placesFrom 0 n.children := by
  cases n <;> rfl

/-- The nodes of several trees are those of each, under its number. -/
theorem mem_placesFrom {i : Nat} {ns : List Node} {p : List Nat} {m : Node} :
    (p, m) ∈ places.placesFrom i ns ↔
      ∃ j c q, p = (i + j) :: q ∧ ns[j]? = some c ∧ (q, m) ∈ c.places := by
  induction ns generalizing i with
  | nil => simp [places.placesFrom]
  | cons n ns ih =>
    rw [places.placesFrom, List.mem_append, List.mem_map, ih]
    constructor
    · rintro (⟨⟨q, m⟩, hq, heq⟩ | ⟨j, c, q, rfl, hc, hq⟩)
      · cases heq
        exact ⟨0, n, q, rfl, rfl, hq⟩
      · exact ⟨j + 1, c, q, by rw [Nat.add_right_comm, Nat.add_assoc], hc, hq⟩
    · rintro ⟨j, c, q, rfl, hc, hq⟩
      cases j with
      | zero =>
        cases hc
        exact Or.inl ⟨(q, m), hq, rfl⟩
      | succ j => exact Or.inr ⟨j, c, q, by rw [Nat.add_right_comm, Nat.add_assoc], hc, hq⟩

/-- The nodes listed under an address are those that stand there. -/
theorem mem_places {n m : Node} {p : List Nat} : (p, m) ∈ n.places ↔ n.at? p = some m := by
  induction p generalizing n with
  | nil =>
    rw [places_eq, List.mem_cons, mem_placesFrom, at?]
    simp [eq_comm]
  | cons i p ih =>
    rw [places_eq, List.mem_cons, mem_placesFrom, at?, Option.bind_eq_some_iff]
    constructor
    · rintro (heq | ⟨j, c, q, heq, hc, hq⟩)
      · cases heq
      · rw [Nat.zero_add] at heq
        cases heq
        exact ⟨c, hc, ih.mp hq⟩
    · rintro ⟨c, hc, hp⟩
      exact Or.inr ⟨i, c, p, by rw [Nat.zero_add], hc, ih.mpr hp⟩

mutual

/-- The addresses in a tree grow along the list. -/
theorem ordered_places : ∀ n : Node, n.places.Pairwise fun e e' => e.1 < e'.1
  | .text _ => List.pairwise_singleton ..
  | .hole _ => List.pairwise_singleton ..
  | .element tag children => by
    refine List.pairwise_cons.mpr ⟨?_, ordered_placesFrom 0 children⟩
    rintro ⟨p, m⟩ hmem
    obtain ⟨j, c, q, rfl, -, -⟩ := mem_placesFrom.mp hmem
    exact List.nil_lt_cons ..

theorem ordered_placesFrom (i : Nat) : ∀ ns : List Node,
    (places.placesFrom i ns).Pairwise fun e e' => e.1 < e'.1
  | [] => .nil
  | n :: ns => by
    refine List.pairwise_append.mpr ⟨?_, ordered_placesFrom (i + 1) ns, ?_⟩
    · refine List.pairwise_map.mpr ((ordered_places n).imp fun hlt => ?_)
      exact List.cons_lt_cons_iff.mpr (Or.inr ⟨rfl, hlt⟩)
    · -- the first tree has a smaller number than the others
      rintro e he ⟨p, m⟩ hmem
      obtain ⟨e, -, rfl⟩ := List.mem_map.mp he
      obtain ⟨j, c, q, rfl, -, -⟩ := mem_placesFrom.mp hmem
      exact List.cons_lt_cons_iff.mpr (Or.inl (by omega))

end

mutual

/-- The depth of a node is one for each step on the way down to it. -/
theorem preorder_places (depth : Nat) : ∀ n : Node,
    n.preorder depth = n.places.map fun e => (depth + e.1.length, e.2)
  | .text _ => rfl
  | .hole _ => rfl
  | .element tag children => by
    rw [preorder, places, List.map_cons, preorderAll_placesFrom depth 0 children]
    rfl

theorem preorderAll_placesFrom (depth i : Nat) : ∀ ns : List Node,
    preorder.preorderAll (depth + 1) ns =
      (places.placesFrom i ns).map fun e => (depth + e.1.length, e.2)
  | [] => rfl
  | n :: ns => by
    rw [preorder.preorderAll, places.placesFrom, List.map_append, List.map_map,
      preorder_places (depth + 1) n, preorderAll_placesFrom depth (i + 1) ns]
    congr 2
    funext e
    simp only [Function.comp_apply, List.length_cons]
    rw [Nat.add_right_comm, Nat.add_assoc]

end

end Node

/-! ### The nodes of a literal -/

namespace Template

/-- The node of a literal at an address; no node has the empty one. -/
def at? (t : Template) : List Nat → Option Node
  | [] => none
  | i :: p => t.children[i]?.bind fun c => c.at? p

/-- `t.Lists l`: in document order, `l` has every node of the literal with its address, once. -/
structure Lists (t : Template) (l : List (List Nat × Node)) : Prop where
  complete : ∀ p n, (p, n) ∈ l ↔ t.at? p = some n
  ordered : l.Pairwise fun e e' => e.1 < e'.1

/-- All nodes of a literal with their addresses. -/
def places (t : Template) : List (List Nat × Node) := Node.places.placesFrom 0 t.children

theorem lists_places (t : Template) : t.Lists t.places where
  complete p n := by
    rw [places, Node.mem_placesFrom]
    cases p with
    | nil => simp [at?]
    | cons i p =>
      rw [at?, Option.bind_eq_some_iff]
      constructor
      · rintro ⟨j, c, q, heq, hc, hq⟩
        rw [Nat.zero_add] at heq
        cases heq
        exact ⟨c, hc, Node.mem_places.mp hq⟩
      · rintro ⟨c, hc, hp⟩
        exact ⟨i, c, p, by rw [Nat.zero_add], hc, Node.mem_places.mpr hp⟩
  ordered := Node.ordered_placesFrom 0 t.children

/-- The nodes with their depths, by recursion over the trees. -/
theorem preorderAll_places (t : Template) :
    Node.preorder.preorderAll 1 t.children = t.places.map fun e => (e.1.length, e.2) := by
  rw [Node.preorderAll_placesFrom 0 0, places]
  simp only [Nat.zero_add]

/-! ### The walks -/

/-- What a walk that knows the depth puts on its stack for a node. -/
def deeper (e : Nat × Node) : List (Nat × Node) := e.2.children.map (e.1 + 1, ·)

theorem visits_walk (stack : List (Nat × Node)) : Visits deeper stack (walk stack) := by
  fun_induction walk stack with
  | case1 => exact .done
  | case2 depth n stack ih => exact .step ih

/-- A walk with depths on its stack visits all nodes in document order; the depth is the
    length of the address. -/
theorem visits_deeper (t : Template) :
    Visits deeper (t.children.map (1, ·)) (t.places.map fun e => (e.1.length, e.2)) := by
  have h := visits_walk (t.children.map (1, ·))
  rwa [walk_eq, List.flatMap_map, ← Node.preorderAll_eq, preorderAll_places] at h

/-- A walk with nodes on its stack visits all nodes in document order. -/
theorem visits_children (t : Template) : Visits Node.children t.children (t.places.map (·.2)) := by
  have hnodes (k : Nat) (ns : List Node) : (ns.map (k, ·)).map (·.2) = ns := by
    rw [List.map_map]
    exact List.map_id ns
  have hnext (e : Nat × Node) : e.2.children = (deeper e).map (·.2) := (hnodes _ _).symm
  have h := t.visits_deeper.along hnext fun n => [n]
  rwa [hnodes, List.flatMap_map, ← List.map_eq_flatMap] at h

/-- The walk that counts depths from zero lists the same nodes. -/
theorem nodes_places (t : Template) :
    t.nodes.map (fun e => (e.1 + 1, e.2)) = t.places.map fun e => (e.1.length, e.2) := by
  have hdepth (k : Nat) (ns : List Node) :
      (ns.map (k, ·)).map (fun e => (e.1 + 1, e.2)) = ns.map (k + 1, ·) := by
    rw [List.map_map]
    rfl
  have hnext (e : Nat × Node) :
      deeper (e.1 + 1, e.2) = (deeper e).map fun e => (e.1 + 1, e.2) := (hdepth _ _).symm
  have h := (visits_walk (t.children.map (0, ·))).along hnext fun e => [e]
  rw [hdepth, ← List.map_eq_flatMap] at h
  exact t.visits_deeper.unique h

theorem map_snd_nodes (t : Template) : t.nodes.map (·.2) = t.places.map (·.2) := by
  have h := congrArg (List.map (·.2)) t.nodes_places
  rwa [List.map_map, List.map_map] at h

/-! ### What the walks give -/

/-- The walk that calls something for each element. -/
theorem loop_elements (t : Template) :
    Loop Node.children (fun n => n.element?.toList) t.children
      (t.places.filterMap fun e => e.2.element?) := by
  have h := t.visits_children.loop fun n => n.element?.toList
  rwa [List.flatMap_map, ← List.filterMap_eq_flatMap_toList] at h

theorem tags_places (t : Template) :
    t.tags = (t.places.filterMap fun e => e.2.element?).map (·.1) := by
  have htags : t.tags = (t.nodes.map (·.2)).filterMap fun n => n.element?.map (·.1) := by
    rw [tags, List.filterMap_map]
    congr 1
    funext ⟨depth, n⟩
    cases n <;> rfl
  rw [htags, t.map_snd_nodes, List.filterMap_map, List.map_filterMap]
  rfl

/-- The walk that lists the holes. -/
theorem loop_holes (t : Template) :
    Loop Node.children Node.ownHoles t.children (t.places.flatMap fun e => e.2.ownHoles) := by
  have h := t.visits_children.loop Node.ownHoles
  rwa [List.flatMap_map] at h

theorem holes_places (t : Template) : t.holes = t.places.flatMap fun e => e.2.ownHoles := by
  have h := congrArg (List.flatMap Node.ownHoles) t.map_snd_nodes
  rwa [List.flatMap_map, List.flatMap_map] at h

/-- The line of a node in the outline, indented by two blanks for each level. -/
def outlineLine (e : Nat × Node) : String :=
  String.ofList (List.replicate (2 * e.1) ' ') ++ e.2.outline

/-- The walk that writes the outline. -/
theorem loop_outline (t : Template) :
    Loop deeper (fun e => [outlineLine e]) (t.children.map (1, ·))
      (t.places.map fun e => outlineLine (e.1.length, e.2)) := by
  have h := t.visits_deeper.loop fun e => [outlineLine e]
  rwa [List.flatMap_map, ← List.map_eq_flatMap] at h

theorem outline_places (t : Template) :
    t.outline = ("#root slots=" ++ toString t.slotCount) ::
      t.places.map fun e => outlineLine (e.1.length, e.2) := by
  have h := congrArg (List.map outlineLine) t.nodes_places
  rw [List.map_map, List.map_map] at h
  rw [outline]
  exact congrArg _ h

end Template

end Stencil.Markup
