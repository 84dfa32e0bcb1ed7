/-
  Stencil/Proofs/Document/Course.lean
  ===================================
  **The loops over a document come to an end.**

  Climbing to the root, writing a subtree, walking over it and copying it are loops that
  stop by themselves only where parents and children have no cycle.  The functions of
  `Document.Forest` and `Document.Walk` count their steps and would break off.  Here each
  loop is said once more, as a relation without a count: `Climbs`, `Writes`, `Walks` and
  `Copies` hold of a start and a result if the loop, left to itself, gets from the one to
  the other in finitely many steps.

  In a forest each loop has such a run, from every node, and its result is what the
  counting function gives.
-/
import Stencil.Proofs.Document.Copy

namespace Stencil.Document

variable {π η : Type} {d d' : Document π η}

open Plant

/-! ### Climbing -/

/-- `Climbs d x l`: from `x`, following parents passes the nodes `l` and ends at a root. -/
inductive Climbs (d : Document π η) : NodeId → List NodeId → Prop where
  | root {x : NodeId} (h : d.parent? x = none) : Climbs d x [x]
  | up {x p : NodeId} {l : List NodeId} (h : d.parent? x = some p) (hp : Climbs d p l) :
      Climbs d x (x :: l)

/-- A lineage that is shorter than its bound has ended at a root. -/
theorem climbs_of_length_lt {n : Nat} {x : NodeId} (h : (d.lineageUpTo n x).length < n) :
    d.Climbs x (d.lineageUpTo n x) := by
  induction n generalizing x with
  | zero => cases h
  | succ n ih =>
    rw [lineageUpTo] at h ⊢
    cases hp : d.parent? x with
    | none => exact .root hp
    | some p =>
      rw [hp] at h
      exact .up hp (ih (Nat.lt_of_succ_lt_succ h))

theorem IsForest.climbs (h : d.IsForest) {x : NodeId} (hx : x < d.size) :
    d.Climbs x (d.lineage x) :=
  climbs_of_length_lt (Nat.lt_succ_of_le (h.length_lineage_le hx))

/-! ### Walking -/

/-- `Walks d stack l`: the walk that has the nodes `stack` still to visit visits `l`. -/
inductive Walks (d : Document π η) : List NodeId → List NodeId → Prop where
  | nil : Walks d [] []
  | node {id : NodeId} {stack l : List NodeId} (h : Walks d (d.children id ++ stack) l) :
      Walks d (id :: stack) (id :: l)

theorem AllStand.walks {parent : Option NodeId} {ts : List (Plant π η)}
    (h : d.AllStand parent ts) {stack l : List NodeId} (hl : d.Walks stack l) :
    d.Walks (roots ts ++ stack) (idsAll ts ++ l) := by
  induction ts using Plant.induct generalizing parent stack l with
  | nil => exact hl
  | cons id c cs ts ihc iht =>
    obtain ⟨⟨hnode, hcs⟩, hts⟩ := h
    have hchildren : d.children id = roots cs := children_of_node? hnode
    have hbelow := ihc hcs (iht hts hl)
    rw [← hchildren] at hbelow
    have hstep := Walks.node hbelow
    simpa only [roots, List.map_cons, Plant.root, idsAll, ids, List.cons_append,
      List.append_assoc] using hstep

theorem Stands.walks {parent : Option NodeId} {t : Plant π η} (h : d.Stands parent t) :
    d.Walks [t.root] t.ids := by
  have hwalks := h.alone.walks .nil
  simpa using hwalks

theorem IsForest.walks (h : d.IsForest) {x : NodeId} (hx : x < d.size) :
    d.Walks [x] (d.subtree x) := by
  obtain ⟨t, rfl, ht⟩ := h.exists_stands hx
  rw [ht.subtree_eq h]
  exact ht.walks

/-! ### Writing -/

/-- `Writes d stack s`: what is left to write, `stack`, is written as `s`. -/
inductive Writes (d : Document π η) : List Pending → String → Prop where
  | nil : Writes d [] ""
  | close {name : String} {stack : List Pending} {s : String} (h : Writes d stack s) :
      Writes d (.close name :: stack) (closeTag name ++ s)
  | node {id : NodeId} {stack : List Pending} {s : String}
      (h : Writes d ((d.writeNode id).2 ++ stack) s) :
      Writes d (.node id :: stack) ((d.writeNode id).1 ++ s)

theorem AllStand.writes {parent : Option NodeId} {ts : List (Plant π η)}
    (h : d.AllStand parent ts) {stack : List Pending} {s : String} (hs : d.Writes stack s) :
    d.Writes ((roots ts).map .node ++ stack)
      (Tree.html.htmlAll (parent.bind d.name?) (trees ts) ++ s) := by
  induction ts using Plant.induct generalizing parent stack s with
  | nil => simpa [trees, Tree.html.htmlAll] using hs
  | cons id c cs ts ihc iht =>
    obtain ⟨⟨hnode, hcs⟩, hts⟩ := h
    have hrest := iht hts hs
    have hname := name?_of_node? hnode
    have hstep {s' : String} (hs' : d.Writes
        ((d.writeNode id).2 ++ ((roots ts).map .node ++ stack)) s') :
        d.Writes ((roots (node id c cs :: ts)).map .node ++ stack) ((d.writeNode id).1 ++ s') :=
      .node hs'
    rw [trees, Tree.html.htmlAll, String.append_assoc]
    cases c with
    | text value =>
      have hnode' : d.writeNode id = (textHtml (parent.bind d.name?) value, []) := by
        rw [writeNode, hnode]
      rw [hnode'] at hstep
      simpa only [Plant.tree, Tree.html] using hstep hrest
    | comment value =>
      have hnode' : d.writeNode id = (commentHtml value, []) := by rw [writeNode, hnode]
      rw [hnode'] at hstep
      simpa only [Plant.tree, Tree.html] using hstep hrest
    | fragment =>
      have hnode' : d.writeNode id = ("", (roots cs).map .node) := by rw [writeNode, hnode]
      rw [hnode'] at hstep
      simpa only [Plant.tree, Tree.html, hname, Option.bind_some, String.empty_append] using
        hstep (ihc hcs hrest)
    | element e =>
      by_cases hvoid : unclosedElements.contains e.name = true
      · have hnode' : d.writeNode id = (startTag e.name e.attributes, []) := by
          rw [writeNode, hnode]
          simp only [hvoid, if_true]
        rw [hnode'] at hstep
        simpa only [Plant.tree, Tree.html, hvoid, if_true, String.append_empty] using hstep hrest
      · have hnode' : d.writeNode id =
            (startTag e.name e.attributes, (roots cs).map .node ++ [.close e.name]) := by
          rw [writeNode, hnode]
          simp only [hvoid, Bool.false_eq_true, if_false]
        rw [hnode', List.append_assoc] at hstep
        simpa only [Plant.tree, Tree.html, hvoid, Bool.false_eq_true, if_false, hname,
          Option.bind_some, String.append_assoc] using
          hstep (ihc hcs (.close hrest))

theorem Stands.writes {parent : Option NodeId} {t : Plant π η} (h : d.Stands parent t) :
    d.Writes [.node t.root] (t.tree.html (parent.bind d.name?)) := by
  have hwrites := h.alone.writes .nil
  simpa [trees, Tree.html.htmlAll] using hwrites

theorem IsForest.writes (h : d.IsForest) {x : NodeId} (hx : x < d.size) :
    d.Writes [.node x] (d.toHtml x) := by
  obtain ⟨t, rfl, ht⟩ := h.exists_stands hx
  rw [ht.toHtml_eq h]
  exact ht.writes

/-! ### Copying -/

/-- The copy of a node put under the copy of its parent, behind those that are there. -/
def link (d : Document π η) (top c : NodeId) : Document π η :=
  (d.update c fun m => { m with parent := some top }).update top fun m =>
    { m with children := m.children ++ [c] }

theorem node?_link {top c x : NodeId} (hc : x ≠ c) (htop : x ≠ top) :
    (d.link top c).node? x = d.node? x := by
  rw [link, node?_update, if_neg (Ne.symm htop), node?_update, if_neg (Ne.symm hc)]

@[simp] theorem size_link (top c : NodeId) : (d.link top c).size = d.size := by
  rw [link, size_update, size_update]

mutual

/-- `Copies d id c d'`: copying the node `id` makes the node `c`, and the document is `d'`
    then. -/
inductive Copies : Document π η → NodeId → NodeId → Document π η → Prop where
  | node {d d' : Document π η} {id : NodeId} {data : NodeData π η} (h : d.node? id = some data)
      (hs : CopiesAll (d.create data.content.copy).2 d.size data.children d') :
      Copies d id d.size d'

/-- `CopiesAll d top ids d'`: the nodes `ids` are copied one after the other, and their copies
    are put under `top`. -/
inductive CopiesAll : Document π η → NodeId → List NodeId → Document π η → Prop where
  | nil {d : Document π η} {top : NodeId} : CopiesAll d top [] d
  | cons {d d₁ d₂ : Document π η} {top id c : NodeId} {ids : List NodeId} (h : Copies d id c d₁)
      (hs : CopiesAll (d₁.link top c) top ids d₂) : CopiesAll d top (id :: ids) d₂

end

/-- One child copied, down to `n` levels. -/
def copyChild (n : Nat) (top : NodeId) (d : Document π η) (id : NodeId) : Document π η :=
  (copyUpTo n d id).2.link top (copyUpTo n d id).1

theorem copyUpTo_succ {id : NodeId} {data : NodeData π η} (h : d.node? id = some data) (n : Nat) :
    copyUpTo (n + 1) d id =
      (d.size, data.children.foldl (copyChild n d.size) (d.create data.content.copy).2) := by
  rw [copyUpTo, h]
  rfl

/-- A copy is the next node, and copying changes no node that was there. -/
theorem copyUpTo_keeps (n : Nat) (d : Document π η) (id : NodeId) :
    (copyUpTo n d id).1 = d.size ∧ d.size ≤ (copyUpTo n d id).2.size ∧
      ∀ x < d.size, (copyUpTo n d id).2.node? x = d.node? x := by
  induction n generalizing d id with
  | zero => exact ⟨rfl, Nat.le_refl _, fun _ _ => rfl⟩
  | succ n ih =>
    cases h : d.node? id with
    | none =>
      have hnone : copyUpTo (n + 1) d id = (d.size, d) := by rw [copyUpTo, h]
      rw [hnone]
      exact ⟨rfl, Nat.le_refl _, fun _ _ => rfl⟩
    | some data =>
      rw [copyUpTo_succ h]
      -- children are copied behind the nodes below `m`, and linked to one of those behind
      have hfold (m top : Nat) (htop : m ≤ top) (cs : List NodeId) (e : Document π η)
          (hm : m ≤ e.size) : m ≤ (cs.foldl (copyChild n top) e).size ∧
            ∀ x < m, (cs.foldl (copyChild n top) e).node? x = e.node? x := by
        induction cs generalizing e with
        | nil => exact ⟨hm, fun _ _ => rfl⟩
        | cons c cs ihcs =>
          obtain ⟨hid, hsize, hkeep⟩ := ih e c
          obtain ⟨hsize', hkeep'⟩ :=
            ihcs (copyChild n top e c) (by rw [copyChild, size_link]; omega)
          refine ⟨hsize', fun x hx => ?_⟩
          have hxe : x < e.size := Nat.lt_of_lt_of_le hx hm
          have hxtop : x < top := Nat.lt_of_lt_of_le hx htop
          rw [List.foldl_cons, hkeep' x hx, copyChild, hid,
            node?_link (Nat.ne_of_lt hxe) (Nat.ne_of_lt hxtop), hkeep x hxe]
      obtain ⟨hsize, hkeep⟩ := hfold d.size d.size (Nat.le_refl _) data.children
        (d.create data.content.copy).2 (by rw [size_create]; omega)
      refine ⟨rfl, hsize, fun x hx => ?_⟩
      rw [hkeep x hx, node?_create, if_neg (Nat.ne_of_lt hx)]

theorem AllStand.copiesAll {parent : Option NodeId} {ts : List (Plant π η)} {top n : Nat}
    (h : d.AllStand parent ts) (hn : (idsAll ts).length ≤ n) (htop : top ∉ idsAll ts) :
    CopiesAll d top (roots ts) ((roots ts).foldl (copyChild n top) d) := by
  induction ts using Plant.induct generalizing d parent top n with
  | nil => exact .nil
  | cons id c cs ts ihc iht =>
    have hlt {x : Nat} (hx : x ∈ idsAll (node id c cs :: ts)) := h.lt_size hx
    obtain ⟨⟨hnode, hcs⟩, hts⟩ := h
    simp only [idsAll, ids, List.cons_append, List.length_cons, List.length_append,
      List.mem_cons, List.mem_append, not_or] at hn htop hlt
    obtain ⟨m, rfl⟩ : ∃ m, n = m + 1 := ⟨n - 1, by omega⟩
    obtain ⟨hid, -, hkeep⟩ := copyUpTo_keeps (m + 1) d id
    have hcs' : (d.create c.copy).2.AllStand (some id) cs := hcs.congr fun x hx => by
      rw [node?_create, if_neg (Nat.ne_of_lt (hlt (Or.inr (Or.inl hx))))]
    have hts' : (copyChild (m + 1) top d id).AllStand parent ts := hts.congr fun x hx => by
      have hx' : x < d.size := hlt (Or.inr (Or.inr hx))
      have hxtop : x ≠ top := fun heq => htop.2.2 (heq ▸ hx)
      rw [copyChild, hid, node?_link (Nat.ne_of_lt hx') hxtop, hkeep x hx']
    have hbelow : CopiesAll (d.create c.copy).2 d.size (roots cs)
        ((roots cs).foldl (copyChild m d.size) (d.create c.copy).2) :=
      ihc hcs' (by omega) fun hx => Nat.lt_irrefl _ (hlt (Or.inr (Or.inl hx)))
    have hcopy : Copies d id (copyUpTo (m + 1) d id).1 (copyUpTo (m + 1) d id).2 := by
      rw [copyUpTo_succ hnode]
      exact .node hnode hbelow
    exact .cons hcopy (iht hts' (by omega) htop.2.2)

theorem IsForest.copies (h : d.IsForest) {x : NodeId} (hx : x < d.size) :
    Copies d x (d.copy x).1 (d.copy x).2 := by
  obtain ⟨⟨id, c, cs⟩, rfl, ht⟩ := h.exists_stands hx
  have hlen := ht.length_ids_le h
  obtain ⟨hnode, hcs⟩ := ht
  rw [ids, List.length_cons] at hlen
  have hlt {y : Nat} (hy : y ∈ idsAll cs) : y < d.size := hcs.lt_size hy
  have hcs' : (d.create c.copy).2.AllStand (some id) cs := hcs.congr fun y hy => by
    rw [node?_create, if_neg (Nat.ne_of_lt (hlt hy))]
  rw [Document.copy, Plant.root, copyUpTo_succ hnode]
  exact .node hnode
    (hcs'.copiesAll (by omega) fun hy => Nat.lt_irrefl _ (hlt hy))

end Stencil.Document
