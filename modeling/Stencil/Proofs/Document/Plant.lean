/-
  Stencil/Proofs/Document/Plant.lean
  ==================================
  **Subtrees of a document as values that know their numbers.**

  A *plant* is a subtree with the number of every node in it.  `Stands d parent t` says
  that the document `d` holds exactly this subtree, under the given parent.  A document
  changes under a program node by node, and what a program does to a region is most
  easily said as: these plants stood there, and now those do.

  Two facts carry everything else.  Standing looks at the nodes of the plant and at no
  other (`AllStand.congr`), and in a forest the numbers of plants that stand under one
  parent are all different (`AllStand.nodup_ids`).  So a document with the plant `t`
  has the tree of `t` (`Stands.tree_eq`), its numbers in document order
  (`Stands.subtree_eq`) and its written form (`Stands.toHtml_eq`): the bounds on the
  walks of `Document.Walk` are never reached.
-/
import Stencil.Document.Tree
import Stencil.Proofs.Document.Forest

namespace Stencil.Document

/-- A subtree with the numbers of its nodes. -/
inductive Plant (π η : Type) where
  | node (id : NodeId) (content : Content π η) (children : List (Plant π η))

variable {π η : Type} {d d' : Document π η}

namespace Plant

/-- The number of the topmost node. -/
def root : Plant π η → NodeId
  | node id _ _ => id

/-- A node without children. -/
def leaf (id : NodeId) (content : Content π η) : Plant π η := node id content []

mutual

/-- The numbers of a plant in document order. -/
def ids : Plant π η → List NodeId
  | node id _ cs => id :: idsAll cs

/-- The numbers of several plants. -/
def idsAll : List (Plant π η) → List NodeId
  | [] => []
  | t :: ts => t.ids ++ idsAll ts

end

mutual

/-- A plant without its numbers. -/
def tree : Plant π η → Tree
  | node _ (.element e) cs => .element e.name e.space e.attributes (trees cs)
  | node _ (.text value) _ => .text value
  | node _ (.comment value) _ => .comment value
  | node _ .fragment cs => .fragment (trees cs)

/-- Plants without their numbers. -/
def trees : List (Plant π η) → List Tree
  | [] => []
  | t :: ts => t.tree :: trees ts

end

/-- The topmost nodes of several plants. -/
abbrev roots (ts : List (Plant π η)) : List NodeId := ts.map root

/-- Induction over several plants at once: over what stands below the first of them, and
    over the others. -/
@[elab_as_elim]
theorem induct {P : List (Plant π η) → Prop} (nil : P [])
    (cons : ∀ id c cs ts, P cs → P ts → P (node id c cs :: ts)) : ∀ ts, P ts
  | [] => nil
  | node id c cs :: ts => cons id c cs ts (induct nil cons cs) (induct nil cons ts)

end Plant

open Plant

mutual

/-- `Stands d parent t`: the document holds the plant `t` under `parent`. -/
def Stands (d : Document π η) (parent : Option NodeId) : Plant π η → Prop
  | node id c cs => d.node? id = some ⟨c, parent, roots cs⟩ ∧ AllStand d (some id) cs

/-- The document holds all these plants under `parent`. -/
def AllStand (d : Document π η) (parent : Option NodeId) : List (Plant π η) → Prop
  | [] => True
  | t :: ts => Stands d parent t ∧ AllStand d parent ts

end

theorem allStand_iff {parent : Option NodeId} {ts : List (Plant π η)} :
    d.AllStand parent ts ↔ ∀ t ∈ ts, d.Stands parent t := by
  induction ts with
  | nil => simp [AllStand]
  | cons t ts ih => simp [AllStand, ih]

theorem allStand_append {parent : Option NodeId} {ts us : List (Plant π η)} :
    d.AllStand parent (ts ++ us) ↔ d.AllStand parent ts ∧ d.AllStand parent us := by
  simp only [allStand_iff, List.mem_append]
  constructor
  · intro h
    exact ⟨fun t ht => h t (Or.inl ht), fun t ht => h t (Or.inr ht)⟩
  · rintro ⟨ht, hu⟩ t (h | h)
    · exact ht t h
    · exact hu t h

theorem Stands.node?_eq {parent : Option NodeId} {id : NodeId} {c : Content π η}
    {cs : List (Plant π η)} (h : d.Stands parent (node id c cs)) :
    d.node? id = some ⟨c, parent, roots cs⟩ := h.1

theorem Stands.below {parent : Option NodeId} {id : NodeId} {c : Content π η}
    {cs : List (Plant π η)} (h : d.Stands parent (node id c cs)) : d.AllStand (some id) cs := h.2

theorem Stands.parent?_eq {parent : Option NodeId} {t : Plant π η} (h : d.Stands parent t) :
    d.parent? t.root = parent := by
  cases t
  rw [Plant.root, parent?_of_node? h.node?_eq]

theorem stands_leaf {parent : Option NodeId} {id : NodeId} {c : Content π η} :
    d.Stands parent (leaf id c) ↔ d.node? id = some ⟨c, parent, []⟩ := by
  simp [leaf, Stands, AllStand]

namespace Plant

theorem idsAll_append (ts us : List (Plant π η)) : idsAll (ts ++ us) = idsAll ts ++ idsAll us := by
  induction ts with
  | nil => rfl
  | cons t ts ih => rw [List.cons_append, idsAll, idsAll, ih, List.append_assoc]

@[simp] theorem idsAll_single (t : Plant π η) : idsAll [t] = t.ids := by
  rw [idsAll, idsAll, List.append_nil]

theorem trees_eq_map (ts : List (Plant π η)) : trees ts = ts.map tree := by
  induction ts with
  | nil => rfl
  | cons t ts ih => rw [trees, ih, List.map_cons]

theorem root_mem_ids (t : Plant π η) : t.root ∈ t.ids := by
  cases t
  exact List.mem_cons_self

theorem mem_idsAll {ts : List (Plant π η)} {x : NodeId} :
    x ∈ idsAll ts ↔ ∃ t ∈ ts, x ∈ t.ids := by
  induction ts with
  | nil => simp [idsAll]
  | cons t ts ih => simp [idsAll, ih]

theorem root_mem_idsAll {ts : List (Plant π η)} {x : NodeId} (h : x ∈ roots ts) :
    x ∈ idsAll ts := by
  obtain ⟨t, ht, rfl⟩ := List.mem_map.mp h
  exact mem_idsAll.mpr ⟨t, ht, t.root_mem_ids⟩

theorem nodup_roots {ts : List (Plant π η)} (h : (idsAll ts).Nodup) : (roots ts).Nodup := by
  induction ts with
  | nil => exact List.nodup_nil
  | cons t ts ih =>
    obtain ⟨-, hts, hapart⟩ := List.nodup_append.mp h
    refine List.nodup_cons.mpr ⟨fun hmem => ?_, ih hts⟩
    exact hapart _ t.root_mem_ids _ (root_mem_idsAll hmem) rfl

example :
    idsAll [node 0 .fragment [leaf 2 (.text "a")], (leaf 1 (.comment "b") : Plant Unit Unit)] =
    [0, 2, 1] := by
  decide +kernel

end Plant

namespace AllStand

variable {parent : Option NodeId} {ts : List (Plant π η)}

/-- Whether plants stand depends on their own nodes only. -/
theorem congr (h : d.AllStand parent ts) (hsame : ∀ x ∈ idsAll ts, d'.node? x = d.node? x) :
    d'.AllStand parent ts := by
  induction ts using Plant.induct generalizing parent with
  | nil => exact trivial
  | cons id c cs ts ihc iht =>
    obtain ⟨⟨hnode, hcs⟩, hts⟩ := h
    have hbelow : ∀ x ∈ idsAll cs, d'.node? x = d.node? x := fun x hx =>
      hsame x (List.mem_append_left _ (List.mem_cons_of_mem _ hx))
    have hside : ∀ x ∈ idsAll ts, d'.node? x = d.node? x := fun x hx =>
      hsame x (List.mem_append_right _ hx)
    have hself : d'.node? id = d.node? id :=
      hsame id (List.mem_append_left _ List.mem_cons_self)
    exact ⟨⟨hself.trans hnode, ihc hcs hbelow⟩, iht hts hside⟩

theorem lt_size (h : d.AllStand parent ts) {x : Nat} (hx : x ∈ idsAll ts) : x < d.size := by
  induction ts using Plant.induct generalizing parent with
  | nil => simp [idsAll] at hx
  | cons id c cs ts ihc iht =>
    obtain ⟨⟨hnode, hcs⟩, hts⟩ := h
    rcases List.mem_append.mp hx with hx | hx
    · rcases List.mem_cons.mp hx with rfl | hx
      · exact lt_size_of_node? hnode
      · exact ihc hcs hx
    · exact iht hts hx

theorem parent?_root (h : d.AllStand parent ts) {x : NodeId} (hx : x ∈ roots ts) :
    d.parent? x = parent := by
  obtain ⟨t, ht, rfl⟩ := List.mem_map.mp hx
  exact (allStand_iff.mp h t ht).parent?_eq

/-- Children of nodes of a plant are in the plant, and not on top. -/
theorem mem_of_child (h : d.AllStand parent ts) {x c : NodeId} (hx : x ∈ idsAll ts)
    (hc : c ∈ d.children x) : c ∈ idsAll ts := by
  induction ts using Plant.induct generalizing parent with
  | nil => simp [idsAll] at hx
  | cons id content cs ts ihc iht =>
    obtain ⟨⟨hnode, hcs⟩, hts⟩ := h
    rcases List.mem_append.mp hx with hx | hx
    · refine List.mem_append_left _ (List.mem_cons_of_mem _ ?_)
      rcases List.mem_cons.mp hx with rfl | hx
      · rw [children_of_node? hnode] at hc
        exact root_mem_idsAll hc
      · exact ihc hcs hx
    · exact List.mem_append_right _ (iht hts hx)

/-- Every node of a plant is at the top of one or below a top. -/
theorem below_root (h : d.AllStand parent ts) {x : NodeId} (hx : x ∈ idsAll ts) :
    ∃ r ∈ roots ts, d.AncestorOrSelf r x := by
  induction ts using Plant.induct generalizing parent with
  | nil => simp [idsAll] at hx
  | cons id content cs ts ihc iht =>
    obtain ⟨⟨hnode, hcs⟩, hts⟩ := h
    rcases List.mem_append.mp hx with hx | hx
    · refine ⟨id, List.mem_cons_self, ?_⟩
      rcases List.mem_cons.mp hx with rfl | hx
      · exact Or.inl rfl
      · obtain ⟨r, hr, hrx⟩ := ihc hcs hx
        have hid : d.Ancestor id r := .parent (parent?_root hcs hr)
        exact Or.inr (hid.trans_orSelf hrx)
    · obtain ⟨r, hr, hrx⟩ := iht hts hx
      exact ⟨r, List.mem_cons_of_mem _ hr, hrx⟩

/-- What is below a node of a plant is in the plant. -/
theorem mem_of_ancestor (h : d.AllStand parent ts) (hforest : d.IsForest) {x y : NodeId}
    (hx : x ∈ idsAll ts) (hxy : d.Ancestor x y) : y ∈ idsAll ts := by
  induction hxy with
  | parent hp => exact h.mem_of_child hx (hforest.mem_of_parent? hp)
  | step hp _ ih => exact h.mem_of_child ih (hforest.mem_of_parent? hp)

end AllStand

/-! ### A plant on its own -/

namespace Stands

variable {parent : Option NodeId} {t : Plant π η}

theorem alone (h : d.Stands parent t) : d.AllStand parent [t] := ⟨h, trivial⟩

theorem congr (h : d.Stands parent t) (hsame : ∀ x ∈ t.ids, d'.node? x = d.node? x) :
    d'.Stands parent t :=
  (h.alone.congr (by simpa using hsame)).1

theorem lt_size (h : d.Stands parent t) {x : Nat} (hx : x ∈ t.ids) : x < d.size :=
  h.alone.lt_size (by simpa using hx)

theorem below_root (h : d.Stands parent t) {x : NodeId} (hx : x ∈ t.ids) :
    d.AncestorOrSelf t.root x := by
  obtain ⟨r, hr, hrx⟩ := h.alone.below_root (by simpa using hx)
  obtain rfl : r = t.root := by simpa using hr
  exact hrx

theorem mem_of_ancestor (h : d.Stands parent t) (hforest : d.IsForest) {x y : NodeId}
    (hx : x ∈ t.ids) (hxy : d.Ancestor x y) : y ∈ t.ids := by
  have hmem := h.alone.mem_of_ancestor hforest (by simpa using hx) hxy
  simpa using hmem

end Stands

/-! ### All numbers are different -/

/-- In a forest the numbers of plants under one parent are different if those on top are. -/
theorem AllStand.nodup_ids {p : NodeId} {ts : List (Plant π η)} (h : d.AllStand (some p) ts)
    (hforest : d.IsForest) (hroots : (roots ts).Nodup) : (idsAll ts).Nodup := by
  induction ts using Plant.induct generalizing p with
  | nil => exact List.nodup_nil
  | cons id c cs ts ihc iht =>
    have hstand := h
    obtain ⟨⟨hnode, hcs⟩, hts⟩ := h
    obtain ⟨hid, hroots'⟩ := List.nodup_cons.mp hroots
    have hchildren : (roots cs).Nodup := by
      have := hforest.nodup_children id
      rwa [children_of_node? hnode] at this
    have hself : id ∉ idsAll cs := by
      intro hmem
      obtain ⟨r, hr, hrx⟩ := hcs.below_root hmem
      have hchild : d.Ancestor id r := .parent (hcs.parent?_root hr)
      exact hforest.irrefl id (hchild.trans_orSelf hrx)
    refine List.nodup_append.mpr
      ⟨List.nodup_cons.mpr ⟨hself, ihc hcs hchildren⟩, iht hts hroots', ?_⟩
    -- a node in both would be below two different children of `p`
    rintro x hx y hy rfl
    have hx' : d.AncestorOrSelf id x := Stands.below_root (t := node id c cs) hstand.1 hx
    obtain ⟨r, hr, hrx⟩ := hts.below_root hy
    have hpid : d.parent? id = some p := parent?_of_node? hnode
    have heq : id = r := hforest.siblings_apart hpid (hts.parent?_root hr) hx' hrx
    exact hid (heq ▸ hr)

/-- In a forest the numbers of a plant are different. -/
theorem Stands.nodup_ids {parent : Option NodeId} {t : Plant π η} (h : d.Stands parent t)
    (hforest : d.IsForest) : t.ids.Nodup := by
  obtain ⟨id, c, cs⟩ := t
  obtain ⟨hnode, hcs⟩ := h
  have hchildren : (roots cs).Nodup := by
    have := hforest.nodup_children id
    rwa [children_of_node? hnode] at this
  refine List.nodup_cons.mpr ⟨fun hmem => ?_, hcs.nodup_ids hforest hchildren⟩
  obtain ⟨r, hr, hrx⟩ := hcs.below_root hmem
  have hchild : d.Ancestor id r := .parent (hcs.parent?_root hr)
  exact hforest.irrefl id (hchild.trans_orSelf hrx)

/-- There are no more nodes in a plant than in the document. -/
theorem Stands.length_ids_le {parent : Option NodeId} {t : Plant π η} (h : d.Stands parent t)
    (hforest : d.IsForest) : t.ids.length ≤ d.size :=
  IsForest.length_le_of_nodup (h.nodup_ids hforest) fun _ hx => h.lt_size hx

/-! ### Reading a plant off the document -/

theorem AllStand.map_treeUpTo {parent : Option NodeId} {ts : List (Plant π η)}
    (h : d.AllStand parent ts) {n : Nat} (hn : (idsAll ts).length ≤ n) :
    (roots ts).map (d.treeUpTo n) = trees ts := by
  induction ts using Plant.induct generalizing parent n with
  | nil => rfl
  | cons id c cs ts ihc iht =>
    obtain ⟨⟨hnode, hcs⟩, hts⟩ := h
    simp only [idsAll, ids, List.cons_append, List.length_cons, List.length_append] at hn
    obtain ⟨m, rfl⟩ : ∃ m, n = m + 1 := ⟨n - 1, by omega⟩
    have hbelow : (roots cs).map (d.treeUpTo m) = trees cs := ihc hcs (by omega)
    have hside : (roots ts).map (d.treeUpTo (m + 1)) = trees ts := iht hts (by omega)
    have htop : d.treeUpTo (m + 1) id = (node id c cs).tree := by
      rw [treeUpTo, hnode]
      cases c <;> simp only [hbelow, Plant.tree]
    rw [trees, ← hside, ← htop]
    rfl

theorem Stands.tree_eq {parent : Option NodeId} {t : Plant π η} (h : d.Stands parent t)
    (hforest : d.IsForest) : d.tree t.root = t.tree := by
  have hlen : (idsAll [t]).length ≤ d.size + 1 := by
    rw [idsAll_single]
    exact Nat.le_succ_of_le (h.length_ids_le hforest)
  have heq := h.alone.map_treeUpTo hlen
  simpa [trees, Document.tree] using heq

theorem AllStand.map_tree {parent : Option NodeId} {ts : List (Plant π η)}
    (h : d.AllStand parent ts) (hforest : d.IsForest) : (roots ts).map d.tree = trees ts := by
  rw [trees_eq_map, List.map_map]
  exact List.map_congr_left fun t ht => (allStand_iff.mp h t ht).tree_eq hforest

theorem AllStand.walkAll_eq {parent : Option NodeId} {ts : List (Plant π η)}
    (h : d.AllStand parent ts) (n : Nat) (stack : List NodeId) :
    d.walkAll ((idsAll ts).length + n) (roots ts ++ stack) = idsAll ts ++ d.walkAll n stack := by
  induction ts using Plant.induct generalizing parent n stack with
  | nil => simp [idsAll]
  | cons id c cs ts ihc iht =>
    obtain ⟨⟨hnode, hcs⟩, hts⟩ := h
    have hlen : (idsAll (node id c cs :: ts)).length + n =
        ((idsAll cs).length + ((idsAll ts).length + n)) + 1 := by
      simp only [idsAll, ids, List.cons_append, List.length_cons, List.length_append]
      omega
    rw [hlen, roots, List.map_cons, List.cons_append, walkAll]
    · rw [Plant.root, children_of_node? hnode, ihc hcs, iht hts]
      simp [idsAll, ids]

/-- A subtree in document order. -/
theorem Stands.subtree_eq {parent : Option NodeId} {t : Plant π η} (h : d.Stands parent t)
    (hforest : d.IsForest) : d.subtree t.root = t.ids := by
  have hlen := h.length_ids_le hforest
  obtain ⟨k, hk⟩ : ∃ k, d.walkBound = (idsAll [t]).length + (k + 1) :=
    ⟨2 * d.size - t.ids.length, by rw [walkBound, idsAll_single]; omega⟩
  have heq := h.alone.walkAll_eq (k + 1) []
  rw [subtree, hk]
  simpa [walkAll] using heq

/-- The name of the element with a number, which decides how texts below it are written. -/
theorem name?_of_node? {x : NodeId} {n : NodeData π η} (h : d.node? x = some n) :
    d.name? x = match n.content with | .element e => some e.name | _ => none := by
  obtain ⟨c, p, cs⟩ := n
  cases c <;> simp [name?, element?, h]

theorem AllStand.writeAll_eq {parent : Option NodeId} {ts : List (Plant π η)}
    (h : d.AllStand parent ts) :
    ∃ k ≤ 2 * (idsAll ts).length, ∀ n stack,
      d.writeAll (k + n) ((roots ts).map .node ++ stack) =
        Tree.html.htmlAll (parent.bind d.name?) (trees ts) ++ d.writeAll n stack := by
  induction ts using Plant.induct generalizing parent with
  | nil => exact ⟨0, Nat.zero_le _, fun n stack => by simp [trees, Tree.html.htmlAll]⟩
  | cons id c cs ts ihc iht =>
    obtain ⟨⟨hnode, hcs⟩, hts⟩ := h
    obtain ⟨kt, hkt, ht⟩ := iht hts
    have hlen : (idsAll (node id c cs :: ts)).length =
        (idsAll cs).length + (idsAll ts).length + 1 := by
      simp only [idsAll, ids, List.cons_append, List.length_cons, List.length_append]
    have hname := name?_of_node? hnode
    -- one step writes the node and puts its children on the stack
    have hstep (k : Nat) (stack : List Pending) :
        d.writeAll (k + 1) ((roots (node id c cs :: ts)).map .node ++ stack) =
          (d.writeNode id).1 ++
            d.writeAll k ((d.writeNode id).2 ++ ((roots ts).map .node ++ stack)) := rfl
    cases c with
    | text value =>
      refine ⟨kt + 1, by omega, fun n stack => ?_⟩
      rw [Nat.add_right_comm, hstep, writeNode, hnode]
      simp only [List.nil_append, ht, trees, Plant.tree, Tree.html.htmlAll, Tree.html,
        String.append_assoc]
    | comment value =>
      refine ⟨kt + 1, by omega, fun n stack => ?_⟩
      rw [Nat.add_right_comm, hstep, writeNode, hnode]
      simp only [List.nil_append, ht, trees, Plant.tree, Tree.html.htmlAll, Tree.html,
        String.append_assoc]
    | fragment =>
      obtain ⟨kc, hkc, hc⟩ := ihc hcs
      refine ⟨kc + kt + 1, by omega, fun n stack => ?_⟩
      rw [Nat.add_right_comm, hstep, writeNode, hnode, Nat.add_assoc]
      simp only [hc, ht, trees, Plant.tree, Tree.html.htmlAll, Tree.html, String.append_assoc,
        Option.bind_some, hname, String.empty_append]
    | element e =>
      by_cases hvoid : unclosedElements.contains e.name = true
      · refine ⟨kt + 1, by omega, fun n stack => ?_⟩
        rw [Nat.add_right_comm, hstep, writeNode, hnode]
        simp only [hvoid, if_true, List.nil_append, ht, trees, Plant.tree, Tree.html.htmlAll,
          Tree.html, String.append_assoc, String.append_empty]
      · obtain ⟨kc, hkc, hc⟩ := ihc hcs
        refine ⟨kc + kt + 1 + 1, by omega, fun n stack => ?_⟩
        have hsum : kc + kt + 1 + 1 + n = kc + (kt + n + 1) + 1 := by omega
        rw [hsum, hstep, writeNode, hnode]
        simp only [hvoid, Bool.false_eq_true, if_false, List.append_assoc,
          List.singleton_append, hc, writeAll, ht, trees, Plant.tree, Tree.html.htmlAll, Tree.html,
          String.append_assoc, Option.bind_some, hname]

/-- The written form of a plant is that of its tree. -/
theorem Stands.toHtml_eq {parent : Option NodeId} {t : Plant π η} (h : d.Stands parent t)
    (hforest : d.IsForest) : d.toHtml t.root = t.tree.html (parent.bind d.name?) := by
  have hlen := h.length_ids_le hforest
  obtain ⟨k, hk, hwrite⟩ := h.alone.writeAll_eq
  rw [idsAll_single] at hk
  obtain ⟨n, hn⟩ : ∃ n, d.walkBound = k + (n + 1) :=
    ⟨d.walkBound - k - 1, by rw [walkBound]; omega⟩
  have hdone : d.writeAll (n + 1) [] = "" := rfl
  have heq := hwrite (n + 1) []
  rw [hdone, trees, trees, Tree.html.htmlAll, Tree.html.htmlAll, String.append_empty,
    String.append_empty] at heq
  rw [toHtml, hn]
  exact heq

/-! ### Every node is a plant -/

/-- The plants of nodes that have one each. -/
theorem exists_allStand {parent : Option NodeId} {cs : List NodeId}
    (h : ∀ c ∈ cs, ∃ t, t.root = c ∧ d.Stands parent t) :
    ∃ ts, roots ts = cs ∧ d.AllStand parent ts := by
  induction cs with
  | nil => exact ⟨[], rfl, trivial⟩
  | cons c cs ih =>
    obtain ⟨t, rfl, ht⟩ := h c List.mem_cons_self
    obtain ⟨ts, rfl, hts⟩ := ih fun c hc => h c (List.mem_cons_of_mem _ hc)
    exact ⟨t :: ts, rfl, ht, hts⟩

/-- Nodes written as trees under `parent` are, together, written as the trees are. -/
theorem join_toHtml {parent : Option String} {cs : List NodeId}
    (h : ∀ c ∈ cs, d.toHtml c = (d.tree c).html parent) :
    String.join (cs.map d.toHtml) = Tree.html.htmlAll parent (cs.map d.tree) := by
  induction cs with
  | nil => rfl
  | cons c cs ih =>
    rw [List.map_cons, List.map_cons, String.join_cons, Tree.html.htmlAll, h c List.mem_cons_self,
      ih fun c hc => h c (List.mem_cons_of_mem _ hc)]

namespace IsForest

/-- The plant of a node with all of `above` over it: the more of them, the less is below. -/
theorem exists_stands_below (h : d.IsForest) (n : Nat) : ∀ {x : Nat} {above : List Nat},
    x < d.size → (x :: above).Nodup → (∀ a ∈ above, d.Ancestor a x) →
    d.size < n + (x :: above).length → ∃ t, t.root = x ∧ d.Stands (d.parent? x) t := by
  induction n with
  | zero =>
    intro x above hx hnodup habove hlen
    have hlt (a : Nat) (ha : a ∈ x :: above) : a < d.size := by
      rcases List.mem_cons.mp ha with rfl | ha
      · exact hx
      · exact h.ancestor_lt_size (habove a ha)
    have hle := length_le_of_nodup hnodup hlt
    omega
  | succ n ih =>
    intro x above hx hnodup habove hlen
    obtain ⟨⟨c, parent, cs⟩, hnode⟩ := exists_node? hx
    have hchild (k : Nat) (hk : k ∈ cs) : ∃ t, t.root = k ∧ d.Stands (some x) t := by
      have hparent : d.parent? k = some x := h.parent?_of_mem (by rwa [children_of_node? hnode])
      have hover (a : Nat) (ha : a ∈ x :: above) : d.Ancestor a k := by
        rcases List.mem_cons.mp ha with rfl | ha
        · exact .parent hparent
        · exact (habove a ha).trans (.parent hparent)
      have hnew : k ∉ x :: above := fun hmem => h.irrefl k (hover k hmem)
      rw [← hparent]
      refine ih (lt_size_of_parent? hparent) (List.nodup_cons.mpr ⟨hnew, hnodup⟩) hover ?_
      rw [List.length_cons]
      omega
    obtain ⟨ts, hroots, hstand⟩ := exists_allStand hchild
    refine ⟨node x c ts, rfl, ?_, hstand⟩
    rw [hnode, hroots, parent?_of_node? hnode]

/-- Every node of a forest is the root of a plant. -/
theorem exists_stands (h : d.IsForest) {x : Nat} (hx : x < d.size) :
    ∃ t, t.root = x ∧ d.Stands (d.parent? x) t :=
  h.exists_stands_below d.size hx (List.nodup_singleton x) (by simp) (by simp)

/-- The written form of a node is that of its tree. -/
theorem toHtml_tree (h : d.IsForest) {x : Nat} (hx : x < d.size) :
    d.toHtml x = (d.tree x).html ((d.parent? x).bind d.name?) := by
  obtain ⟨t, rfl, ht⟩ := h.exists_stands hx
  rw [ht.toHtml_eq h, ht.tree_eq h]

/-- The written form of what is in a node is that of the trees in it. -/
theorem innerHtml_childTrees (h : d.IsForest) (p : NodeId) :
    d.innerHtml p = Tree.html.htmlAll (d.name? p) (d.childTrees p) := by
  refine join_toHtml fun c hc => ?_
  have hparent : d.parent? c = some p := h.parent?_of_mem hc
  rw [h.toHtml_tree (lt_size_of_parent? hparent), hparent, Option.bind_some]

end IsForest
end Stencil.Document
