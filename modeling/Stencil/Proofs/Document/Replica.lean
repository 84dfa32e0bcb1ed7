/-
  Stencil/Proofs/Document/Replica.lean
  ====================================
  **A copy is an exact one, and stands apart.**

  Copying a node adds one new node for each node of its subtree and changes no other.  The
  new nodes are numbered from the first free number on in document order, so the copy of a
  node is found by counting (`copyNumber`).  This map carries the subtree over as it is:
  children to children in order, parents to parents, and what a node holds to the same
  without properties and listeners (`Replica`).

  `Document.Copy` says which plant stands there afterwards, numbered anew along the way.
  Here the two plants are gone through together (`AllStand.replicated`).  The written form
  of an element or a fragment does not depend on where it stands, so the copy is written as
  the original is.
-/
import Stencil.Proofs.Document.Moves
import Stencil.Proofs.Document.Reachable

namespace Stencil.Document

open Plant

variable {π η : Type} {d d' : Document π η}

/-- The same content, without properties and listeners. -/
inductive Content.Bared : Content π η → Content π η → Prop where
  | element {e e' : ElementData π η} (name : e'.name = e.name) (space : e'.space = e.space)
      (attributes : e'.attributes = e.attributes) (properties : e'.properties = [])
      (listeners : e'.listeners = []) : Bared (.element e) (.element e')
  | text (value : String) : Bared (.text value) (.text value)
  | comment (value : String) : Bared (.comment value) (.comment value)
  | fragment : Bared .fragment .fragment

theorem Content.bared_copy (c : Content π η) : c.Bared c.copy := by
  cases c with
  | element e => exact .element rfl rfl rfl rfl rfl
  | text value => exact .text value
  | comment value => exact .comment value
  | fragment => exact .fragment

/-- The number of the copy of `x` when `r` is copied. -/
def copyNumber (d : Document π η) (r x : NodeId) : NodeId := d.size + (d.subtree r).idxOf x

/-- `d'` is `d` with a copy of the subtree of `r`, which stands on its own. -/
structure Replica (d d' : Document π η) (r : NodeId) : Prop where
  size : d'.size = d.size + (d.subtree r).length
  old : ∀ x < d.size, d'.node? x = d.node? x
  numbers : (d.subtree r).map (d.copyNumber r) = List.range' d.size (d.subtree r).length
  content : ∀ x ∈ d.subtree r, ∃ c c', d.content? x = some c ∧
    d'.content? (d.copyNumber r x) = some c' ∧ c.Bared c'
  children : ∀ x ∈ d.subtree r,
    d'.children (d.copyNumber r x) = (d.children x).map (d.copyNumber r)
  parent : ∀ x ∈ d.subtree r, d'.parent? (d.copyNumber r x) =
    if x = r then none else (d.parent? x).map (d.copyNumber r)

/-! ### Two plants at once -/

theorem Plant.trees_copyAllAt (base : Nat) (ts : List (Plant π η)) :
    trees (copyAllAt base ts) = trees ts := by
  induction ts using Plant.induct generalizing base with
  | nil => rfl
  | cons id c cs ts ihc iht =>
    rw [copyAllAt, copyAt, trees, trees, iht]
    cases c <;> simp [Content.copy, Plant.tree, ihc]

/-- In the second document stand the plants of the first, numbered anew by `f`. -/
theorem AllStand.replicated {f : NodeId → NodeId} {parent : Option NodeId}
    {ts : List (Plant π η)} {base : Nat} (h : d.AllStand parent ts)
    (h' : d'.AllStand (parent.map f) (copyAllAt base ts))
    (hf : (idsAll ts).map f = List.range' base (idsAll ts).length) :
    roots (copyAllAt base ts) = (roots ts).map f ∧ ∀ x ∈ idsAll ts, ∃ n, d.node? x = some n ∧
      d'.node? (f x) = some ⟨n.content.copy, n.parent.map f, n.children.map f⟩ := by
  induction ts using Plant.induct generalizing parent base with
  | nil => exact ⟨rfl, by simp [idsAll]⟩
  | cons id c cs ts ihc iht =>
    obtain ⟨⟨hnode, hcs⟩, hts⟩ := h
    rw [copyAllAt, copyAt] at h'
    obtain ⟨⟨hnode', hcs'⟩, hts'⟩ := h'
    have hids : idsAll (node id c cs :: ts) = id :: (idsAll cs ++ idsAll ts) := by
      simp [idsAll, ids]
    have hnext : base + (node id c cs).ids.length = base + 1 + (idsAll cs).length := by
      rw [ids, List.length_cons]
      omega
    rw [hids, List.map_cons, List.map_append, List.length_cons, List.length_append,
      List.range'_succ, ← List.range'_append_1] at hf
    obtain ⟨rfl, hrest⟩ := List.cons.inj hf
    obtain ⟨hfcs, hfts⟩ := List.append_inj hrest (by simp)
    rw [hnext] at hts'
    obtain ⟨hroots, hbelow⟩ := ihc hcs hcs' hfcs
    obtain ⟨hroots', hside⟩ := iht hts hts' hfts
    constructor
    · have hside' : (copyAllAt (f id + (node id c cs).ids.length) ts).map root =
          (roots ts).map f := by
        rw [hnext]
        exact hroots'
      rw [copyAllAt, copyAt]
      simp only [roots, List.map_cons, Plant.root, hside']
    · intro x hx
      rw [hids] at hx
      rcases List.mem_cons.mp hx with rfl | hx
      · refine ⟨_, hnode, ?_⟩
        rw [hnode', hroots]
      · rcases List.mem_append.mp hx with hx | hx
        · exact hbelow x hx
        · exact hside x hx

/-- The plant as a whole: its topmost node is left without a parent. -/
theorem Stands.replicated {f : NodeId → NodeId} {parent : Option NodeId} {t : Plant π η}
    {base : Nat} (h : d.Stands parent t) (h' : d'.Stands none (t.copyAt base))
    (hf : t.ids.map f = List.range' base t.ids.length) (hnodup : t.ids.Nodup) :
    ∀ x ∈ t.ids, ∃ n, d.node? x = some n ∧ d'.node? (f x) =
      some ⟨n.content.copy, if x = t.root then none else n.parent.map f, n.children.map f⟩ := by
  obtain ⟨r, c, cs⟩ := t
  obtain ⟨hnode, hcs⟩ := h
  obtain ⟨hnode', hcs'⟩ := h'
  rw [ids, List.map_cons, List.length_cons, List.range'_succ] at hf
  obtain ⟨rfl, hbelow⟩ := List.cons.inj hf
  obtain ⟨hself, -⟩ := List.nodup_cons.mp hnodup
  obtain ⟨hroots, hnodes⟩ := hcs.replicated (show d'.AllStand ((some r).map f) _ from hcs') hbelow
  intro x hx
  rcases List.mem_cons.mp hx with rfl | hmem
  · refine ⟨_, hnode, ?_⟩
    rw [hnode', hroots, Plant.root, if_pos rfl]
  · obtain ⟨n, hn, hn'⟩ := hnodes x hmem
    have hne : x ≠ r := fun heq => hself (heq ▸ hmem)
    exact ⟨n, hn, by rw [hn', Plant.root, if_neg hne]⟩

/-! ### The copy of a node -/

theorem map_add_idxOf {l : List NodeId} (h : l.Nodup) (base : Nat) :
    l.map (fun x => base + l.idxOf x) = List.range' base l.length := by
  apply List.ext_getElem
  · simp
  · intro i hi hi'
    rw [List.length_map] at hi
    simp [List.Nodup.idxOf_getElem h i hi]

theorem IsForest.copy_replica (h : d.IsForest) {r : Nat} (hr : r < d.size) :
    (d.copy r).1 = d.size ∧ d.Replica (d.copy r).2 r := by
  obtain ⟨t, rfl, ht⟩ := h.exists_stands hr
  obtain ⟨d', hcopy, -, hsize, hstand, hold⟩ := copy_spec h ht
  have hids := ht.subtree_eq h
  have hnumbers : t.ids.map (d.copyNumber t.root) = List.range' d.size t.ids.length := by
    rw [← map_add_idxOf (ht.nodup_ids h) d.size]
    apply List.map_congr_left
    intro x _
    rw [copyNumber, hids]
  have hnodes := ht.replicated hstand hnumbers (ht.nodup_ids h)
  rw [hcopy]
  refine ⟨rfl, ?_⟩
  constructor
  · rw [hsize, hids]
  · exact hold
  · rw [hids, hnumbers]
  · intro x hx
    obtain ⟨n, hn, hn'⟩ := hnodes x (hids ▸ hx)
    exact ⟨n.content, n.content.copy, by rw [content?, hn]; rfl, by rw [content?, hn']; rfl,
      n.content.bared_copy⟩
  · intro x hx
    obtain ⟨n, hn, hn'⟩ := hnodes x (hids ▸ hx)
    rw [children_of_node? hn', children_of_node? hn]
  · intro x hx
    obtain ⟨n, hn, hn'⟩ := hnodes x (hids ▸ hx)
    rw [parent?_of_node? hn', parent?_of_node? hn]

/-- A node that is new is a copy, so it has no properties and no listeners. -/
theorem Replica.bared {r x : NodeId} (h : d.Replica d' r) (hx : d.size ≤ x) {c' : Content π η}
    (hc : d'.content? x = some c') : ∃ c : Content π η, c.Bared c' := by
  obtain ⟨n, hn, -⟩ := Option.map_eq_some_iff.mp hc
  have hlt : x < d.size + (d.subtree r).length := h.size ▸ lt_size_of_node? hn
  have hmem : x ∈ List.range' d.size (d.subtree r).length := List.mem_range'_1.mpr ⟨hx, hlt⟩
  rw [← h.numbers] at hmem
  obtain ⟨y, hy, rfl⟩ := List.mem_map.mp hmem
  obtain ⟨c, c'', -, hc'', hbared⟩ := h.content y hy
  obtain rfl := Option.some.inj (hc.symm.trans hc'')
  exact ⟨c, hbared⟩

/-- An element or a fragment is written the same wherever it stands. -/
theorem Tree.html_congr_parent {t : Tree} (ht : ∀ value, t ≠ .text value)
    (parent parent' : Option String) :
    t.html parent = t.html parent' := by
  cases t with
  | text value => exact absurd rfl (ht value)
  | element name space as children => rw [Tree.html, Tree.html]
  | comment value => rw [Tree.html, Tree.html]
  | fragment children => rw [Tree.html, Tree.html]

theorem IsForest.toHtml_copy (h : d.IsForest) {r : Nat} (hr : r < d.size)
    (hkind : d.kind r = some .element ∨ d.kind r = some .fragment) :
    (d.copy r).2.toHtml (d.copy r).1 = d.toHtml r := by
  obtain ⟨t, rfl, ht⟩ := h.exists_stands hr
  obtain ⟨d', hcopy, h', -, hstand, -⟩ := copy_spec h ht
  have htree : (t.copyAt d.size).tree = t.tree := by
    have htrees := trees_copyAllAt d.size [t]
    rw [copyAllAt, trees, trees] at htrees
    exact (List.cons.inj htrees).1
  have htext : ∀ value, t.tree ≠ .text value := by
    obtain ⟨id, c, cs⟩ := t
    rw [Plant.root, Document.kind, ht.node?_eq] at hkind
    intro value
    cases c <;> simp [Plant.tree, Content.kind] at hkind ⊢
  have hwritten := hstand.toHtml_eq h'
  rw [root_copyAt, htree] at hwritten
  rw [hcopy, hwritten, ht.toHtml_eq h]
  exact Tree.html_congr_parent htext _ _

/-- The subtree of a node is the node and all that is below it. -/
theorem IsForest.mem_subtree_iff (h : d.IsForest) {r x : Nat} (hr : r < d.size) :
    x ∈ d.subtree r ↔ d.AncestorOrSelf r x := by
  obtain ⟨t, rfl, ht⟩ := h.exists_stands hr
  rw [ht.subtree_eq h]
  constructor
  · exact ht.below_root
  · rintro (rfl | hanc)
    · exact t.root_mem_ids
    · exact ht.mem_of_ancestor h t.root_mem_ids hanc

/-- **A copy is exact and stands apart.**  Copying a node comes to an end, as a recursion without a
    bound.  The nodes at or below it, walked through in document order, get copies with the next
    free numbers in that order; the copies are linked as the originals are, the topmost one has no
    parent, and they hold what the originals hold, without properties and listeners.  Every other
    node is as it was.  The copy of an element or a fragment is written as the original is. -/
theorem copy_exact (h : Reachable d) {r : Nat} (hr : r < d.size) :
    d.Walks [r] (d.subtree r) ∧ (∀ x, x ∈ d.subtree r ↔ d.AncestorOrSelf r x) ∧
      Copies d r (d.copy r).1 (d.copy r).2 ∧ (d.copy r).1 = d.size ∧ d.Replica (d.copy r).2 r ∧
      (d.kind r = some .element ∨ d.kind r = some .fragment →
        (d.copy r).2.toHtml (d.copy r).1 = d.toHtml r) := by
  have hforest := h.isForest
  obtain ⟨hnumber, hreplica⟩ := hforest.copy_replica hr
  refine ⟨hforest.walks hr, fun x => hforest.mem_subtree_iff hr, hforest.copies hr, hnumber,
    hreplica, fun hkind => ?_⟩
  exact hforest.toHtml_copy hr hkind

/-- The paragraph `1`, with a listener and a property, stands in `0` and holds a text and an empty
    element. -/
theorem copy_exact_paragraph :
    ∃ d : Document Unit Unit, Reachable d ∧ d.subtree 1 = [1, 3, 2] ∧ (d.copy 1).1 = 4 ∧
      d.Replica (d.copy 1).2 1 ∧ (d.copy 1).2.children 4 = [5, 6] ∧
      (d.copy 1).2.listenersFor 4 "click" = [] ∧
      (d.copy 1).2.toHtml (d.copy 1).1 = "<p title=\"a\"><br>x</p>" := by
  have h₀ : Reachable (empty : Document Unit Unit) := .empty
  have h₁ := h₀.step (.make (.element "div" .html)) (by decide)
  have h₂ := h₁.step (.make (.element "p" .html)) (by decide)
  have h₃ := h₂.step (.make (.text "x")) (by decide)
  have h₄ := h₃.step (.make (.element "br" .html)) (by decide)
  have h₅ := h₄.step (.change 1 (.append 3)) (by decide)
  have h₆ := h₅.step (.change 1 (.append 2)) (by decide)
  have h₇ := h₆.step (.change 0 (.append 1)) (by decide)
  have h₈ := h₇.step (.change 1 (.setAttribute none "title" "a")) (by decide)
  have h₉ := h₈.step (.change 1 (.setProperty "open" ())) (by decide)
  have h := h₉.step (.listen 1 ⟨"click", (), false⟩) (by decide)
  obtain ⟨-, -, -, hnumber, hreplica, hhtml⟩ := copy_exact h (r := 1) (by decide)
  refine ⟨_, h, by decide, hnumber, hreplica, by decide, by decide, ?_⟩
  rw [hhtml (Or.inl (by decide))]
  decide

end Stencil.Document
