/-
  Stencil/Proofs/Document/Forest.lean
  ===================================
  **What moving nodes does, node by node, and that a document stays a forest.**

  In a forest `lineage` lists exactly a node and its ancestors (`mem_lineage_iff`): the
  bound on its length is never reached, because a chain of parents has no repetition.
  With that the two moves of `Document.Forest` have one equation each, which says what
  every node of the new document is (`node?_detach`, `node?_insertBefore`), and from
  the equations follows that both keep the forest.  Making a node and changing what a
  node holds do not touch parents and children at all (`IsForest.of_same_links`).
-/
import Stencil.Document.Forest
import Mathlib.Data.List.Nodup
import Mathlib.Data.Finset.Card

namespace Stencil.Document

variable {π η : Type} {d d' : Document π η}

/-! ### Nodes by number -/

/-- A document is what its nodes are. -/
theorem ext_node? (h : ∀ x, d.node? x = d'.node? x) : d = d' := by
  obtain ⟨nodes⟩ := d
  obtain ⟨nodes'⟩ := d'
  have heq : nodes = nodes' := Array.ext_getElem? h
  rw [heq]

theorem lt_size_of_node? {x : Nat} {n : NodeData π η} (h : d.node? x = some n) :
    x < d.size := by
  obtain ⟨hlt, -⟩ := Array.getElem?_eq_some_iff.mp h
  exact hlt

theorem exists_node? {x : Nat} (h : x < d.size) : ∃ n, d.node? x = some n :=
  ⟨_, Array.getElem?_eq_getElem h⟩

theorem node?_of_size_le {x : Nat} (h : d.size ≤ x) : d.node? x = none :=
  Array.getElem?_eq_none h

theorem parent?_of_node? {x : NodeId} {n : NodeData π η} (h : d.node? x = some n) :
    d.parent? x = n.parent := by
  simp [parent?, h]

theorem children_of_node? {x : NodeId} {n : NodeData π η} (h : d.node? x = some n) :
    d.children x = n.children := by
  simp [children, h]

theorem isFragment_of_node? {x : NodeId} {n : NodeData π η} (h : d.node? x = some n) :
    d.isFragment x = (n.content.kind == .fragment) := by
  simp [isFragment, kind, h]

theorem lt_size_of_mem_children {p c : Nat} (h : c ∈ d.children p) : p < d.size := by
  rcases hp : d.node? p with _ | n
  · simp [children, hp] at h
  · exact lt_size_of_node? hp

theorem lt_size_of_parent? {p c : Nat} (h : d.parent? c = some p) : c < d.size := by
  rcases hc : d.node? c with _ | n
  · simp [parent?, hc] at h
  · exact lt_size_of_node? hc

/-! ### Ancestors -/

theorem Ancestor.trans {a b c : NodeId} (hab : d.Ancestor a b) (hbc : d.Ancestor b c) :
    d.Ancestor a c := by
  induction hbc with
  | parent h => exact .step h hab
  | step h _ ih => exact .step h ih

/-- The ancestors of a node are those of its parent, and the parent. -/
theorem ancestor_iff {a c : NodeId} :
    d.Ancestor a c ↔ ∃ b, d.parent? c = some b ∧ (a = b ∨ d.Ancestor a b) := by
  constructor
  · intro h
    cases h with
    | parent h => exact ⟨_, h, Or.inl rfl⟩
    | step h hb => exact ⟨_, h, Or.inr hb⟩
  · rintro ⟨b, hb, rfl | hab⟩
    · exact .parent hb
    · exact .step hb hab

/-- Ancestors of one node stand in line. -/
theorem Ancestor.linear {a b x : NodeId} (ha : d.Ancestor a x) (hb : d.Ancestor b x) :
    a = b ∨ d.Ancestor a b ∨ d.Ancestor b a := by
  induction ha with
  | @parent x h =>
    obtain ⟨y, hy, heq⟩ := ancestor_iff.mp hb
    obtain rfl : a = y := Option.some.inj (h.symm.trans hy)
    rcases heq with rfl | hb
    · exact Or.inl rfl
    · exact Or.inr (Or.inr hb)
  | @step y x h ha ih =>
    obtain ⟨z, hz, heq⟩ := ancestor_iff.mp hb
    obtain rfl : y = z := Option.some.inj (h.symm.trans hz)
    rcases heq with rfl | hb
    · exact Or.inr (Or.inl ha)
    · exact ih hb

/-- The document without nodes is a forest. -/
theorem isForest_empty : IsForest (empty : Document π η) where
  mem_children_iff p c := by simp [children, parent?, node?, empty]
  nodup_children p := by simp [children, node?, empty]
  irrefl c h := by
    obtain ⟨b, hb, -⟩ := ancestor_iff.mp h
    simp [parent?, node?, empty] at hb
  fragment_root c h := by simp [parent?, node?, empty]

/-- A node, or an ancestor of it. -/
def AncestorOrSelf (d : Document π η) (a b : NodeId) : Prop := a = b ∨ d.Ancestor a b

/-- Nothing is above a node without a parent. -/
theorem not_ancestorOrSelf_root {a c : NodeId} (hroot : d.parent? c = none) (hne : a ≠ c) :
    ¬ d.AncestorOrSelf a c := by
  rintro (heq | hanc)
  · exact hne heq
  · obtain ⟨b, hb, -⟩ := ancestor_iff.mp hanc
    rw [hroot] at hb
    cases hb

theorem AncestorOrSelf.trans_ancestor {a b c : NodeId} (hab : d.AncestorOrSelf a b)
    (hbc : d.Ancestor b c) : d.Ancestor a c := by
  rcases hab with rfl | hab
  · exact hbc
  · exact hab.trans hbc

theorem Ancestor.trans_orSelf {a b c : NodeId} (hab : d.Ancestor a b)
    (hbc : d.AncestorOrSelf b c) : d.Ancestor a c := by
  rcases hbc with rfl | hbc
  · exact hab
  · exact hab.trans hbc

theorem self_mem_lineageUpTo (n : Nat) (x : NodeId) : x ∈ d.lineageUpTo (n + 1) x := by
  rw [lineageUpTo]
  cases d.parent? x <;> simp

theorem ancestorOrSelf_of_mem_lineageUpTo {n : Nat} {a x : NodeId}
    (h : a ∈ d.lineageUpTo n x) : d.AncestorOrSelf a x := by
  induction n generalizing x with
  | zero => simp [lineageUpTo] at h
  | succ n ih =>
    rw [lineageUpTo] at h
    rcases hx : d.parent? x with _ | p
    · rw [hx] at h
      exact Or.inl (by simpa using h)
    · rw [hx] at h
      rcases List.mem_cons.mp h with rfl | h
      · exact Or.inl rfl
      · exact Or.inr (ancestor_iff.mpr ⟨p, hx, ih h⟩)

/-- A lineage that is shorter than its bound has come to its end. -/
theorem mem_lineageUpTo_of_ancestor {n : Nat} {a x : NodeId}
    (hlen : (d.lineageUpTo n x).length < n) (h : d.Ancestor a x) : a ∈ d.lineageUpTo n x := by
  induction n generalizing x with
  | zero => simp at hlen
  | succ n ih =>
    obtain ⟨p, hp, heq⟩ := ancestor_iff.mp h
    rw [lineageUpTo, hp] at hlen ⊢
    have hlen' : (d.lineageUpTo n p).length < n := by simpa using hlen
    rcases heq with rfl | hap
    · obtain ⟨m, rfl⟩ : ∃ m, n = m + 1 := ⟨n - 1, by omega⟩
      exact List.mem_cons_of_mem _ (self_mem_lineageUpTo m a)
    · exact List.mem_cons_of_mem _ (ih hlen' hap)

namespace IsForest

theorem parent?_of_mem (h : d.IsForest) {p c : NodeId} (hc : c ∈ d.children p) :
    d.parent? c = some p := (h.mem_children_iff p c).mp hc

theorem mem_of_parent? (h : d.IsForest) {p c : NodeId} (hc : d.parent? c = some p) :
    c ∈ d.children p := (h.mem_children_iff p c).mpr hc

theorem parent_lt_size (h : d.IsForest) {p c : Nat} (hc : d.parent? c = some p) :
    p < d.size := lt_size_of_mem_children (h.mem_of_parent? hc)

theorem nodup_lineageUpTo (h : d.IsForest) (n : Nat) (x : NodeId) :
    (d.lineageUpTo n x).Nodup := by
  induction n generalizing x with
  | zero => exact List.nodup_nil
  | succ n ih =>
    rw [lineageUpTo]
    rcases hx : d.parent? x with _ | p
    · exact List.nodup_singleton x
    · refine List.nodup_cons.mpr ⟨fun hmem => ?_, ih p⟩
      have hxp := ancestorOrSelf_of_mem_lineageUpTo hmem
      exact h.irrefl x (ancestor_iff.mpr ⟨p, hx, hxp⟩)

theorem ancestor_lt_size (h : d.IsForest) {a x : Nat} (ha : d.Ancestor a x) : a < d.size := by
  induction ha with
  | parent hb => exact h.parent_lt_size hb
  | step _ _ ih => exact ih

/-- There are at most `n` different numbers below `n`. -/
theorem length_le_of_nodup {l : List Nat} {n : Nat} (h : l.Nodup) (hlt : ∀ x ∈ l, x < n) :
    l.length ≤ n := by
  have hsub : l ⊆ List.range n := fun x hx => List.mem_range.mpr (hlt x hx)
  have hlen := (List.subperm_of_subset h hsub).length_le
  rwa [List.length_range] at hlen

/-- A lineage is never cut short: its nodes are different and there are not enough. -/
theorem length_lineage_le (h : d.IsForest) {x : Nat} (hx : x < d.size) :
    (d.lineage x).length ≤ d.size := by
  have hlt : ∀ a ∈ d.lineage x, a < d.size := by
    intro a ha
    rcases ancestorOrSelf_of_mem_lineageUpTo ha with rfl | ha
    · exact hx
    · exact h.ancestor_lt_size ha
  exact length_le_of_nodup (h.nodup_lineageUpTo _ x) hlt

/-- The lineage of a node is the node and its ancestors. -/
theorem mem_lineage_iff (h : d.IsForest) {a x : Nat} (hx : x < d.size) :
    a ∈ d.lineage x ↔ d.AncestorOrSelf a x := by
  constructor
  · exact ancestorOrSelf_of_mem_lineageUpTo
  · rintro (rfl | ha)
    · exact self_mem_lineageUpTo _ a
    · exact mem_lineageUpTo_of_ancestor (Nat.lt_succ_of_le (h.length_lineage_le hx)) ha

/-- Different children of one parent have no node below them in common. -/
theorem siblings_apart (h : d.IsForest) {p a b x : NodeId} (ha : d.parent? a = some p)
    (hb : d.parent? b = some p) (hax : d.AncestorOrSelf a x) (hbx : d.AncestorOrSelf b x) :
    a = b := by
  -- a sibling that is an ancestor of the other is an ancestor of their parent, hence of itself
  have key {a b : NodeId} (ha : d.parent? a = some p) (hb : d.parent? b = some p)
      (hab : d.Ancestor a b) : False := by
    obtain ⟨q, hq, hap⟩ := ancestor_iff.mp hab
    obtain rfl : p = q := Option.some.inj (hb.symm.trans hq)
    exact h.irrefl a (ancestor_iff.mpr ⟨p, ha, hap⟩)
  rcases hax with rfl | hax
  · rcases hbx with rfl | hbx
    · rfl
    · exact (key hb ha hbx).elim
  · rcases hbx with rfl | hbx
    · exact (key ha hb hax).elim
    · rcases hax.linear hbx with heq | hab | hba
      · exact heq
      · exact (key ha hb hab).elim
      · exact (key hb ha hba).elim

/-- Parents, children and fragments are all that a forest is about. -/
theorem of_same_links (h : d.IsForest) (hparent : ∀ x, d'.parent? x = d.parent? x)
    (hchildren : ∀ x, d'.children x = d.children x)
    (hfragment : ∀ x, d'.isFragment x = d.isFragment x) : d'.IsForest := by
  have hanc {a b : NodeId} (hab : d'.Ancestor a b) : d.Ancestor a b := by
    induction hab with
    | parent hb => exact .parent (hparent _ ▸ hb)
    | step hb _ ih => exact .step (hparent _ ▸ hb) ih
  exact {
    mem_children_iff := fun p c => by rw [hchildren, hparent]; exact h.mem_children_iff p c
    nodup_children := fun p => by rw [hchildren]; exact h.nodup_children p
    irrefl := fun c hc => h.irrefl c (hanc hc)
    fragment_root := fun c hc => by rw [hparent]; exact h.fragment_root c (hfragment c ▸ hc) }

end IsForest

/-! ### New nodes, and what nodes hold -/

theorem parent?_create (c : Content π η) (x : NodeId) : (d.create c).2.parent? x = d.parent? x := by
  simp only [parent?, node?_create]
  split
  · next hx => rw [hx, node?_of_size_le (Nat.le_refl _)]; rfl
  · rfl

theorem children_create (c : Content π η) (x : NodeId) :
    (d.create c).2.children x = d.children x := by
  simp only [children, node?_create]
  split
  · next hx => rw [hx, node?_of_size_le (Nat.le_refl _)]; rfl
  · rfl

theorem IsForest.create (h : d.IsForest) (c : Content π η) : (d.create c).2.IsForest where
  mem_children_iff p x := by rw [children_create, parent?_create]; exact h.mem_children_iff p x
  nodup_children p := by rw [children_create]; exact h.nodup_children p
  irrefl x hx := by
    refine h.irrefl x ?_
    have hanc {a b : NodeId} (hab : (d.create c).2.Ancestor a b) : d.Ancestor a b := by
      induction hab with
      | parent hb => exact .parent (parent?_create c _ ▸ hb)
      | step hb _ ih => exact .step (parent?_create c _ ▸ hb) ih
    exact hanc hx
  fragment_root x hx := by
    rw [parent?_create]
    by_cases hlt : x < d.size
    · refine h.fragment_root x ?_
      simpa [isFragment, kind, node?_create, Nat.ne_of_lt hlt] using hx
    · rw [parent?, node?_of_size_le (Nat.le_of_not_lt hlt)]
      rfl

theorem node?_updateElement (id x : NodeId) (f : ElementData π η → ElementData π η) :
    (d.updateElement id f).node? x =
      (d.node? x).map fun n =>
        match n.content with
        | .element e => if id = x then { n with content := .element (f e) } else n
        | _ => n := by
  rw [updateElement, node?_update]
  split
  · next heq =>
    cases d.node? x with
    | none => rfl
    | some n => obtain ⟨c, p, cs⟩ := n; cases c <;> simp
  · next hne =>
    cases d.node? x with
    | none => rfl
    | some n => obtain ⟨c, p, cs⟩ := n; cases c <;> simp

theorem updateElement_self (d : Document π η) (id : NodeId) :
    d.updateElement id (fun e => e) = d := by
  apply ext_node?
  intro x
  rw [node?_updateElement]
  rcases d.node? x with _ | ⟨c, p, cs⟩
  · rfl
  · cases c <;> simp

theorem node?_setText (id x : NodeId) (value : String) :
    (d.setText id value).node? x =
      (d.node? x).map fun n =>
        match n.content with
        | .text _ => if id = x then { n with content := .text value } else n
        | .comment _ => if id = x then { n with content := .comment value } else n
        | _ => n := by
  rw [setText, node?_update]
  split
  · next heq =>
    cases d.node? x with
    | none => rfl
    | some n => obtain ⟨c, p, cs⟩ := n; cases c <;> simp
  · next hne =>
    cases d.node? x with
    | none => rfl
    | some n => obtain ⟨c, p, cs⟩ := n; cases c <;> simp

/-- A change of what nodes hold, not of their kinds, keeps a forest. -/
theorem IsForest.of_map (h : d.IsForest) (f : NodeId → NodeData π η → NodeData π η)
    (hnode : ∀ x, d'.node? x = (d.node? x).map (f x))
    (hkeep : ∀ x n, d.node? x = some n → (f x n).parent = n.parent ∧
      (f x n).children = n.children ∧ (f x n).content.kind = n.content.kind) : d'.IsForest := by
  apply h.of_same_links
  all_goals
    intro x
    rcases hx : d.node? x with _ | n
    · simp [parent?, children, isFragment, kind, hnode, hx]
    · simp [parent?, children, isFragment, kind, hnode, hx, hkeep x n hx]

theorem IsForest.updateElement (h : d.IsForest) (id : NodeId)
    (f : ElementData π η → ElementData π η) : (d.updateElement id f).IsForest := by
  refine h.of_map _ (fun x => node?_updateElement id x f) fun x n _ => ?_
  obtain ⟨c, p, cs⟩ := n
  cases c <;> simp only [and_self]
  split <;> simp [Content.kind]

theorem IsForest.setText (h : d.IsForest) (id : NodeId) (value : String) :
    (d.setText id value).IsForest := by
  refine h.of_map _ (fun x => node?_setText id x value) fun x n _ => ?_
  obtain ⟨c, p, cs⟩ := n
  cases c <;> simp only [and_self] <;> split <;> simp [Content.kind]

/-! ### Leaving a parent -/

theorem filter_ne_of_not_mem {l : List NodeId} {x : NodeId} (h : x ∉ l) :
    l.filter (· != x) = l := by
  refine List.filter_eq_self.mpr fun y hy => ?_
  simpa using fun heq : y = x => h (heq ▸ hy)

/-- What `detach` makes of every node. -/
theorem node?_detach (h : d.IsForest) (id x : NodeId) :
    (d.detach id).node? x = (d.node? x).map fun n =>
      ⟨n.content, if x = id then none else n.parent, n.children.filter (· != id)⟩ := by
  rcases hx : d.node? x with _ | n
  · have hnone : d.node? x = none := hx
    rw [detach]
    split <;> simp [node?_update, hnone]
  obtain ⟨c, par, cs⟩ := n
  have hmem : id ∈ cs ↔ d.parent? id = some x := by
    rw [← h.mem_children_iff, children_of_node? hx]
  rw [detach]
  split
  · next hroot =>
    have hcs : cs.filter (· != id) = cs :=
      filter_ne_of_not_mem fun hid => by simp [hmem.mp hid] at hroot
    by_cases hid : x = id
    · subst hid
      have hpar : par = none := by rw [← hroot, parent?_of_node? hx]
      simp [hx, hcs, hpar]
    · simp [hx, hcs, hid]
  · next p hp =>
    by_cases hxp : p = x
    · subst hxp
      have hne : id ≠ p := fun heq => h.irrefl p (.parent (heq ▸ hp))
      simp [node?_update, hx, hne, Ne.symm hne]
    · have hcs : cs.filter (· != id) = cs :=
        filter_ne_of_not_mem fun hid => hxp (Option.some.inj (hp.symm.trans (hmem.mp hid)))
      by_cases hid : x = id
      · subst hid
        simp [node?_update, hx, hxp, hcs]
      · simp [node?_update, hx, hxp, hcs, hid, Ne.symm hid]

theorem parent?_detach (h : d.IsForest) (id x : NodeId) :
    (d.detach id).parent? x = if x = id then none else d.parent? x := by
  rw [parent?, node?_detach h, parent?]
  cases d.node? x <;> simp

theorem children_detach (h : d.IsForest) (id x : NodeId) :
    (d.detach id).children x = (d.children x).filter (· != id) := by
  rw [children, node?_detach h, children]
  cases d.node? x <;> simp

theorem isFragment_detach (h : d.IsForest) (id x : NodeId) :
    (d.detach id).isFragment x = d.isFragment x := by
  rw [isFragment, kind, node?_detach h, isFragment, kind]
  cases d.node? x <;> simp

@[simp] theorem size_setText (d : Document π η) (id : NodeId) (value : String) :
    (d.setText id value).size = d.size := size_update _ _ _

@[simp] theorem size_updateElement (d : Document π η) (id : NodeId)
    (f : ElementData π η → ElementData π η) : (d.updateElement id f).size = d.size :=
  size_update _ _ _

@[simp] theorem size_detach (id : NodeId) : (d.detach id).size = d.size := by
  rw [detach]
  split <;> simp

/-- Leaving a parent makes nobody an ancestor. -/
theorem ancestor_of_detach (h : d.IsForest) {id a b : NodeId} (hab : (d.detach id).Ancestor a b) :
    d.Ancestor a b := by
  have hkeep {x p : NodeId} (hx : (d.detach id).parent? x = some p) : d.parent? x = some p := by
    rw [parent?_detach h] at hx
    split at hx
    · cases hx
    · exact hx
  induction hab with
  | parent hb => exact .parent (hkeep hb)
  | step hb _ ih => exact .step (hkeep hb) ih

theorem IsForest.detach (h : d.IsForest) (id : NodeId) : (d.detach id).IsForest where
  mem_children_iff p c := by
    rw [children_detach h, parent?_detach h, List.mem_filter, h.mem_children_iff]
    by_cases hc : c = id <;> simp [hc]
  nodup_children p := by
    rw [children_detach h]
    exact (h.nodup_children p).filter _
  irrefl c hc := h.irrefl c (ancestor_of_detach h hc)
  fragment_root c hc := by
    rw [parent?_detach h]
    split
    · rfl
    · exact h.fragment_root c (isFragment_detach h id c ▸ hc)

/-! ### Entering a parent -/

theorem mem_insertAt {l : List NodeId} {c x : NodeId} {ref : Option NodeId} :
    x ∈ insertAt l c ref ↔ x = c ∨ x ∈ l := by
  induction l with
  | nil => simp [insertAt]
  | cons y l ih =>
    rw [insertAt]
    split
    · simp
    · simp only [List.mem_cons, ih]
      tauto

theorem nodup_insertAt {l : List NodeId} {c : NodeId} {ref : Option NodeId} (hl : l.Nodup)
    (hc : c ∉ l) : (insertAt l c ref).Nodup := by
  induction l with
  | nil => simp [insertAt]
  | cons y l ih =>
    obtain ⟨hy, hl'⟩ := List.nodup_cons.mp hl
    obtain ⟨hcy, hcl⟩ : c ≠ y ∧ c ∉ l := by simpa using hc
    rw [insertAt]
    split
    · exact List.nodup_cons.mpr ⟨hc, hl⟩
    · refine List.nodup_cons.mpr ⟨fun hmem => ?_, ih hl' hcl⟩
      rcases mem_insertAt.mp hmem with heq | hmem
      · exact hcy heq.symm
      · exact hy hmem

/-- In front of a reference. -/
theorem insertAt_before {front back : List NodeId} {c r : NodeId} (hr : r ∉ front) :
    insertAt (front ++ r :: back) c (some r) = front ++ c :: r :: back := by
  induction front with
  | nil => simp [insertAt]
  | cons y front ih =>
    obtain ⟨hry, hrf⟩ : r ≠ y ∧ r ∉ front := by simpa using hr
    rw [List.cons_append, insertAt, if_neg (fun heq => hry (Option.some.inj heq).symm), ih hrf,
      List.cons_append]

/-- At the end, without a reference. -/
theorem insertAt_none (l : List NodeId) (c : NodeId) : insertAt l c none = l ++ [c] := by
  induction l with
  | nil => rfl
  | cons y l ih => rw [insertAt, if_neg (by simp), ih, List.cons_append]

/-- `Fits d p c ref`: putting the node `c` into `p` in front of `ref` is not refused, and
    `c` is moved as a whole. -/
structure Fits (d : Document π η) (p c : Nat) (ref : Option NodeId) : Prop where
  parent_lt : p < d.size
  child_lt : c < d.size
  notFragment : d.isFragment c = false
  ne_ref : some c ≠ ref
  notAbove : ¬ d.AncestorOrSelf c p

theorem insertBefore_eq (h : d.IsForest) {p c : NodeId} {ref : Option NodeId}
    (hfit : d.Fits p c ref) :
    d.insertBefore p c ref =
      ((d.detach c).update p fun n => { n with children := insertAt n.children c ref }).update c
        fun n => { n with parent := some p } := by
  have hlineage : (d.lineage p).contains c = false := by
    rw [← Bool.not_eq_true, List.contains_iff_mem, h.mem_lineage_iff hfit.parent_lt]
    exact hfit.notAbove
  rw [insertBefore, hfit.notFragment, if_neg (by simp), insertNode, hlineage,
    decide_eq_false hfit.ne_ref]
  rfl

/-- What `insertBefore` makes of every node. -/
theorem node?_insertBefore (h : d.IsForest) {p c : NodeId} {ref : Option NodeId}
    (hfit : d.Fits p c ref) (x : NodeId) :
    (d.insertBefore p c ref).node? x = (d.node? x).map fun n =>
      ⟨n.content, if x = c then some p else n.parent,
        if x = p then insertAt (n.children.filter (· != c)) c ref
        else n.children.filter (· != c)⟩ := by
  have hne : p ≠ c := fun heq => hfit.notAbove (Or.inl heq.symm)
  rw [insertBefore_eq h hfit, node?_update, node?_update, node?_detach h]
  rcases hx : d.node? x with _ | n
  · simp
  · by_cases hxc : x = c
    · subst hxc
      simp [hne, Ne.symm hne]
    · by_cases hxp : x = p
      · subst hxp
        simp [hxc, Ne.symm hxc]
      · simp [hxc, Ne.symm hxc, hxp, Ne.symm hxp]

/-- What putting in a node without a parent makes of every node. -/
theorem node?_insertBefore_root (h : d.IsForest) {p c : NodeId} {ref : Option NodeId}
    (hfit : d.Fits p c ref) (hc : d.parent? c = none) (x : NodeId) :
    (d.insertBefore p c ref).node? x = (d.node? x).map fun n =>
      ⟨n.content, if x = c then some p else n.parent,
        if x = p then insertAt n.children c ref else n.children⟩ := by
  rw [node?_insertBefore h hfit]
  rcases hx : d.node? x with _ | n
  · rfl
  · have hmem : c ∉ n.children := by
      intro hmem
      have hparent := h.parent?_of_mem (p := x) (c := c) (by rwa [children_of_node? hx])
      rw [hc] at hparent
      cases hparent
    simp only [Option.map_some, filter_ne_of_not_mem hmem]

@[simp] theorem size_insertBefore (h : d.IsForest) {p c : NodeId} {ref : Option NodeId}
    (hfit : d.Fits p c ref) : (d.insertBefore p c ref).size = d.size := by
  rw [insertBefore_eq h hfit, size_update, size_update, size_detach]

theorem parent?_insertBefore (h : d.IsForest) {p c : NodeId} {ref : Option NodeId}
    (hfit : d.Fits p c ref) (x : NodeId) :
    (d.insertBefore p c ref).parent? x = if x = c then some p else d.parent? x := by
  rw [parent?, node?_insertBefore h hfit, parent?]
  rcases hx : d.node? x with _ | n
  · have hxc : x ≠ c := by
      rintro rfl
      obtain ⟨n, hn⟩ := exists_node? hfit.child_lt
      simp [hn] at hx
    simp [hxc]
  · simp

theorem children_insertBefore (h : d.IsForest) {p c : NodeId} {ref : Option NodeId}
    (hfit : d.Fits p c ref) (x : NodeId) :
    (d.insertBefore p c ref).children x =
      if x = p then insertAt ((d.children x).filter (· != c)) c ref
      else (d.children x).filter (· != c) := by
  rw [children, node?_insertBefore h hfit, children]
  rcases hx : d.node? x with _ | n
  · have hxp : x ≠ p := by
      rintro rfl
      obtain ⟨n, hn⟩ := exists_node? hfit.parent_lt
      simp [hn] at hx
    simp [hxp]
  · simp

theorem isFragment_insertBefore (h : d.IsForest) {p c : NodeId} {ref : Option NodeId}
    (hfit : d.Fits p c ref) (x : NodeId) :
    (d.insertBefore p c ref).isFragment x = d.isFragment x := by
  rw [isFragment, kind, node?_insertBefore h hfit, isFragment, kind]
  cases d.node? x <;> simp

/-- The only new ancestors are the new parent and those above it, and they are ancestors of
    what has been put in. -/
theorem ancestor_of_insertBefore (h : d.IsForest) {p c : NodeId} {ref : Option NodeId}
    (hfit : d.Fits p c ref) {a b : NodeId} (hab : (d.insertBefore p c ref).Ancestor a b) :
    d.Ancestor a b ∨ (d.AncestorOrSelf a p ∧ d.AncestorOrSelf c b) := by
  induction hab with
  | @parent b hb =>
    rw [parent?_insertBefore h hfit] at hb
    split at hb
    · next heq =>
      cases hb
      exact Or.inr ⟨Or.inl rfl, Or.inl heq.symm⟩
    · exact Or.inl (.parent hb)
  | @step b x hx _ ih =>
    rw [parent?_insertBefore h hfit] at hx
    split at hx
    · next heq =>
      cases hx
      rcases ih with hap | ⟨-, hcp⟩
      · exact Or.inr ⟨Or.inr hap, Or.inl heq.symm⟩
      · exact (hfit.notAbove hcp).elim
    · rcases ih with hab | ⟨hap, hcb⟩
      · exact Or.inl (.step hx hab)
      · exact Or.inr ⟨hap, Or.inr (hcb.trans_ancestor (.parent hx))⟩

theorem IsForest.insertBefore (h : d.IsForest) {p c : NodeId} {ref : Option NodeId}
    (hfit : d.Fits p c ref) : (d.insertBefore p c ref).IsForest where
  mem_children_iff q x := by
    rw [children_insertBefore h hfit, parent?_insertBefore h hfit]
    by_cases hxc : x = c
    · subst hxc
      by_cases hq : q = p
      · simp [hq, mem_insertAt]
      · simp [hq, Ne.symm hq]
    · by_cases hq : q = p <;> simp [hq, hxc, mem_insertAt, h.mem_children_iff]
  nodup_children q := by
    have hfilter := (h.nodup_children q).filter (· != c)
    rw [children_insertBefore h hfit]
    split
    · exact nodup_insertAt hfilter (by simp)
    · exact hfilter
  irrefl x hx := by
    rcases ancestor_of_insertBefore h hfit hx with hxx | ⟨hxp, hcx⟩
    · exact h.irrefl x hxx
    · rcases hxp with rfl | hxp
      · exact hfit.notAbove hcx
      · exact hfit.notAbove (Or.inr (hcx.trans_ancestor hxp))
  fragment_root x hx := by
    rw [isFragment_insertBefore h hfit] at hx
    rw [parent?_insertBefore h hfit, if_neg]
    · exact h.fragment_root x hx
    · rintro rfl
      simp [hfit.notFragment] at hx

end Stencil.Document
