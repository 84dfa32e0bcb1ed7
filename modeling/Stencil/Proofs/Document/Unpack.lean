/-
  Stencil/Proofs/Document/Unpack.lean
  ===================================
  **Putting in a fragment.**

  A fragment is put in by its children, one by one.  While that goes on the document is
  no forest: the fragment has let go of its children at once, and those that have not
  been moved yet still name it as their parent.  So the steps are compared with steps
  that are honest moves (`unpackChild`): the documents on both sides differ only in
  the list of children of the fragment, which is empty on the one side and has what is
  still to be moved on the other.  At the end nothing is left, and both are the same
  (`insertBefore_fragment`).

  It follows that putting in any node at all keeps a forest (`IsForest.insert`), also
  where it is refused.
-/
import Stencil.Proofs.Document.Forest

namespace Stencil.Document

variable {π η : Type} {d d' : Document π η} {f p g : NodeId} {ref : Option NodeId}
  {rest : List NodeId}

/-! ### A fragment that has let go of its children -/

/-- The document in which a node has no children, although they name it as their parent. -/
def emptied (d : Document π η) (f : NodeId) : Document π η :=
  d.update f fun n => { n with children := [] }

theorem node?_emptied (f x : NodeId) : (d.emptied f).node? x =
    (d.node? x).map fun n => if f = x then { n with children := [] } else n := by
  rw [emptied, node?_update]
  split
  · rfl
  · cases d.node? x <;> rfl

@[simp] theorem size_emptied (f : NodeId) : (d.emptied f).size = d.size := size_update ..

/-- Nothing happens to a node without children. -/
theorem emptied_of_children (h : d.children f = []) : d.emptied f = d := by
  apply ext_node?
  intro x
  rw [node?_emptied]
  rcases hx : d.node? x with _ | n
  · rfl
  · simp only [Option.map_some]
    split
    · next heq =>
      subst heq
      rw [children_of_node? hx] at h
      obtain ⟨c, par, cs⟩ := n
      cases h
      rfl
    · rfl

/-! ### One child -/

/-- What unpacking does with a child: it is moved, unless it is the reference; then it
    stays without a parent. -/
def unpackChild (d : Document π η) (p : NodeId) (ref : Option NodeId) (g : NodeId) :
    Document π η :=
  if some g = ref then d.detach g else d.insertBefore p g ref

/-- `Unpacks d f p rest`: the fragment `f` is being put into `p`, and `rest` are the children
    that are still to be moved. -/
structure Unpacks (d : Document π η) (f p : NodeId) (rest : List NodeId) : Prop where
  forest : d.IsForest
  fragment : d.isFragment f = true
  parent_lt : p < d.size
  notAbove : ¬ d.AncestorOrSelf f p
  children_eq : d.children f = rest

namespace Unpacks

theorem parent?_eq (h : d.Unpacks f p (g :: rest)) : d.parent? g = some f := by
  refine h.forest.parent?_of_mem ?_
  rw [h.children_eq]
  exact List.mem_cons_self

/-- A child of the fragment is not above the new parent, since the fragment is not. -/
theorem child_notAbove (h : d.Unpacks f p (g :: rest)) : ¬ d.AncestorOrSelf g p := by
  intro hgp
  have hfg : d.Ancestor f g := .parent h.parent?_eq
  exact h.notAbove (Or.inr (hfg.trans_orSelf hgp))

/-- Moving a child of the fragment is never refused. -/
theorem fits (h : d.Unpacks f p (g :: rest)) (hne : some g ≠ ref) : d.Fits p g ref where
  parent_lt := h.parent_lt
  child_lt := lt_size_of_parent? h.parent?_eq
  notFragment := by
    by_contra hfragment
    have hroot := h.forest.fragment_root g (by simpa using hfragment)
    rw [h.parent?_eq] at hroot
    cases hroot
  ne_ref := hne
  notAbove := h.child_notAbove

theorem size_unpackChild (h : d.Unpacks f p (g :: rest)) :
    (d.unpackChild p ref g).size = d.size := by
  unfold unpackChild
  split
  · exact size_detach g
  · next hne => exact size_insertBefore h.forest (h.fits hne)

theorem isForest_unpackChild (h : d.Unpacks f p (g :: rest)) :
    (d.unpackChild p ref g).IsForest := by
  unfold unpackChild
  split
  · exact h.forest.detach g
  · next hne => exact h.forest.insertBefore (h.fits hne)

/-- The other children of the fragment stay. -/
theorem children_unpackChild (h : d.Unpacks f p (g :: rest)) :
    (d.unpackChild p ref g).children f = rest := by
  have hnodup := h.forest.nodup_children f
  rw [h.children_eq] at hnodup
  have hfilter : (g :: rest).filter (· != g) = rest := by
    rw [List.filter_cons_of_neg (by simp)]
    exact filter_ne_of_not_mem (List.nodup_cons.mp hnodup).1
  unfold unpackChild
  split
  · rw [children_detach h.forest, h.children_eq, hfilter]
  · next hne =>
    have hfp : f ≠ p := fun heq => h.notAbove (Or.inl heq)
    rw [children_insertBefore h.forest (h.fits hne), if_neg hfp, h.children_eq, hfilter]

/-- The fragment does not get above the new parent. -/
theorem notAbove_unpackChild (h : d.Unpacks f p (g :: rest)) :
    ¬ (d.unpackChild p ref g).AncestorOrSelf f p := by
  rintro (heq | hfp)
  · exact h.notAbove (Or.inl heq)
  · unfold unpackChild at hfp
    split at hfp
    · exact h.notAbove (Or.inr (ancestor_of_detach h.forest hfp))
    · next hne =>
      rcases ancestor_of_insertBefore h.forest (h.fits hne) hfp with hfp | ⟨hfp, -⟩
      · exact h.notAbove (Or.inr hfp)
      · exact h.notAbove hfp

theorem isFragment_unpackChild (h : d.Unpacks f p (g :: rest)) (x : NodeId) :
    (d.unpackChild p ref g).isFragment x = d.isFragment x := by
  unfold unpackChild
  split
  · exact isFragment_detach h.forest g x
  · next hne => exact isFragment_insertBefore h.forest (h.fits hne) x

/-- One child is moved, the others are still to be moved. -/
theorem next (h : d.Unpacks f p (g :: rest)) (ref : Option NodeId) :
    (d.unpackChild p ref g).Unpacks f p rest where
  forest := h.isForest_unpackChild
  fragment := by rw [h.isFragment_unpackChild, h.fragment]
  parent_lt := by rw [h.size_unpackChild]; exact h.parent_lt
  notAbove := h.notAbove_unpackChild
  children_eq := h.children_unpackChild

end Unpacks

/-! ### All children -/

theorem lineage_congr (hsize : d'.size = d.size) (hparent : ∀ x, d'.parent? x = d.parent? x)
    (x : NodeId) : d'.lineage x = d.lineage x := by
  have hupTo (n : Nat) (x : NodeId) : d'.lineageUpTo n x = d.lineageUpTo n x := by
    induction n generalizing x with
    | zero => rfl
    | succ n ih => simp only [lineageUpTo, hparent, ih]
  rw [lineage, lineage, hsize, hupTo]

/-- The next child let go by a fragment that has let go of all its children. -/
def released (d : Document π η) (f g : NodeId) : Document π η :=
  (d.emptied f).update g fun n => { n with parent := none }

theorem Unpacks.fragment_ne (h : d.Unpacks f p (g :: rest)) : f ≠ g := by
  rintro rfl
  exact h.forest.irrefl f (.parent h.parent?_eq)

theorem Unpacks.node?_released (h : d.Unpacks f p (g :: rest)) (x : NodeId) :
    (d.released f g).node? x = (d.node? x).map fun n =>
      ⟨n.content, if x = g then none else n.parent, if f = x then [] else n.children⟩ := by
  have hfg : f ≠ g := h.fragment_ne
  rw [released, node?_update, node?_emptied]
  rcases d.node? x with _ | n
  · simp
  · by_cases hx : g = x
    · subst hx
      simp [hfg]
    · by_cases hfx : f = x <;> simp [hx, Ne.symm hx, hfx]

theorem Unpacks.parent?_released (h : d.Unpacks f p (g :: rest)) (x : NodeId) :
    (d.released f g).parent? x = (d.detach g).parent? x := by
  rw [parent?_detach h.forest, parent?, h.node?_released, parent?]
  cases d.node? x <;> simp

/-- The child is no ancestor of the new parent there, either. -/
theorem Unpacks.not_mem_lineage_released (h : d.Unpacks f p (g :: rest)) :
    ((d.released f g).lineage p).contains g = false := by
  have hsize : (d.released f g).size = (d.detach g).size := by
    rw [released, size_update, size_emptied, size_detach]
  rw [lineage_congr hsize h.parent?_released, ← Bool.not_eq_true, List.contains_iff_mem,
    (h.forest.detach g).mem_lineage_iff (by rw [size_detach]; exact h.parent_lt)]
  rintro (heq | hanc)
  · exact h.child_notAbove (Or.inl heq)
  · exact h.child_notAbove (Or.inr (ancestor_of_detach h.forest hanc))

/-- Among the children of other nodes there is nothing to take out. -/
theorem Unpacks.filter_children (h : d.Unpacks f p (g :: rest)) {x : NodeId} {n : NodeData π η}
    (hx : d.node? x = some n) (hne : f ≠ x) : n.children.filter (· != g) = n.children := by
  apply filter_ne_of_not_mem
  intro hmem
  have hparent := h.forest.parent?_of_mem (p := x) (c := g) (by rwa [children_of_node? hx])
  exact hne (Option.some.inj (h.parent?_eq.symm.trans hparent))

/-- The step of unpacking, in a document whose fragment has let go of all its children, is
    an honest move. -/
theorem Unpacks.step_emptied (h : d.Unpacks f p (g :: rest)) (ref : Option NodeId) :
    (d.released f g).insertNode p g ref = (d.unpackChild p ref g).emptied f := by
  have hfg : f ≠ g := h.fragment_ne
  have hgp : g ≠ p := fun heq => h.child_notAbove (Or.inl heq)
  have hfp : f ≠ p := fun heq => h.notAbove (Or.inl heq)
  unfold unpackChild
  split
  · next heq =>
    rw [insertNode, decide_eq_true heq, Bool.true_or, if_pos rfl]
    apply ext_node?
    intro x
    rw [h.node?_released, node?_emptied, node?_detach h.forest]
    rcases hx : d.node? x with _ | n
    · rfl
    · by_cases hfx : f = x <;> simp [hfx, h.filter_children hx]
  · next hne =>
    have hroot : (d.released f g).detach g = d.released f g := by
      rw [detach, h.parent?_released, parent?_detach h.forest, if_pos rfl]
    rw [insertNode, h.not_mem_lineage_released, decide_eq_false hne, Bool.or_false,
      if_neg (by simp), hroot]
    apply ext_node?
    intro x
    rw [node?_update, node?_update, h.node?_released, node?_emptied,
      node?_insertBefore h.forest (h.fits hne)]
    rcases hx : d.node? x with _ | n
    · simp
    · by_cases hxg : x = g
      · subst hxg
        simp [Ne.symm hgp, hfg, hgp, h.filter_children hx hfg]
      · by_cases hxp : x = p
        · subst hxp
          simp [hxg, Ne.symm hxg, hfp, h.filter_children hx hfp]
        · by_cases hfx : f = x <;>
            simp [hxg, Ne.symm hxg, hxp, Ne.symm hxp, hfx, h.filter_children hx]

/-- All children are moved, one after the other. -/
theorem Unpacks.foldl (h : d.Unpacks f p rest) (ref : Option NodeId) :
    rest.foldl (fun d g => (d.update g fun n => { n with parent := none }).insertNode p g ref)
        (d.emptied f) = rest.foldl (fun d g => d.unpackChild p ref g) d ∧
      (rest.foldl (fun d g => d.unpackChild p ref g) d).Unpacks f p [] := by
  induction rest generalizing d with
  | nil => exact ⟨emptied_of_children h.children_eq, h⟩
  | cons g rest ih =>
    rw [List.foldl_cons, List.foldl_cons, ← released, h.step_emptied ref]
    exact ih (h.next ref)

theorem unpacks (h : d.IsForest) (hf : d.isFragment f = true) (hp : p < d.size)
    (habove : ¬ d.AncestorOrSelf f p) : d.Unpacks f p (d.children f) :=
  ⟨h, hf, hp, habove, rfl⟩

/-- A fragment is put in by moving its children one after the other. -/
theorem insertBefore_fragment (h : d.IsForest) (hf : d.isFragment f = true) (hp : p < d.size)
    (hne : some f ≠ ref) (habove : ¬ d.AncestorOrSelf f p) :
    d.insertBefore p f ref = (d.children f).foldl (fun d g => d.unpackChild p ref g) d := by
  have hlineage : (d.lineage p).contains f = false := by
    rw [← Bool.not_eq_true, List.contains_iff_mem, h.mem_lineage_iff hp]
    exact habove
  rw [insertBefore, hf, if_pos rfl, hlineage, decide_eq_false hne, Bool.or_false, if_neg (by simp)]
  exact ((unpacks h hf hp habove).foldl ref).1

/-- A node is not put in front of itself, nor into its own subtree. -/
theorem insertBefore_refused {c : NodeId}
    (h : (decide (some c = ref) || (d.lineage p).contains c) = true) :
    d.insertBefore p c ref = d := by
  rw [insertBefore, insertNode, h, if_pos rfl, if_pos rfl, ite_self]

/-- A node is put in as asked, or nothing happens, or it is a fragment whose children are
    moved. -/
theorem insertBefore_cases (h : d.IsForest) {c : NodeId} (hp : p < d.size) (hc : c < d.size)
    (ref : Option NodeId) :
    d.insertBefore p c ref = d ∨ d.Fits p c ref ∨
      (d.Unpacks c p (d.children c) ∧
        d.insertBefore p c ref = (d.children c).foldl (fun d g => d.unpackChild p ref g) d) := by
  by_cases hne : some c = ref
  · exact Or.inl (insertBefore_refused (by rw [decide_eq_true hne, Bool.true_or]))
  by_cases habove : d.AncestorOrSelf c p
  · have hlineage : (d.lineage p).contains c = true := by
      rw [List.contains_iff_mem, h.mem_lineage_iff hp]
      exact habove
    exact Or.inl (insertBefore_refused (by rw [hlineage, Bool.or_true]))
  cases hf : d.isFragment c with
  | true =>
    exact Or.inr (Or.inr ⟨unpacks h hf hp habove, insertBefore_fragment h hf hp hne habove⟩)
  | false => exact Or.inr (Or.inl ⟨hp, hc, hf, hne, habove⟩)

/-- Putting a node in keeps a forest, whatever the node, the parent and the reference. -/
theorem IsForest.insert (h : d.IsForest) {c : NodeId} (hp : p < d.size) (hc : c < d.size)
    (ref : Option NodeId) : (d.insertBefore p c ref).IsForest := by
  rcases insertBefore_cases h hp hc ref with hsame | hfit | ⟨hunpacks, hfold⟩
  · rw [hsame]
    exact h
  · exact h.insertBefore hfit
  · rw [hfold]
    exact (hunpacks.foldl ref).2.forest

end Stencil.Document
