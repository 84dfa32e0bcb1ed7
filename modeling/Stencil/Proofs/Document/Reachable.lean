/-
  Stencil/Proofs/Document/Reachable.lean
  ======================================
  **Documents that operations can make.**

  `Operation` is everything that can be done to a document: nodes are made and copied,
  put in, taken out, and what they hold is changed.  An operation may be asked for
  anything: a node in front of itself, into its own subtree, in front of a reference that
  is no child of the parent, or a fragment in front of one of its own children.  All that
  is required is that the nodes exist.

  One operation keeps a forest (`Operation.isForest`), so every document in reach is one
  (`Reachable.isForest`), and the loops over it come to an end.
-/
import Stencil.Document.Command
import Stencil.Proofs.Document.Course
import Stencil.Proofs.Document.Unpack

namespace Stencil.Document

variable {π η : Type} {d : Document π η}

/-! ### Operations -/

/-- Something that is done to a document. -/
inductive Operation (π η : Type) where
  | make (node : Blueprint)
  | change (id : NodeId) (how : Change π)
  | remove (id : NodeId)
  | listen (id : NodeId) (listener : Listener η)

/-- The node that is copied, if one is. -/
def Blueprint.source? : Blueprint → Option NodeId
  | copy id => some id
  | _ => none

/-- The node that a change puts in, if it puts one in. -/
def Change.child? : Change π → Option NodeId
  | append child => some child
  | insert child _ => some child
  | _ => none

namespace Operation

/-- The document after an operation. -/
def apply (d : Document π η) : Operation π η → Document π η
  | make node => (node.build d).2
  | change id how => how.apply d id
  | remove id => d.detach id
  | listen id listener => d.addListener id listener

/-- The nodes that an operation is about.  The reference of an insertion is not among them:
    it need not be a node at all. -/
def subjects : Operation π η → List NodeId
  | make node => node.source?.toList
  | change id how => id :: how.child?.toList
  | remove id => [id]
  | listen id _ => [id]

end Operation

/-- `Reachable d`: operations on existing nodes make the document `d` out of the empty one. -/
inductive Reachable : Document π η → Prop where
  | empty : Reachable empty
  | step {d : Document π η} (o : Operation π η) (hd : Reachable d)
      (ho : ∀ x ∈ o.subjects, x < d.size) : Reachable (o.apply d)

/-! ### The forest is kept -/

theorem Blueprint.isForest (h : d.IsForest) (b : Blueprint)
    (hsource : ∀ x ∈ b.source?, x < d.size) : (b.build d).2.IsForest := by
  cases b with
  | element name space => exact h.create _
  | text value => exact h.create _
  | comment value => exact h.create _
  | fragment => exact h.create _
  | copy id =>
    obtain ⟨t, rfl, ht⟩ := h.exists_stands (hsource id rfl)
    obtain ⟨d', hcopy, h', -⟩ := copy_spec h ht
    rw [Blueprint.build, hcopy]
    exact h'

theorem Change.isForest (h : d.IsForest) {id : NodeId} (hid : id < d.size) (c : Change π)
    (hchild : ∀ x ∈ c.child?, x < d.size) : (c.apply d id).IsForest := by
  cases c with
  | append child => exact h.insert hid (hchild child rfl) none
  | insert child reference => exact h.insert hid (hchild child rfl) reference
  | setText value => exact h.setText id value
  | setAttribute space name value => exact h.updateElement id _
  | removeAttribute name => exact h.updateElement id _
  | setProperty name value => exact h.updateElement id _
  | toggleClass name on => exact h.updateElement id _
  | setStyle property value => exact h.updateElement id _

/-- An operation on existing nodes keeps a forest. -/
theorem Operation.isForest (h : d.IsForest) (o : Operation π η)
    (ho : ∀ x ∈ o.subjects, x < d.size) : (o.apply d).IsForest := by
  cases o with
  | make node =>
    exact Blueprint.isForest h node fun x hx => ho x (by simpa [Operation.subjects] using hx)
  | change id how =>
    refine Change.isForest h (ho id List.mem_cons_self) how fun x hx => ho x ?_
    exact List.mem_cons_of_mem _ (by simpa using hx)
  | remove id => exact h.detach id
  | listen id listener => exact h.updateElement id _

/-- Every document in reach is a forest. -/
theorem Reachable.isForest (h : Reachable d) : d.IsForest := by
  induction h with
  | empty => exact isForest_empty
  | step o _ ho ih => exact Operation.isForest ih o ho

/-- **A document stays a forest.**  Whatever is done to existing nodes, parents and children
    fit together, nobody is a child twice, nobody is their own ancestor, and fragments have
    no parent.  So from every node climbing to the root, walking over the subtree, writing
    it and copying it come to an end by themselves, with the results that `lineage`,
    `subtree`, `toHtml` and `copy` give. -/
theorem reachable_forest (h : Reachable d) :
    d.IsForest ∧ ∀ x < d.size,
      d.Climbs x (d.lineage x) ∧ d.Walks [x] (d.subtree x) ∧
        d.Writes [.node x] (d.toHtml x) ∧ Copies d x (d.copy x).1 (d.copy x).2 := by
  have hforest := h.isForest
  refine ⟨hforest, fun x hx => ⟨?_, ?_, ?_, ?_⟩⟩
  · exact hforest.climbs hx
  · exact hforest.walks hx
  · exact hforest.writes hx
  · exact hforest.copies hx

/-- A fragment with the elements `1` and `2` is put into `3` in front of its own child `2`,
    which stays outside without a parent; `3` is not put into `1`, which it has taken in. -/
theorem reachable_forest_unpacked :
    ∃ d : Document Unit Unit, Reachable d ∧ d.children 3 = [1] ∧ d.parent? 2 = none ∧
      d.parent? 3 = none ∧ d.IsForest ∧ d.Writes [.node 3] "<p><a></a></p>" := by
  have h₀ : Reachable (empty : Document Unit Unit) := .empty
  have h₁ := h₀.step (.make .fragment) (by decide)
  have h₂ := h₁.step (.make (.element "a" .html)) (by decide)
  have h₃ := h₂.step (.make (.element "b" .html)) (by decide)
  have h₄ := h₃.step (.change 0 (.append 1)) (by decide)
  have h₅ := h₄.step (.change 0 (.append 2)) (by decide)
  have h₆ := h₅.step (.make (.element "p" .html)) (by decide)
  have h₇ := h₆.step (.change 3 (.insert 0 (some 2))) (by decide)
  have h := h₇.step (.change 1 (.append 3)) (by decide)
  obtain ⟨hforest, hloops⟩ := reachable_forest h
  obtain ⟨-, -, hwrites, -⟩ := hloops 3 (by decide)
  exact ⟨_, h, by decide, by decide, by decide, hforest, hwrites⟩

end Stencil.Document
