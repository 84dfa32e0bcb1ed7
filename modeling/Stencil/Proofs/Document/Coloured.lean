/-
  Stencil/Proofs/Document/Coloured.lean
  =====================================
  **Coloured documents that grow.**

  The colours of a document say which nodes belong together (`Colouring.Sorted`).  When
  the document grows, the new nodes are linked with each other only, so they can be given
  any colour, or none (`Colouring.Sorted.extend`).  What has no colour is not touched:
  its trees stay (`Colouring.Sorted.tree_eq`).
-/
import Stencil.Proofs.Document.Moves
import Stencil.Proofs.Document.Regrow

namespace Stencil.Document

variable {π η ι : Type} {d d' : Document π η} {g : Colouring ι}

/-- Below a node without a colour nothing has one. -/
theorem AllStand.colour_none (hsorted : g.Sorted d) {parent : Option NodeId} {ts : List (Plant π η)}
    (h : d.AllStand parent ts) (hroots : ∀ x ∈ Plant.roots ts, g.colour x = none) :
    ∀ x ∈ Plant.idsAll ts, g.colour x = none := by
  induction ts using Plant.induct generalizing parent with
  | nil => exact fun x hx => absurd hx List.not_mem_nil
  | cons id c cs ts ihc iht =>
    obtain ⟨⟨hnode, hcs⟩, hts⟩ := h
    obtain ⟨hid, hrest⟩ := List.forall_mem_cons.mp hroots
    have hbelow : ∀ x ∈ Plant.roots cs, g.colour x = none := by
      intro x hx
      refine hsorted.child_none hid ?_
      rw [Plant.root, children_of_node? hnode]
      exact hx
    refine List.forall_mem_append.mpr ⟨List.forall_mem_cons.mpr ⟨hid, ?_⟩, iht hts hrest⟩
    exact ihc hcs hbelow

/-- A tree without a colour is what it was if all such nodes are. -/
theorem Colouring.Sorted.tree_eq (hsorted : g.Sorted d) (hforest : d.IsForest)
    (hforest' : d'.IsForest) (hsame : ∀ x : Nat,
      x < d.size → g.colour x = none → d'.node? x = d.node? x) {root : Nat}
    (hroot : root < d.size) (hcolour : g.colour root = none) : d'.tree root = d.tree root := by
  obtain ⟨t, rfl, hstand⟩ := hforest.exists_stands hroot
  have hnone := hstand.alone.colour_none hsorted (List.forall_mem_singleton.mpr hcolour)
  rw [Plant.idsAll_single] at hnone
  have hstand' : d'.Stands (d.parent? t.root) t :=
    hstand.congr fun x hx => hsame x (hstand.lt_size hx) (hnone x hx)
  exact (hstand'.tree_eq hforest').trans (hstand.tree_eq hforest).symm

/-- New nodes are linked with each other only. -/
theorem Extends.parent_new (h : d.Extends d') (hforest : d.IsForest) {x p : Nat}
    (hp : d'.parent? x = some p) : d.size ≤ x ↔ d.size ≤ p := by
  have hold (y : Nat) (hy : y < d.size) : d'.parent? y = d.parent? y := by
    rw [parent?, h.same y hy, parent?]
  constructor
  · intro hx
    by_contra hlt
    have hchild := h.forest.mem_of_parent? hp
    rw [children, h.same p (Nat.not_le.mp hlt), ← children] at hchild
    exact absurd (lt_size_of_parent? (hforest.parent?_of_mem hchild)) (Nat.not_lt.mpr hx)
  · intro hp'
    by_contra hlt
    rw [hold x (Nat.not_le.mp hlt)] at hp
    exact absurd (hforest.parent_lt_size hp) (Nat.not_lt.mpr hp')

/-- A new element is what it was made as. -/
theorem of_element?_create {c : Content π η} {id : Nat} (hid : d.size ≤ id) {e : ElementData π η}
    (h : (d.create c).2.element? id = some e) : c = .element e := by
  rw [element?_eq_some, content?, node?_create] at h
  by_cases heq : id = d.size
  · simpa [heq] using h
  · rw [if_neg heq, node?_of_size_le hid] at h
    cases h

/-- A colouring in which the nodes from `n` up to `m` are of colour `c`. -/
def Colouring.extend (g : Colouring ι) (n m : Nat) (c : Option ι) : Colouring ι where
  colour := fun id : Nat => if id < n then g.colour id else if id < m then c else none
  opened := fun id : Nat => id < n ∧ g.opened id
  coloured id h := by
    rw [if_pos h.1]
    exact g.coloured id h.2

theorem Colouring.extend_old {n m : Nat} {c : Option ι} {id : Nat} (h : id < n) :
    (g.extend n m c).colour id = g.colour id := if_pos h

theorem Colouring.extend_new {n m : Nat} {c : Option ι} {id : Nat} (hn : n ≤ id) (hm : id < m) :
    (g.extend n m c).colour id = c := by
  simp [Colouring.extend, Nat.not_lt.mpr hn, hm]

theorem Colouring.Sorted.extend (hsorted : g.Sorted d) (hforest : d.IsForest) (h : d.Extends d')
    (c : Option ι) : (g.extend d.size d'.size c).Sorted d' := by
  have hlink (p x : Nat) (hp : d'.parent? x = some p) :
      (g.extend d.size d'.size c).Links p x := by
    have hnew := h.parent_new hforest hp
    by_cases hx : x < d.size
    · have hp' : p < d.size := Nat.not_le.mp fun hle => absurd (hnew.mpr hle) (Nat.not_le.mpr hx)
      rw [parent?, h.same x hx, ← parent?] at hp
      rw [Colouring.Links, Colouring.extend_old hx, Colouring.extend_old hp']
      exact (hsorted.parent hp).imp id fun hopen => ⟨⟨hp', hopen.1⟩, hopen.2⟩
    · have hx' := Nat.not_lt.mp hx
      refine Or.inl ?_
      rw [Colouring.extend_new hx' (lt_size_of_parent? hp),
        Colouring.extend_new (hnew.mp hx') (h.forest.parent_lt_size hp)]
  intro x n hn
  refine ⟨fun p hp => hlink p x ?_, fun y hy => hlink x y (h.forest.parent?_of_mem ?_)⟩
  · rw [parent?_of_node? hn]
    exact hp
  · rw [children_of_node? hn]
    exact hy

end Stencil.Document
