/-
  Stencil/Proofs/Markup/Elements.lean
  ===================================
  **The elements of a tree, and their slots.**

  `elementsOf` lists the elements of a tree with what stands in them, parents before
  children.  The slots of a parsed literal are counted through in the order of the start
  tags (`Numbered`), which is the same order (`Numbered.slots_eq`).
-/
import Stencil.Proofs.Markup.WellNested

namespace Stencil.Markup

/-! ### Elements -/

mutual

/-- The elements of a tree, each with what stands in it. -/
def elementsOf : Node → List (Tag × List Node)
  | .text _ => []
  | .hole _ => []
  | .element tag children => (tag, children) :: elementsOfAll children

/-- The elements of several trees. -/
def elementsOfAll : List Node → List (Tag × List Node)
  | [] => []
  | n :: ns => elementsOf n ++ elementsOfAll ns

end

mutual

/-- What stands in an element of a tree is part of the tree. -/
theorem mem_elementsOf {n : Node} {e e' : Tag × List Node} (he : e ∈ elementsOf n)
    (he' : e' ∈ elementsOfAll e.2) : e' ∈ elementsOf n := by
  match n with
  | .text _ => exact absurd he List.not_mem_nil
  | .hole _ => exact absurd he List.not_mem_nil
  | .element tag children =>
    rcases List.mem_cons.mp he with rfl | he
    · exact List.mem_cons_of_mem _ he'
    · exact List.mem_cons_of_mem _ (mem_elementsOfAll he he')

theorem mem_elementsOfAll {nodes : List Node} {e e' : Tag × List Node}
    (he : e ∈ elementsOfAll nodes) (he' : e' ∈ elementsOfAll e.2) : e' ∈ elementsOfAll nodes := by
  match nodes with
  | [] => exact absurd he List.not_mem_nil
  | n :: ns =>
    rcases List.mem_append.mp he with he | he
    · exact List.mem_append_left _ (mem_elementsOf he he')
    · exact List.mem_append_right _ (mem_elementsOfAll he he')

end

theorem elementsOfAll_append (ns ms : List Node) :
    elementsOfAll (ns ++ ms) = elementsOfAll ns ++ elementsOfAll ms := by
  induction ns with
  | nil => rfl
  | cons n ns ih => rw [List.cons_append, elementsOfAll, elementsOfAll, ih, List.append_assoc]

/-- The elements among some nodes are elements of the trees. -/
theorem mem_elementsOfAll_of_mem {ns : List Node} {tag : Tag} {children : List Node}
    (h : .element tag children ∈ ns) : (tag, children) ∈ elementsOfAll ns := by
  induction ns with
  | nil => cases h
  | cons n ns ih =>
    rw [elementsOfAll, List.mem_append]
    rcases List.mem_cons.mp h with rfl | h
    · exact Or.inl List.mem_cons_self
    · exact Or.inr (ih h)

/-! ### Slots -/

/-- `Numbered k ns j`: counted from `k`, the capitalized elements of `ns` have their slots in
    the order of their start tags, and `j` is the next one. -/
inductive Numbered : Nat → List Node → Nat → Prop where
  | nil {k : Nat} : Numbered k [] k
  | text {k j : Nat} {ns : List Node} (value : String) (h : Numbered k ns j) :
      Numbered k (.text value :: ns) j
  | hole {k j : Nat} {ns : List Node} (i : Nat) (h : Numbered k ns j) :
      Numbered k (.hole i :: ns) j
  | element {k i j : Nat} {tag : Tag} {children ns : List Node}
      (htag : tag.slot = if Text.startsCapital tag.name then some k else none)
      (hchildren : Numbered (Phrase.slotAfter tag.name k) children i) (h : Numbered i ns j) :
      Numbered k (.element tag children :: ns) j

namespace Numbered

theorem append {k i j : Nat} {ns ms : List Node} (h : Numbered k ns i) (h' : Numbered i ms j) :
    Numbered k (ns ++ ms) j := by
  induction h with
  | nil => exact h'
  | text value _ ih => exact .text value (ih h')
  | hole i _ ih => exact .hole i (ih h')
  | element htag hchildren _ _ ih => exact .element htag hchildren (ih h')

theorem le {k j : Nat} {ns : List Node} (h : Numbered k ns j) : k ≤ j := by
  induction h with
  | nil => exact Nat.le_refl _
  | text _ _ ih => exact ih
  | hole _ _ ih => exact ih
  | @element k i j tag _ _ _ _ _ ihchildren ih =>
    have hafter : k ≤ Phrase.slotAfter tag.name k := by
      rw [Phrase.slotAfter]
      split <;> omega
    exact Nat.le_trans hafter (Nat.le_trans ihchildren ih)

/-- In document order the slots are those from `k` up to `j`. -/
theorem slots_eq {k j : Nat} {ns : List Node} (h : Numbered k ns j) :
    (elementsOfAll ns).filterMap (·.1.slot) = List.range' k (j - k) := by
  have hjoin {a b c : Nat} (hab : a ≤ b) (hbc : b ≤ c) :
      List.range' a (b - a) ++ List.range' b (c - b) = List.range' a (c - a) := by
    have hb : a + (b - a) = b := by omega
    have hc : b - a + (c - b) = c - a := by omega
    have happend := List.range'_append_1 (s := a) (m := b - a) (n := c - b)
    rwa [hb, hc] at happend
  induction h with
  | nil => simp [elementsOfAll]
  | text value _ ih => simpa [elementsOfAll, elementsOf] using ih
  | hole i _ ih => simpa [elementsOfAll, elementsOf] using ih
  | @element k i j tag children ns htag hchildren hrest ihchildren ih =>
    have hki := hchildren.le
    have hij := hrest.le
    rw [elementsOfAll, elementsOf, List.cons_append, List.filterMap_cons, List.filterMap_append,
      ihchildren, ih, htag]
    unfold Phrase.slotAfter at hki ⊢
    split at hki
    · rename_i hcapital
      have hlen : j - k = j - (k + 1) + 1 := by omega
      simp only [if_pos hcapital, hjoin hki hij]
      rw [hlen, List.range'_succ]
    · rename_i hlower
      simp only [if_neg hlower, hjoin hki hij]

end Numbered

mutual

theorem numbered_nodes (around : Option Tag) : ∀ (p : Phrase) (k : Nat),
    Numbered k (p.nodes around k).1 (p.nodes around k).2
  | .text value kept, _ => by
    rw [Phrase.nodes]
    split
    · exact .text _ .nil
    · exact .nil
  | .hole i, _ => .hole i .nil
  | .commentHole _, _ => .nil
  | .idle _ _, _ => .nil
  | .leaf _ _ _ _, _ => .element rfl .nil .nil
  | .element _ _ _ content _ _, _ => .element rfl (numbered_nodesAll _ content _) .nil

theorem numbered_nodesAll (around : Option Tag) : ∀ (ps : List Phrase) (k : Nat),
    Numbered k (Phrase.nodesAll around k ps).1 (Phrase.nodesAll around k ps).2
  | [], _ => .nil
  | p :: ps, k => (numbered_nodes around p k).append (numbered_nodesAll around ps _)

end

/-- The slots of a parsed literal. -/
theorem numbered_of_parseTokens {void : NameSet} {ts : List Token} {t : Template}
    (h : parseTokens void ts = .ok t) : Numbered (rootSlot + 1) t.children t.slotCount := by
  obtain ⟨ls, ps, -, -, rfl⟩ := exists_derives_of_parseTokens h
  exact numbered_nodesAll none ps (rootSlot + 1)

end Stencil.Markup
