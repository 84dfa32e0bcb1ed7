/-
  Stencil/Proofs/Document/Splice.lean
  ===================================
  **Putting a node in is a splice.**

  `insertBefore` takes the moved nodes out of the lists that they stand in and puts them
  into one list as a block.  `Spliced` says which lists these are, that the block stands
  unbroken between a front and a back, and that nothing else is different.  Splices of
  neighbouring blocks compose (`Spliced.trans`), so a fragment, whose children are moved
  one by one, comes in as one block.

  The place of the block does not depend on where the nodes stood before.  A node that is
  moved inside its own parent leaves the list first, and the reference is looked for in
  what is left.
-/
import Stencil.Proofs.Document.Moves
import Stencil.Proofs.Document.Reachable

namespace Stencil.Document

variable {π η : Type} {d d₁ d' : Document π η} {p c f : NodeId} {ref : Option NodeId}
  {front back ms ms' rest : List NodeId}

/-- The nodes that move when `c` is put in: those in a fragment, or `c` itself. -/
def moved (d : Document π η) (c : NodeId) : List NodeId :=
  if d.isFragment c then d.children c else [c]

/-- From `d` to `d'` the nodes `ms` have become a block of children of `p`, between `front` and
    `back`, and nothing else has happened. -/
structure Spliced (d d' : Document π η) (p : NodeId) (front ms back : List NodeId) : Prop where
  before : (d.children p).filter (· ∉ ms) = front ++ back
  after : d'.children p = front ++ ms ++ back
  others : ∀ q, q ≠ p → d'.children q = (d.children q).filter (· ∉ ms)
  parent : ∀ x, d'.parent? x = if x ∈ ms then some p else d.parent? x
  content : ∀ x, d'.content? x = d.content? x
  same : ∀ x, x ≠ p → x ∉ ms → (∀ m ∈ ms, d.parent? m ≠ some x) → d'.node? x = d.node? x

namespace Spliced

theorem refl (h : d.children p = front ++ back) : Spliced d d p front [] back where
  before := by simp [h]
  after := by simp [h]
  others q _ := by simp
  parent x := by simp
  content _ := rfl
  same _ _ _ _ := rfl

theorem filter_filter_not_mem (l ms ms' : List NodeId) :
    (l.filter (· ∉ ms)).filter (· ∉ ms') = l.filter (· ∉ ms ++ ms') := by
  rw [List.filter_filter]
  apply List.filter_congr
  intro x _
  by_cases hx : x ∈ ms <;> simp [hx]

/-- Two blocks, the second directly behind the first. -/
theorem trans (h : Spliced d d₁ p front ms back) (h' : Spliced d₁ d' p (front ++ ms) ms' back) :
    Spliced d d' p front (ms ++ ms') back where
  before := by
    -- the second block was not among the children of `p` when it came in
    have hout := h'.before
    rw [h.after, List.filter_eq_self] at hout
    rw [← filter_filter_not_mem, h.before, List.filter_eq_self]
    intro x hx
    apply hout x
    rcases List.mem_append.mp hx with hx | hx <;> simp [hx]
  after := by
    rw [h'.after]
    simp only [List.append_assoc]
  others q hq := by rw [h'.others q hq, h.others q hq, filter_filter_not_mem]
  parent x := by
    rw [h'.parent, h.parent]
    by_cases hx : x ∈ ms <;> by_cases hx' : x ∈ ms' <;> simp [hx, hx']
  content x := (h'.content x).trans (h.content x)
  same x hp hx hparent := by
    simp only [List.mem_append, not_or] at hx
    have hfirst : d₁.node? x = d.node? x :=
      h.same x hp hx.1 fun m hm => hparent m (List.mem_append_left _ hm)
    rw [← hfirst]
    apply h'.same x hp hx.2
    intro m hm heq
    rw [h.parent] at heq
    split at heq
    · exact hp (Option.some.inj heq).symm
    · exact hparent m (List.mem_append_right _ hm) heq

end Spliced

/-! ### One node -/

/-- A list cut in front of a reference, or behind its end. -/
theorem exists_cut (l : List NodeId) (href : ∀ r, ref = some r → r ∈ l) :
    ∃ front back, l = front ++ back ∧ back.head? = ref := by
  cases ref with
  | none => exact ⟨l, [], by simp, rfl⟩
  | some r =>
    obtain ⟨front, back, heq, -⟩ := List.eq_append_cons_of_mem (href r rfl)
    exact ⟨front, r :: back, heq, rfl⟩

theorem insertAt_cut (hnodup : (front ++ back).Nodup) (hhead : back.head? = ref) (c : NodeId) :
    insertAt (front ++ back) c ref = front ++ [c] ++ back := by
  cases back with
  | nil =>
    obtain rfl : none = ref := hhead
    simp [insertAt_none]
  | cons r back =>
    obtain rfl : some r = ref := hhead
    have hr : r ∉ front := by
      intro hr
      exact (List.nodup_append.mp hnodup).2.2 r hr r List.mem_cons_self rfl
    rw [insertAt_before hr]
    simp

theorem spliced_node (h : d.IsForest) (hfit : d.Fits p c ref)
    (hcut : (d.children p).filter (· != c) = front ++ back) (hhead : back.head? = ref) :
    d.Spliced (d.insertBefore p c ref) p front [c] back := by
  have hout (l : List NodeId) : l.filter (· ∉ [c]) = l.filter (· != c) := by
    apply List.filter_congr
    intro x _
    by_cases hx : x = c <;> simp [hx]
  constructor
  · rw [hout, hcut]
  · have hnodup := (h.nodup_children p).filter (· != c)
    rw [hcut] at hnodup
    rw [children_insertBefore h hfit, if_pos rfl, hcut, insertAt_cut hnodup hhead]
  · intro q hq
    rw [children_insertBefore h hfit, if_neg hq, hout]
  · intro x
    rw [parent?_insertBefore h hfit]
    simp
  · exact content?_insertBefore d p c ref
  · intro x hp hx hparent
    rw [node?_insertBefore h hfit]
    rcases hn : d.node? x with _ | n
    · rfl
    · have hnot : c ∉ n.children := by
        intro hc
        rw [← children_of_node? hn] at hc
        exact hparent c (by simp) (h.parent?_of_mem hc)
      have hne : x ≠ c := by simpa using hx
      simp [hp, hne, filter_ne_of_not_mem hnot]

/-! ### A fragment -/

/-- The nodes of a fragment come in one behind the other. -/
theorem Unpacks.spliced (h : d.Unpacks f p rest) (hcut : d.children p = front ++ back)
    (hhead : back.head? = ref) :
    d.Spliced (rest.foldl (fun d g => d.unpackChild p ref g) d) p front rest back := by
  induction rest generalizing d front with
  | nil => exact .refl hcut
  | cons g rest ih =>
    have hgp : g ∉ d.children p := by
      intro hg
      have hparent := h.parent?_eq.symm.trans (h.forest.parent?_of_mem hg)
      exact h.notAbove (Or.inl (Option.some.inj hparent))
    have hne : some g ≠ ref := by
      intro heq
      apply hgp
      rw [hcut]
      exact List.mem_append_right _ (List.mem_of_mem_head? (hhead.trans heq.symm))
    have hmove : d.unpackChild p ref g = d.insertBefore p g ref := by rw [unpackChild, if_neg hne]
    have hcut' : (d.children p).filter (· != g) = front ++ back := by
      rw [filter_ne_of_not_mem hgp, hcut]
    have hfirst : d.Spliced (d.unpackChild p ref g) p front [g] back := by
      rw [hmove]
      exact spliced_node h.forest (h.fits hne) hcut' hhead
    exact hfirst.trans (ih (h.next ref) hfirst.after)

/-! ### Any node -/

/-- **Putting a node in is an exact splice.**  A node does not enter its own subtree: then nothing
    happens.  Otherwise the moved nodes leave the lists that they stand in and become one block of
    children of `p`, directly in front of the reference or, without one, at the end.  A fragment is
    left empty.  Nothing else changes. -/
theorem insertBefore_splice (h : Reachable d) {p c : Nat} (hp : p < d.size) (hc : c < d.size)
    (ref : Option NodeId) (href : ∀ r, ref = some r → r ∈ d.children p ∧ r ≠ c) :
    (d.AncestorOrSelf c p → d.insertBefore p c ref = d) ∧
      (¬ d.AncestorOrSelf c p →
        (∃ front back, d.Spliced (d.insertBefore p c ref) p front (d.moved c) back ∧
          back.head? = ref) ∧
        (d.isFragment c = true → (d.insertBefore p c ref).children c = [])) := by
  have hforest := h.isForest
  have hne : some c ≠ ref := by
    intro heq
    exact (href c heq.symm).2 rfl
  constructor
  · intro habove
    apply insertBefore_refused
    have hlineage : (d.lineage p).contains c = true := by
      rw [List.contains_iff_mem, hforest.mem_lineage_iff hp]
      exact habove
    rw [hlineage, Bool.or_true]
  · intro habove
    cases hf : d.isFragment c with
    | true =>
      obtain ⟨front, back, hcut, hhead⟩ := exists_cut (d.children p) fun r hr => (href r hr).1
      have hunpacks := unpacks hforest hf hp habove
      have hmoved : d.moved c = d.children c := by rw [moved, hf, if_pos rfl]
      rw [insertBefore_fragment hforest hf hp hne habove, hmoved]
      refine ⟨⟨front, back, hunpacks.spliced hcut hhead, hhead⟩, fun _ => ?_⟩
      exact (hunpacks.foldl ref).2.children_eq
    | false =>
      have hfit : d.Fits p c ref := ⟨hp, hc, hf, hne, habove⟩
      have hmoved : d.moved c = [c] := by
        rw [moved, hf]
        simp
      have hstays : ∀ r, ref = some r → r ∈ (d.children p).filter (· != c) := by
        intro r hr
        obtain ⟨hr, hrc⟩ := href r hr
        exact List.mem_filter.mpr ⟨hr, by simpa using hrc⟩
      obtain ⟨front, back, hcut, hhead⟩ := exists_cut _ hstays
      rw [hmoved]
      exact ⟨⟨front, back, spliced_node hforest hfit hcut hhead, hhead⟩, nofun⟩

/-- The fragment `3` with two elements is put into `0` between its children; then the last child of
    `0` is moved to the front, and `0` is not put into a child of its own. -/
theorem insertBefore_splice_unpacked :
    ∃ d : Document Unit Unit, Reachable d ∧ d.children 0 = [1, 2] ∧ d.children 3 = [4, 5] ∧
      (∃ front back, d.Spliced (d.insertBefore 0 3 (some 2)) 0 front [4, 5] back ∧
        back.head? = some 2) ∧
      (d.insertBefore 0 3 (some 2)).children 0 = [1, 4, 5, 2] ∧
      (∃ front back, d.Spliced (d.insertBefore 0 2 (some 1)) 0 front [2] back ∧
        back.head? = some 1) ∧
      d.insertBefore 1 0 none = d := by
  have h₀ : Reachable (empty : Document Unit Unit) := .empty
  have h₁ := h₀.step (.make (.element "ul" .html)) (by decide)
  have h₂ := h₁.step (.make (.element "li" .html)) (by decide)
  have h₃ := h₂.step (.make (.text "last")) (by decide)
  have h₄ := h₃.step (.make .fragment) (by decide)
  have h₅ := h₄.step (.make (.element "b" .html)) (by decide)
  have h₆ := h₅.step (.make (.element "i" .html)) (by decide)
  have h₇ := h₆.step (.change 0 (.append 1)) (by decide)
  have h₈ := h₇.step (.change 0 (.append 2)) (by decide)
  have h₉ := h₈.step (.change 3 (.append 4)) (by decide)
  have h := h₉.step (.change 3 (.append 5)) (by decide)
  obtain ⟨-, hfragment⟩ := insertBefore_splice h (p := 0) (c := 3)
    (by decide) (by decide) (some 2) (by rintro r ⟨⟩; decide)
  obtain ⟨-, hnode⟩ := insertBefore_splice h (p := 0) (c := 2)
    (by decide) (by decide) (some 1) (by rintro r ⟨⟩; decide)
  obtain ⟨hrefused, -⟩ := insertBefore_splice h (p := 1) (c := 0)
    (by decide) (by decide) none nofun
  obtain ⟨hblock, -⟩ := hfragment (not_ancestorOrSelf_root (by decide) (by decide))
  obtain ⟨hblock', -⟩ := hnode (not_ancestorOrSelf_root (by decide) (by decide))
  exact ⟨_, h, by decide, by decide, hblock, by decide, hblock',
    hrefused (Or.inr (.parent (by decide)))⟩

end Stencil.Document
