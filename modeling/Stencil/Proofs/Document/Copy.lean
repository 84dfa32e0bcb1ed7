/-
  Stencil/Proofs/Document/Copy.lean
  =================================
  **Copying a subtree.**

  The copy of a plant is the plant numbered anew, from the first free number on and in
  document order, without properties and listeners (`Plant.copyAt`).  `copy_spec` says
  that this is what `Document.copy` adds to a forest, and that it changes no node that
  was there before.  The bound of `Document.copyUpTo` on the depth is never reached.
-/
import Stencil.Proofs.Document.Plant

namespace Stencil.Document

variable {π η : Type} {d d' : Document π η}

namespace Plant

mutual

/-- A plant numbered anew, from `base` on. -/
def copyAt (base : Nat) : Plant π η → Plant π η
  | node _ c cs => node base c.copy (copyAllAt (base + 1) cs)

/-- Plants numbered anew, one after the other. -/
def copyAllAt (base : Nat) : List (Plant π η) → List (Plant π η)
  | [] => []
  | t :: ts => t.copyAt base :: copyAllAt (base + t.ids.length) ts

end

theorem root_copyAt (base : Nat) (t : Plant π η) : (t.copyAt base).root = base := by
  cases t
  rfl

theorem idsAll_copyAllAt (base : Nat) (ts : List (Plant π η)) :
    idsAll (copyAllAt base ts) = List.range' base (idsAll ts).length := by
  induction ts using Plant.induct generalizing base with
  | nil => rfl
  | cons id c cs ts ihc iht =>
    have hnext : base + (node id c cs).ids.length = base + 1 + (idsAll cs).length := by
      rw [ids, List.length_cons]
      omega
    have hlen : (idsAll (node id c cs :: ts)).length =
        (idsAll cs).length + (idsAll ts).length + 1 := by
      simp only [idsAll, ids, List.cons_append, List.length_cons, List.length_append]
    rw [hlen, List.range'_succ, copyAllAt, idsAll, copyAt, ids, ihc, iht, hnext, List.cons_append,
      List.range'_append_1]

end Plant

open Plant

theorem kind_copy (c : Content π η) : c.copy.kind = c.kind := by
  cases c <;> rfl

/-- A node that stands under a parent in a forest is no fragment. -/
theorem AllStand.kind_ne {p id : NodeId} {c : Content π η} {cs ts : List (Plant π η)}
    (h : d.AllStand (some p) (node id c cs :: ts)) (hforest : d.IsForest) :
    c.kind ≠ .fragment := by
  intro hkind
  have hfragment : d.isFragment id = true := by
    rw [isFragment_of_node? h.1.node?_eq]
    simpa using hkind
  have hroot := hforest.fragment_root id hfragment
  rw [parent?_of_node? h.1.node?_eq] at hroot
  cases hroot

/-- One step of copying children: the copy of a child is linked to the copy of its parent. -/
theorem link_eq (h : d.IsForest) {p c : NodeId} (hfit : d.Fits p c none)
    (hc : d.parent? c = none) :
    ((d.update c fun m => { m with parent := some p }).update p fun m =>
      { m with children := m.children ++ [c] }) = d.insertBefore p c none := by
  have hne : p ≠ c := fun heq => hfit.notAbove (Or.inl heq.symm)
  apply ext_node?
  intro x
  rw [node?_insertBefore_root h hfit hc, node?_update, node?_update]
  rcases hx : d.node? x with _ | n
  · simp
  · by_cases hxp : p = x
    · subst hxp
      simp [insertAt_none, hne, Ne.symm hne]
    · by_cases hxc : c = x
      · subst hxc
        simp [hne, Ne.symm hne]
      · simp [hxp, hxc, Ne.symm hxp, Ne.symm hxc]

/-- Copying the children of a node: their copies stand under the node `top`, behind those it
    has, and all other nodes are as before. -/
theorem foldl_copyUpTo {ts : List (Plant π η)} : ∀ {d : Document π η} {n p top : Nat}
    {c : Content π η} {front : List NodeId}, d.IsForest → d.AllStand (some p) ts →
    (idsAll ts).length ≤ n → d.node? top = some ⟨c, none, front⟩ → top ∉ idsAll ts →
    ∃ d', (roots ts).foldl
        (fun d child =>
          let (c, d) := copyUpTo n d child
          (d.update c fun m => { m with parent := some top }).update top fun m =>
            { m with children := m.children ++ [c] }) d = d' ∧
      d'.IsForest ∧ d'.size = d.size + (idsAll ts).length ∧
      d'.node? top = some ⟨c, none, front ++ roots (copyAllAt d.size ts)⟩ ∧
      d'.AllStand (some top) (copyAllAt d.size ts) ∧
      ∀ x : Nat, x < d.size → x ≠ top → d'.node? x = d.node? x := by
  induction ts using Plant.induct with
  | nil =>
    intro d n p top c front h _ _ htop _
    exact ⟨d, rfl, h, rfl, by simpa [copyAllAt] using htop, trivial, fun _ _ _ => rfl⟩
  | cons id content cs ts ihc iht =>
    intro d n p top c front h hstand hn htop hmem
    have hkind := hstand.kind_ne h
    have hlt {x : Nat} (hx : x ∈ idsAll (node id content cs :: ts)) := hstand.lt_size hx
    obtain ⟨⟨hnode, hcs⟩, hts⟩ := hstand
    have htoplt : top < d.size := lt_size_of_node? htop
    simp only [idsAll, ids, List.cons_append, List.length_cons, List.length_append,
      List.mem_cons, List.mem_append, not_or] at hn hmem hlt
    obtain ⟨-, hmemc, hmemt⟩ := hmem
    obtain ⟨m, rfl⟩ : ∃ m, n = m + 1 := ⟨n - 1, by omega⟩
    -- the new node, and below it the copies of the children
    obtain ⟨d₁, hd₁⟩ : ∃ d₁, d₁ = (d.create content.copy).2 := ⟨_, rfl⟩
    have h₁ : d₁.IsForest := hd₁ ▸ h.create _
    have hsize₁ : d₁.size = d.size + 1 := by rw [hd₁, size_create]
    have hkeep₁ (x : Nat) (hx : x < d.size) : d₁.node? x = d.node? x := by
      rw [hd₁, node?_create, if_neg (Nat.ne_of_lt hx)]
    have hcs₁ : d₁.AllStand (some id) cs :=
      hcs.congr fun x hx => hkeep₁ x (hlt (Or.inr (Or.inl hx)))
    have hnew : d₁.node? d.size = some ⟨content.copy, none, []⟩ := by
      rw [hd₁, node?_create, if_pos rfl]
    obtain ⟨d₂, hfold, h₂, hsize₂, htop₂, hstand₂, hkeep₂⟩ :=
      ihc (n := m) h₁ hcs₁ (by omega) hnew
        (fun hx => Nat.lt_irrefl _ (hlt (Or.inr (Or.inl hx))))
    rw [hsize₁] at hsize₂ hkeep₂ htop₂ hstand₂
    have hcopy : copyUpTo (m + 1) d id = (d.size, d₂) := by
      rw [copyUpTo, hnode]
      rw [hd₁] at hfold
      exact Prod.ext rfl hfold
    have hkeep₂' (x : Nat) (hx : x < d.size) : d₂.node? x = d.node? x := by
      rw [hkeep₂ x (by omega) (Nat.ne_of_lt hx), hkeep₁ x hx]
    -- the copy is linked to its parent
    have htop₂' : d₂.node? top = some ⟨c, none, front⟩ := (hkeep₂' top htoplt).trans htop
    have hfit : d₂.Fits top d.size none := by
      refine ⟨by omega, by omega, ?_, by simp, ?_⟩
      · rw [isFragment_of_node? htop₂, kind_copy]
        simpa using hkind
      · exact not_ancestorOrSelf_root (parent?_of_node? htop₂') (Nat.ne_of_gt htoplt)
    have hroot : d₂.parent? d.size = none := parent?_of_node? htop₂
    obtain ⟨d₃, hd₃⟩ : ∃ d₃, d₃ = d₂.insertBefore top d.size none := ⟨_, rfl⟩
    have h₃ : d₃.IsForest := hd₃ ▸ h₂.insertBefore hfit
    have hsize₃ : d₃.size = d.size + (1 + (idsAll cs).length) := by
      rw [hd₃, size_insertBefore h₂ hfit, hsize₂]
      omega
    have hkeep₃ (x : Nat) (hx : x ≠ top) (hxc : x ≠ d.size) : d₃.node? x = d₂.node? x := by
      rw [hd₃, node?_insertBefore_root h₂ hfit hroot]
      simp [hx, hxc]
    have htop₃ : d₃.node? top = some ⟨c, none, front ++ [d.size]⟩ := by
      rw [hd₃, node?_insertBefore_root h₂ hfit hroot, htop₂']
      simp [insertAt_none, Nat.ne_of_lt htoplt]
    have hcopy₃ : d₃.Stands (some top) ((node id content cs).copyAt d.size) := by
      refine ⟨?_, hstand₂.congr fun x hx => ?_⟩
      · rw [hd₃, node?_insertBefore_root h₂ hfit hroot, htop₂]
        simp [Nat.ne_of_gt htoplt]
      · rw [idsAll_copyAllAt, List.mem_range'_1] at hx
        exact hkeep₃ x (by omega) (by omega)
    have hts₃ : d₃.AllStand (some p) ts := by
      refine hts.congr fun x hx => ?_
      have hx' : x < d.size := hlt (Or.inr (Or.inr hx))
      rw [hkeep₃ x (fun heq => hmemt (heq ▸ hx)) (Nat.ne_of_lt hx'), hkeep₂' x hx']
    obtain ⟨d', hfold', h', hsize', htop', hstand', hkeep'⟩ :=
      iht (n := m + 1) h₃ hts₃ (by omega) htop₃ hmemt
    have hbase : d.size + (node id content cs).ids.length = d₃.size := by
      rw [hsize₃, ids, List.length_cons]
      omega
    refine ⟨d', ?_, h', ?_, ?_, ?_, ?_⟩
    · rw [hd₃, ← link_eq h₂ hfit hroot] at hfold'
      rw [roots, List.map_cons, List.foldl_cons, Plant.root, hcopy]
      exact hfold'
    · simp only [idsAll, ids, List.cons_append, List.length_cons, List.length_append]
      omega
    · rw [htop', copyAllAt, hbase]
      simp only [List.map_cons, root_copyAt, List.append_assoc, List.singleton_append]
    · rw [copyAllAt, hbase]
      refine ⟨?_, hstand'⟩
      refine hcopy₃.congr fun x hx => hkeep' x (hcopy₃.lt_size hx) ?_
      have hx' : x ∈ idsAll (copyAllAt d.size [node id content cs]) := by
        simpa [copyAllAt] using hx
      rw [idsAll_copyAllAt, List.mem_range'_1] at hx'
      omega
    · intro x hx hxtop
      rw [hkeep' x (by omega) hxtop, hkeep₃ x hxtop (Nat.ne_of_lt hx), hkeep₂' x hx]

/-- A copy is new, stands on its own and changes nothing else. -/
theorem copy_spec (h : d.IsForest) {parent : Option NodeId} {t : Plant π η}
    (hstand : d.Stands parent t) :
    ∃ d', d.copy t.root = (d.size, d') ∧ d'.IsForest ∧ d'.size = d.size + t.ids.length ∧
      d'.Stands none (t.copyAt d.size) ∧ ∀ x : Nat, x < d.size → d'.node? x = d.node? x := by
  have hlen := hstand.length_ids_le h
  obtain ⟨id, c, cs⟩ := t
  obtain ⟨hnode, hcs⟩ := hstand
  have hlt (x : Nat) (hx : x ∈ idsAll cs) : x < d.size := hcs.lt_size hx
  have hkeep₁ (x : Nat) (hx : x < d.size) : (d.create c.copy).2.node? x = d.node? x := by
    rw [node?_create, if_neg (Nat.ne_of_lt hx)]
  have hcs₁ : (d.create c.copy).2.AllStand (some id) cs :=
    hcs.congr fun x hx => hkeep₁ x (hlt x hx)
  have hnew : (d.create c.copy).2.node? d.size = some ⟨c.copy, none, []⟩ := by
    rw [node?_create, if_pos rfl]
  rw [ids, List.length_cons] at hlen
  obtain ⟨d', hfold, h', hsize, htop, hstand', hkeep⟩ :=
    foldl_copyUpTo (n := d.size) (h.create _) hcs₁ (by omega) hnew
      (fun hx => Nat.lt_irrefl _ (hlt _ hx))
  rw [size_create] at hsize hkeep htop hstand'
  refine ⟨d', ?_, h', ?_, ⟨htop, hstand'⟩, fun x hx => ?_⟩
  · rw [Document.copy, Plant.root, copyUpTo, hnode]
    exact Prod.ext rfl hfold
  · rw [hsize, ids, List.length_cons]
    omega
  · rw [hkeep x (by omega) (Nat.ne_of_lt hx), hkeep₁ x hx]

end Stencil.Document
