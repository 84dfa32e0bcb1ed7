/-
  Stencil/Proofs/Template/Outcome.lean
  ====================================
  **What compiling leaves behind, whatever comes of it.**

  Compiling may end in an error half-way, and the nodes made so far stay.  In every case
  the new nodes are linked with each other only (`compile_adjoins`), a forest stays one, and
  the skeletons are among the new nodes (`compile_extends`).
-/
import Stencil.Proofs.Template.Skeleton

namespace Stencil

/-! ### New nodes -/

namespace Document

variable {π η : Type} {d d₁ d' : Document π η}

/-- All old nodes are as they were, and the new ones are linked with new ones only.  Nothing is
    asked of the old ones: they need not be a forest. -/
structure Adjoins (d d' : Document π η) : Prop where
  size_le : d.size ≤ d'.size
  same : ∀ x : Nat, x < d.size → d'.node? x = d.node? x
  links : ∀ (x : Nat) n, d.size ≤ x → d'.node? x = some n →
    (∀ p : Nat, n.parent = some p → d.size ≤ p) ∧ ∀ y : Nat, y ∈ n.children → d.size ≤ y

namespace Adjoins

theorem refl (d : Document π η) : Adjoins d d :=
  ⟨Nat.le_refl _, fun _ _ => rfl, fun _ _ hx hn => absurd (lt_size_of_node? hn) (Nat.not_lt.mpr hx)⟩

/-- One more node. -/
theorem create (h : Adjoins d d₁) (c : Content π η) : Adjoins d (d₁.create c).2 where
  size_le := by
    rw [size_create]
    exact Nat.le_succ_of_le h.size_le
  same x hx := by
    rw [node?_create, if_neg (Nat.ne_of_lt (Nat.lt_of_lt_of_le hx h.size_le)), h.same x hx]
  links x n hx hn := by
    rw [node?_create] at hn
    split at hn
    · obtain rfl := Option.some.inj hn
      exact ⟨nofun, nofun⟩
    · exact h.links x n hx hn

/-- One new node changed, in a way that links it with new nodes. -/
theorem update (h : Adjoins d d₁) {x : Nat} (hx : d.size ≤ x) (f : NodeData π η → NodeData π η)
    (hparent : ∀ n (p : Nat), (f n).parent = some p → n.parent = some p ∨ d.size ≤ p)
    (hchildren : ∀ n (y : Nat), y ∈ (f n).children → y ∈ n.children ∨ d.size ≤ y) :
    Adjoins d (d₁.update x f) where
  size_le := by
    rw [size_update]
    exact h.size_le
  same y hy := by
    rw [node?_update, if_neg (Nat.ne_of_gt (Nat.lt_of_lt_of_le hy hx)), h.same y hy]
  links y n hy hn := by
    rw [node?_update] at hn
    split at hn
    · obtain ⟨m, hm, rfl⟩ := Option.map_eq_some_iff.mp hn
      obtain ⟨hp, hc⟩ := h.links y m hy hm
      exact ⟨fun p hp' => (hparent m p hp').elim (hp p) id,
        fun z hz => (hchildren m z hz).elim (hc z) id⟩
    · exact h.links y n hy hn

/-- What putting a node without a parent, that is no fragment, at the end of another comes to. -/
theorem append_root {p c : NodeId} (hfragment : d₁.isFragment c = false)
    (hroot : d₁.parent? c = none) :
    d₁.append p c = d₁ ∨ d₁.append p c =
      (d₁.update p fun n => { n with children := insertAt n.children c none }).update c
        fun n => { n with parent := some p } := by
  rw [append, insertBefore, hfragment, if_neg (by simp), insertNode, detach, hroot]
  exact ite_eq_or_eq _ _ _

/-- A new node put at the end of another new one. -/
theorem append (h : Adjoins d d₁) {p c : Nat} (hp : d.size ≤ p) (hc : d.size ≤ c)
    (hfragment : d₁.isFragment c = false) (hroot : d₁.parent? c = none) :
    Adjoins d (d₁.append p c) ∧ (d₁.append p c).size = d₁.size := by
  rcases append_root (p := p) hfragment hroot with heq | heq
  · rw [heq]
    exact ⟨h, rfl⟩
  · rw [heq, size_update, size_update]
    have hput := h.update hp (fun n => { n with children := insertAt n.children c none })
      (fun _ _ hq => Or.inl hq) fun n y hy => by
        rcases mem_insertAt.mp hy with rfl | hy
        · exact Or.inr hc
        · exact Or.inl hy
    exact ⟨hput.update hc (fun n => { n with parent := some p })
      (fun _ _ hq => Or.inr (Option.some.inj hq ▸ hp)) fun _ _ hy => Or.inl hy, rfl⟩

end Adjoins
end Document

namespace Setup

open Document Document.Plant Markup

variable {κ α β : Type} {s : Setup κ} {d : Page}

/-- The document has grown from `d` on, and every skeleton is a new node. -/
structure Grown (d : Page) (w : Workshop) : Prop where
  adjoins : d.Adjoins w.page
  forest : d.IsForest → w.page.IsForest
  skeletons : ∀ root : Nat, some root ∈ w.skeletons → d.size ≤ root ∧ root < w.page.size

/-- A node made since `d`. -/
def IsNew (d : Page) (w : Workshop) (id : NodeId) : Prop :=
  (fun id : Nat => d.size ≤ id ∧ id < w.page.size) id

theorem IsNew.mono {w w' : Workshop} {id : NodeId} (h : IsNew d w id)
    (hsize : w.page.size ≤ w'.page.size) : IsNew d w' id :=
  ⟨h.1, Nat.lt_of_lt_of_le h.2 hsize⟩

/-- Whatever comes of the action, the document has grown; results have `Q`. -/
def Grows (d : Page) (w : Workshop) (x : Making α) (Q : α → Workshop → Prop) : Prop :=
  Grown d (x.run w).2 ∧ w.page.size ≤ (x.run w).2.page.size ∧
    ∀ a w', x.run w = (.ok a, w') → Q a w'

namespace Grows

variable {w : Workshop}

theorem pure (h : Grown d w) {a : α} {Q : α → Workshop → Prop} (ha : Q a w) :
    Grows d w (Pure.pure a) Q := by
  refine ⟨h, Nat.le_refl _, fun a' w' hrun => ?_⟩
  obtain ⟨rfl, rfl⟩ := making_pure_ok hrun
  exact ha

theorem bind {x : Making α} {g : α → Making β} {Q : α → Workshop → Prop} {R : β → Workshop → Prop}
    (hx : Grows d w x Q) (hg : ∀ a w', Grown d w' → w.page.size ≤ w'.page.size → Q a w' →
      Grows d w' (g a) R) : Grows d w (x >>= g) R := by
  obtain ⟨hgrown, hsize, hQ⟩ := hx
  rcases hrun : x.run w with ⟨r, w₁⟩
  rw [hrun] at hgrown hsize
  cases r with
  | ok a =>
    obtain ⟨hgrown', hsize', hR⟩ := hg a w₁ hgrown hsize (hQ a w₁ hrun)
    rw [Grows, making_bind hrun]
    exact ⟨hgrown', Nat.le_trans hsize hsize', hR⟩
  | error e =>
    have hfail : (x >>= g).run w = (.error e, w₁) := by
      change (match x.run w with | (r, w₁) => ExceptT.bindCont g r w₁) = _
      rw [hrun]
      rfl
    rw [Grows, hfail]
    exact ⟨hgrown, hsize, nofun⟩

theorem discard {x : Making α} {Q : α → Workshop → Prop} (hx : Grows d w x Q) :
    Grows d w (Functor.discard x) fun _ _ => True := by
  have heq : Functor.discard x = x >>= fun _ => Pure.pure PUnit.unit := by
    rw [Functor.discard, map_const]
    exact map_eq_pure_bind _ _
  rw [heq]
  exact hx.bind fun _ _ hgrown _ _ => pure hgrown trivial

end Grows

variable {w : Workshop}

theorem makeTop_grows (h : Grown d w) (ns : List Node) :
    Grows d w (s.makeTop ns) fun top w' => ∀ id, top = some id → IsNew d w' id := by
  rw [makeTop]
  split
  · have hsize : w.page.size ≤ (w.page.create .fragment).2.size := by simp
    refine Grows.bind (Q := fun id w' => IsNew d w' id) ⟨⟨h.adjoins.create _,
      fun hforest => (h.forest hforest).create _, fun root hroot => ?_⟩,
      hsize, fun id w' hrun => ?_⟩ fun id w' hgrown _ hid => .pure hgrown ?_
    · obtain ⟨hlow, hhigh⟩ := h.skeletons root hroot
      exact ⟨hlow, Nat.lt_of_lt_of_le hhigh hsize⟩
    · have heq : ((Except.ok w.page.size, { w with page := (w.page.create .fragment).2 }) :
          Except TemplateError NodeId × Workshop) = (.ok id, w') := hrun
      obtain ⟨rfl, rfl⟩ := by simpa using heq
      refine ⟨h.adjoins.size_le, ?_⟩
      simp
    · intro id' hid'
      obtain rfl := Option.some.inj hid'
      exact hid
  · refine .pure h fun id hid => ?_
    cases hid

theorem makeIn_grows (h : Grown d w) {p : NodeId} (hp : IsNew d w p) {c : Content Value Action}
    (hc : c.kind ≠ .fragment) : Grows d w (makeIn p c) fun id w' => IsNew d w' id := by
  obtain ⟨hold, hlt⟩ := hp
  have hnode : (w.page.create c).2.node? w.page.size = some ⟨c, none, []⟩ := by
    rw [node?_create, if_pos rfl]
  have hfragment : (w.page.create c).2.isFragment w.page.size = false := by
    rw [isFragment_of_node? hnode]
    simpa using hc
  obtain ⟨hadjoins, hsize⟩ := (h.adjoins.create c).append hold h.adjoins.size_le hfragment
    (parent?_of_node? hnode)
  have hmore : ((w.page.create c).2.append p w.page.size).size = w.page.size + 1 := by
    rw [hsize, size_create]
  rw [Grows, run_makeIn]
  refine ⟨⟨hadjoins, fun hforest => (Regrown.create (h.forest hforest) hlt hc).forest,
    fun root hmem => ?_⟩, ?_, fun id w' hrun => ?_⟩
  · obtain ⟨hlow, hhigh⟩ := h.skeletons root hmem
    exact ⟨hlow, by rw [hmore]; exact Nat.lt_succ_of_lt hhigh⟩
  · rw [hmore]
    exact Nat.le_succ _
  · obtain ⟨rfl, rfl⟩ := by simpa using hrun
    exact ⟨h.adjoins.size_le, by rw [hmore]; exact Nat.lt_succ_self _⟩

theorem checkComponent_grows (h : Grown d w) (tag : Tag) :
    Grows d w (s.checkComponent tag) fun _ _ => True := by
  rw [checkComponent]
  split
  · refine ⟨h, Nat.le_refl _, fun _ _ hrun => ?_⟩
    cases hrun
  · exact .pure h trivial

theorem fillSlot_grows (h : Grown d w) (slot : Option Nat) {top : Option NodeId}
    (htop : ∀ id, top = some id → IsNew d w id) :
    Grows d w (fillSlot slot top) fun _ _ => True := by
  cases slot with
  | none => exact .pure h trivial
  | some i =>
    refine ⟨⟨h.adjoins, h.forest, fun root hroot => ?_⟩, Nat.le_refl _, fun _ _ _ => trivial⟩
    have hmem : some root ∈ w.skeletons.set i top := hroot
    rcases List.mem_or_eq_of_mem_set hmem with hmem | heq
    · exact h.skeletons root hmem
    · exact htop root heq.symm

mutual

theorem buildNode_grows (s : Setup κ) : ∀ {w : Workshop} {parent : Option NodeId} (n : Node),
    Grown d w → (∀ p, parent = some p → IsNew d w p) →
      Grows d w (s.buildNode parent n) fun _ _ => True
  | w, parent, .text value, h, hparent => by
    unfold buildNode
    cases parent with
    | none => exact .pure h trivial
    | some p => exact (makeIn_grows h (hparent p rfl) (by simp [Content.kind])).discard
  | w, parent, .hole i, h, hparent => by
    unfold buildNode
    cases parent with
    | none => exact .pure h trivial
    | some p => exact (makeIn_grows h (hparent p rfl) (by simp [Content.kind])).discard
  | w, parent, .element tag children, h, hparent => by
    -- the content of a component goes to its own slot
    have hslot {w : Workshop} (h : Grown d w) : Grows d w (if tag.slot.isSome = true then do
        let top ← s.makeTop children
        s.buildNodes top children
        fillSlot tag.slot top else Pure.pure ()) fun _ _ => True := by
      split
      · refine (makeTop_grows h children).bind fun top w₁ h₁ _ htop => ?_
        refine (buildNodes_grows s children h₁ htop).bind fun _ w₂ h₂ hsize _ => ?_
        exact fillSlot_grows h₂ _ fun id hid => (htop id hid).mono hsize
      · exact .pure h trivial
    have hinner {w : Workshop} (inner : Option NodeId) (h : Grown d w)
        (hid : ∀ id, inner = some id → IsNew d w id) : Grows d w (match inner with
          | some id => s.buildNodes (some id) children
          | none => if tag.slot.isSome = true then do
              let top ← s.makeTop children
              s.buildNodes top children
              fillSlot tag.slot top else Pure.pure ()) fun _ _ => True := by
      cases inner with
      | none => exact hslot h
      | some id => exact buildNodes_grows s children h hid
    unfold buildNode
    cases parent with
    | none =>
      refine (Grows.pure (Q := fun inner _ => inner = none) h rfl).bind fun inner _ h₁ _ hnone => ?_
      exact hinner inner h₁ (hnone ▸ nofun)
    | some p =>
      refine (checkComponent_grows h tag).bind fun _ w₁ h₁ hsize _ => ?_
      have hp := (hparent p rfl).mono hsize
      split
      · refine (makeIn_grows h₁ hp (by simp [Content.kind])).bind fun _ w₂ h₂ _ _ => ?_
        refine (Grows.pure (Q := fun inner _ => inner = none) h₂ rfl).bind
          fun inner _ h₃ _ hnone => ?_
        exact hinner inner h₃ (hnone ▸ nofun)
      · refine (makeIn_grows h₁ hp (by simp [Content.kind])).bind fun id w₂ h₂ _ hid => ?_
        have hsome : ∀ id', some id = some id' → IsNew d w₂ id' := fun id' heq =>
          Option.some.inj heq ▸ hid
        refine (Grows.pure (Q := fun inner w' => ∀ id,
          inner = some id → IsNew d w' id) h₂ hsome).bind
          fun inner _ h₃ _ hall => ?_
        exact hinner inner h₃ hall

theorem buildNodes_grows (s : Setup κ) : ∀ {w : Workshop} {parent : Option NodeId} (ns : List Node),
    Grown d w → (∀ p, parent = some p → IsNew d w p) →
      Grows d w (s.buildNodes parent ns) fun _ _ => True
  | _, _, [], h, _ => .pure h trivial
  | w, parent, n :: ns, h, hparent => by
    rw [buildNodes]
    refine (buildNode_grows s n h hparent).bind fun _ w₁ h₁ hsize _ => ?_
    exact buildNodes_grows s ns h₁ fun p hp => (hparent p hp).mono hsize

end

theorem build_grows (s : Setup κ) (t : Template) (d : Page) :
    Grows d ⟨d, List.replicate t.slotCount none⟩ (s.build t)
      fun source w' => source.skeletons = w'.skeletons := by
  have hstart : Grown d ⟨d, List.replicate t.slotCount none⟩ :=
    ⟨.refl d, id, fun root hroot => by simp at hroot⟩
  rw [build]
  refine (makeTop_grows hstart _).bind fun top w₁ h₁ _ htop => ?_
  refine (buildNodes_grows s _ h₁ htop).bind fun _ w₂ h₂ hsize _ => ?_
  refine (fillSlot_grows h₂ _ fun id hid => (htop id hid).mono hsize).bind fun _ w₃ h₃ _ _ => ?_
  refine ⟨h₃, Nat.le_refl _, fun source w' hrun => ?_⟩
  have heq : ((Except.ok ⟨t, w₃.skeletons⟩, w₃) :
      Except TemplateError Compiled × Workshop) = (.ok source, w') := hrun
  obtain ⟨rfl, rfl⟩ := by simpa using heq
  rfl

/-- Compiling makes new nodes, and links none of them with an old one. -/
theorem compile_adjoins (s : Setup κ) (l : Literal) (d : Page) : d.Adjoins (s.compile l d).2 := by
  rw [compile]
  rcases l.parse s.config with e | tree
  · exact .refl d
  · exact (build_grows s tree d).1.adjoins

/-- Compiling makes new nodes, and its skeletons are among them. -/
theorem compile_extends (s : Setup κ) (l : Literal) (hforest : d.IsForest) :
    d.Extends (s.compile l d).2 ∧ ∀ source, (s.compile l d).1 = .ok source →
      ∀ (k : Nat) (root : Nat), source.skeleton? k = some root →
        d.size ≤ root ∧ root < (s.compile l d).2.size := by
  rw [compile]
  rcases l.parse s.config with e | tree
  · refine ⟨Extends.refl hforest, fun source hok => ?_⟩
    cases hok
  · obtain ⟨hgrown, -, hsource⟩ := build_grows s tree d
    refine ⟨⟨hgrown.forest hforest, hgrown.adjoins.size_le, hgrown.adjoins.same⟩,
      fun source hok k root hroot => hgrown.skeletons root ?_⟩
    rw [← hsource source _ (Prod.ext hok rfl)]
    exact List.mem_of_getElem? (Option.join_eq_some_iff.mp hroot)

end Setup
end Stencil
