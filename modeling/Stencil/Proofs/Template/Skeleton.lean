/-
  Stencil/Proofs/Template/Skeleton.lean
  =====================================
  **What compiling leaves in the document.**

  `Sprouts` is the layout of a skeleton: which plants stand for which nodes of a
  container.  A literal that has been compiled is `Stocked`: each of its containers has a
  fragment with plants that have sprouted from its nodes, if it needs one, and none if
  not.  `compile_spec` says that a successful compilation stocks the literal with new
  nodes and leaves all others as they are.

  The skeletons are filled in by slot, so one must not be written over by another.  The
  slots of a parsed literal are counted through in the order of the start tags
  (`Numbered`), and building a list of nodes writes to the slots of these nodes only
  (`builds_of_numbered`).
-/
import Stencil.Template.Skeleton
import Stencil.Proofs.Document.Copy
import Stencil.Proofs.Document.Regrow
import Stencil.Proofs.Markup.Elements

namespace Stencil

open Document Document.Plant Markup

/-! ### What all tags of a tree have -/

namespace Markup
namespace Node

mutual

/-- Every tag in a tree has a property. -/
def EveryTag (P : Tag → Prop) : Node → Prop
  | text _ => True
  | hole _ => True
  | element tag children => P tag ∧ EveryTagAll P children

def EveryTagAll (P : Tag → Prop) : List Node → Prop
  | [] => True
  | n :: ns => n.EveryTag P ∧ EveryTagAll P ns

end

mutual

theorem EveryTag.imp {P Q : Tag → Prop} (hPQ : ∀ t, P t → Q t) :
    ∀ {n : Node}, n.EveryTag P → n.EveryTag Q
  | text _, _ => trivial
  | hole _, _ => trivial
  | element tag _, h => ⟨hPQ tag h.1, EveryTagAll.imp hPQ h.2⟩

theorem EveryTagAll.imp {P Q : Tag → Prop} (hPQ : ∀ t, P t → Q t) :
    ∀ {ns : List Node}, EveryTagAll P ns → EveryTagAll Q ns
  | [], _ => trivial
  | _ :: _, h => ⟨EveryTag.imp hPQ h.1, EveryTagAll.imp hPQ h.2⟩

end

mutual

theorem everyTag_of_forall {P : Tag → Prop} (hP : ∀ t, P t) : ∀ n : Node, n.EveryTag P
  | text _ => trivial
  | hole _ => trivial
  | element tag children => ⟨hP tag, everyTagAll_of_forall hP children⟩

theorem everyTagAll_of_forall {P : Tag → Prop} (hP : ∀ t, P t) :
    ∀ ns : List Node, EveryTagAll P ns
  | [] => trivial
  | n :: ns => ⟨everyTag_of_forall hP n, everyTagAll_of_forall hP ns⟩

end

theorem everyTagAll_append {P : Tag → Prop} {ns ms : List Node} (h : EveryTagAll P ns)
    (h' : EveryTagAll P ms) : EveryTagAll P (ns ++ ms) := by
  induction ns with
  | nil => exact h'
  | cons n ns ih => exact ⟨h.1, ih h.2⟩

end Node
end Markup

/-! ### The layout of skeletons -/

variable {κ : Type} {s : Setup κ}

/-- The plants that stand for the nodes of a container before values are bound; an element
    holds what `look` says. -/
inductive Sprouts (s : Setup κ) (look : Tag → ElementState) :
    List Node → List (Plant Value Action) → Prop where
  | nil : Sprouts s look [] []
  | text {ns : List Node} {ts : List (Plant Value Action)} (id : NodeId) (value : String)
      (h : Sprouts s look ns ts) : Sprouts s look (.text value :: ns) (leaf id (.text value) :: ts)
  | hole {ns : List Node} {ts : List (Plant Value Action)} (id : NodeId) (i : Nat)
      (h : Sprouts s look ns ts) : Sprouts s look (.hole i :: ns) (leaf id (.comment "") :: ts)
  | component {tag : Tag} {children ns : List Node} {ts : List (Plant Value Action)} (id : NodeId)
      (hc : s.registry.isComponent tag = true) (h : Sprouts s look ns ts) :
      Sprouts s look (.element tag children :: ns) (leaf id (.comment "") :: ts)
  | element {tag : Tag} {children ns : List Node} {cs ts : List (Plant Value Action)} (id : NodeId)
      (hc : s.registry.isComponent tag = false) (hchildren : Sprouts s look children cs)
      (h : Sprouts s look ns ts) :
      Sprouts s look (.element tag children :: ns) (node id (.element (look tag)) cs :: ts)

namespace Sprouts

variable {look : Tag → ElementState} {ns ms : List Node} {ts us : List (Plant Value Action)}

theorem append (h : Sprouts s look ns ts) (h' : Sprouts s look ms us) :
    Sprouts s look (ns ++ ms) (ts ++ us) := by
  induction h with
  | nil => exact h'
  | text id value _ ih => exact .text id value ih
  | hole id i _ ih => exact .hole id i ih
  | component id hc _ ih => exact .component id hc ih
  | element id hc hchildren _ _ ih => exact .element id hc hchildren ih

/-- An element as a copy has it. -/
def copied (look : Tag → ElementState) (tag : Tag) : ElementState :=
  { look tag with properties := [], listeners := [] }

theorem copyAllAt (h : Sprouts s look ns ts) (base : Nat) :
    Sprouts s (copied look) ns (Plant.copyAllAt base ts) := by
  induction h generalizing base with
  | nil => exact .nil
  | text _ value _ ih => exact .text _ value (ih _)
  | hole _ i _ ih => exact .hole _ i (ih _)
  | component _ hc _ ih => exact .component _ hc (ih _)
  | element _ hc _ _ ihchildren ih => exact .element _ hc (ihchildren _) (ih _)

end Sprouts

/-- A container has the skeleton that it needs, and the nodes of it are not older than
    `base`. -/
def Furnished (s : Setup κ) (base : Nat) (d : Page) (skeleton : Option NodeId)
    (ns : List Node) : Prop :=
  match skeleton with
  | none => s.needsSkeleton ns = false
  | some root => ∃ ts, d.Stands none (node root .fragment ts) ∧ Sprouts s s.elementOf ns ts ∧
    ∀ x : Nat, x ∈ root :: idsAll ts → base ≤ x

/-- The containers below some nodes have the skeletons that they need; `look` is the skeleton
    of a slot. -/
inductive Ready (s : Setup κ) (base : Nat) (d : Page) (look : Nat → Option NodeId) :
    List Node → Prop where
  | nil : Ready s base d look []
  | text {ns : List Node} (value : String) (h : Ready s base d look ns) :
      Ready s base d look (.text value :: ns)
  | hole {ns : List Node} (i : Nat) (h : Ready s base d look ns) :
      Ready s base d look (.hole i :: ns)
  | component {tag : Tag} {children ns : List Node} {k : Nat}
      (hc : s.registry.isComponent tag = true) (hslot : tag.slot = some k)
      (hskeleton : Furnished s base d (look k) children)
      (hchildren : Ready s base d look children) (h : Ready s base d look ns) :
      Ready s base d look (.element tag children :: ns)
  | element {tag : Tag} {children ns : List Node} (hc : s.registry.isComponent tag = false)
      (hchildren : Ready s base d look children) (h : Ready s base d look ns) :
      Ready s base d look (.element tag children :: ns)

/-- A fragment, or a node in one. -/
def InFragment (d : Page) (x : NodeId) : Prop :=
  ∃ r, d.kind r = some .fragment ∧ d.AncestorOrSelf r x

theorem InFragment.lt_size {d : Page} {x : Nat} (h : InFragment d x) : x < d.size := by
  obtain ⟨r, hkind, rfl | habove⟩ := h
  · rw [kind, Option.map_eq_some_iff] at hkind
    obtain ⟨n, hn, -⟩ := hkind
    exact lt_size_of_node? hn
  · obtain ⟨b, hb, -⟩ := ancestor_iff.mp habove
    exact lt_size_of_parent? hb

/-- Old nodes do not get into a fragment by the page growing. -/
theorem InFragment.of_extends {d d' : Page} {x : Nat} (h : InFragment d' x)
    (hforest : d.IsForest) (hext : d.Extends d') (hx : x < d.size) : InFragment d x := by
  have hparent (y p : Nat) (hy : y < d.size) (hp : d'.parent? y = some p) :
      d.parent? y = some p ∧ p < d.size := by
    have hp' : d.parent? y = some p := by
      rw [← hp, parent?, parent?, hext.same y hy]
    exact ⟨hp', lt_size_of_mem_children (hforest.mem_of_parent? hp')⟩
  have habove {a y : NodeId} (hay : d'.Ancestor a y) :
      LT.lt (α := Nat) y d.size → d.Ancestor a y ∧ LT.lt (α := Nat) a d.size := by
    induction hay with
    | parent hp =>
      intro hy
      obtain ⟨hp', hlt⟩ := hparent _ _ hy hp
      exact ⟨.parent hp', hlt⟩
    | step hp _ ih =>
      intro hy
      obtain ⟨hp', hlt⟩ := hparent _ _ hy hp
      obtain ⟨hab, ha⟩ := ih hlt
      exact ⟨.step hp' hab, ha⟩
  obtain ⟨r, hkind, rfl | hrx⟩ := h
  · exact ⟨r, by rw [← hkind, kind, kind, hext.same r hx], Or.inl rfl⟩
  · obtain ⟨hrx', hr⟩ := habove hrx hx
    exact ⟨r, by rw [← hkind, kind, kind, hext.same r hr], Or.inr hrx'⟩

theorem Furnished.mono {base base' : Nat} {d d' : Page} {skeleton : Option NodeId}
    {ns : List Node} (h : Furnished s base d skeleton ns) (hbase : base' ≤ base)
    (hsame : ∀ x : Nat, base ≤ x → InFragment d x → d'.node? x = d.node? x) :
    Furnished s base' d' skeleton ns := by
  cases skeleton with
  | none => exact h
  | some root =>
    obtain ⟨ts, hstand, hsprouts, hyoung⟩ := h
    refine ⟨ts, ?_, hsprouts, fun x hx => Nat.le_trans hbase (hyoung x hx)⟩
    refine hstand.congr fun x hx => ?_
    have hkind : d.kind root = some .fragment := by
      rw [kind, hstand.node?_eq]
      rfl
    exact hsame x (hyoung x hx) ⟨root, hkind, hstand.below_root hx⟩

theorem Ready.append {base : Nat} {d : Page} {look : Nat → Option NodeId} {ns ms : List Node}
    (h : Ready s base d look ns) (h' : Ready s base d look ms) :
    Ready s base d look (ns ++ ms) := by
  induction h with
  | nil => exact h'
  | text value _ ih => exact .text value ih
  | hole i _ ih => exact .hole i ih
  | component hc hslot hskeleton hchildren _ _ ih =>
    exact .component hc hslot hskeleton hchildren ih
  | element hc hchildren _ _ ih => exact .element hc hchildren ih

/-- Containers stay ready as long as the nodes and the slots that matter to them do. -/
theorem Ready.mono {base base' : Nat} {d d' : Page} {look look' : Nat → Option NodeId}
    {k j : Nat} {ns : List Node} (h : Ready s base d look ns) (hnum : Numbered k ns j)
    (hbase : base' ≤ base) (hsame : ∀ x : Nat, base ≤ x → InFragment d x → d'.node? x = d.node? x)
    (hlook : ∀ i, k ≤ i → i < j → look' i = look i) : Ready s base' d' look' ns := by
  induction hnum with
  | nil => exact .nil
  | text value _ ih =>
    cases h with
    | text _ h => exact .text value (ih h hlook)
  | hole i _ ih =>
    cases h with
    | hole _ h => exact .hole i (ih h hlook)
  | @element k i j tag children ns htag hchildren hrest ihchildren ih =>
    have hki : k ≤ Phrase.slotAfter tag.name k := by
      rw [Phrase.slotAfter]
      split <;> omega
    have hij := hrest.le
    have hi := hchildren.le
    cases h with
    | @component _ _ _ k' hc hslot hskeleton hready h =>
      refine .component hc hslot ?_ (ihchildren hready fun m hm hmi =>
        hlook m (by omega) (by omega))
        (ih h fun m hm hmj => hlook m (by omega) hmj)
      have hcapital : Text.startsCapital tag.name = true := by
        by_contra hno
        rw [htag, if_neg hno] at hslot
        cases hslot
      have hk : k' = k := by
        rw [htag, if_pos hcapital] at hslot
        exact (Option.some.inj hslot).symm
      have hlt : k < i := by
        rw [Phrase.slotAfter, if_pos hcapital] at hi
        omega
      subst hk
      rw [hlook k' (Nat.le_refl _) (by omega)]
      exact hskeleton.mono hbase hsame
    | element hc hready h =>
      exact .element hc (ihchildren hready fun m hm hmi => hlook m (by omega) (by omega))
        (ih h fun m hm hmj => hlook m (by omega) hmj)

namespace Setup

/-! ### Building -/

/-- A step that succeeds is a success followed by another. -/
theorem making_bind_ok {α β : Type} {x : Making α} {g : α → Making β} {w w' : Workshop} {b : β}
    (h : (x >>= g).run w = (.ok b, w')) :
    ∃ a w₁, x.run w = (.ok a, w₁) ∧ (g a).run w₁ = (.ok b, w') := by
  change (match x.run w with | (r, w₁) => ExceptT.bindCont g r w₁) = _ at h
  rcases hx : x.run w with ⟨r, w₁⟩
  rw [hx] at h
  cases r with
  | ok a => exact ⟨a, w₁, rfl, h⟩
  | error e =>
    have herror :
        (Except.error e, w₁) = ((Except.ok b, w') : Except TemplateError β × Workshop) := h
    cases herror

theorem making_bind {α β : Type} {x : Making α} {w w₁ : Workshop} {a : α}
    (h : x.run w = (.ok a, w₁)) (g : α → Making β) : (x >>= g).run w = (g a).run w₁ := by
  change (match x.run w with | (r, w₁) => ExceptT.bindCont g r w₁) = _
  rw [h]
  rfl

theorem making_pure_ok {α : Type} {a b : α} {w w' : Workshop}
    (h : (pure a : Making α).run w = (.ok b, w')) : a = b ∧ w = w' := by
  have heq : (Except.ok a, w) = ((Except.ok b, w') : Except TemplateError α × Workshop) := h
  simpa using heq

theorem run_makeIn (p : NodeId) (c : Content Value Action) (w : Workshop) :
    (makeIn p c).run w =
      (.ok w.page.size, { w with page := (w.page.create c).2.append p w.page.size }) := rfl

/-- The skeleton of a slot so far. -/
def Workshop.skeleton? (w : Workshop) (k : Nat) : Option NodeId := (w.skeletons[k]?).join

/-- The content of a component built into its slot. -/
def buildSlot (s : Setup κ) (slot : Option Nat) (children : List Node) : Making Unit := do
  let top ← s.makeTop children
  s.buildNodes top children
  fillSlot slot top

/-- What has come of building the nodes `ns`, with the slots from `k` up to `j`, into
    `parent`. -/
structure Built (s : Setup κ) (parent : Option NodeId) (w w' : Workshop) (k j : Nat)
    (ns : List Node) : Prop where
  length_eq : w'.skeletons.length = w.skeletons.length
  others : ∀ i, i < k ∨ j ≤ i → w'.skeleton? i = w.skeleton? i
  ready : Ready s w.page.size w'.page w'.skeleton? ns
  page : match parent with
    | none => w.page.Extends w'.page
    | some p => ∃ ts, w.page.Regrown w'.page p (w.page.children p) [] ts [] ∧
        Sprouts s s.elementOf ns ts

namespace Built

variable {parent : Option NodeId} {w w₁ w' : Workshop} {k i j : Nat} {ns ms : List Node}

theorem forest (h : Built s parent w w' k j ns) : w'.page.IsForest := by
  cases parent with
  | none => exact h.page.forest
  | some p => exact h.page.choose_spec.1.forest

theorem size_le (h : Built s parent w w' k j ns) : w.page.size ≤ w'.page.size := by
  cases parent with
  | none => exact h.page.size_le
  | some p => exact h.page.choose_spec.1.size_le

/-- Nothing has been built. -/
theorem refl (hforest : w.page.IsForest)
    (hparent : ∀ p : Nat, parent = some p → p < w.page.size) : Built s parent w w k k [] := by
  refine ⟨rfl, fun _ _ => rfl, .nil, ?_⟩
  cases parent with
  | none => exact Extends.refl hforest
  | some p =>
    obtain ⟨n, hn⟩ := exists_node? (hparent p rfl)
    refine ⟨[], Regrown.refl hforest trivial ⟨n.content, n.parent, ?_⟩, .nil⟩
    rw [hn, children_of_node? hn]
    simp

theorem append (h : Built s parent w w₁ k i ns) (h' : Built s parent w₁ w' i j ms)
    (hforest : w.page.IsForest) (hnum : Numbered k ns i) (hnum' : Numbered i ms j) :
    Built s parent w w' k j (ns ++ ms) := by
  have hki := hnum.le
  have hij := hnum'.le
  have hkeep (x : Nat) (hx : w.page.size ≤ x) (hx₁ : x < w₁.page.size) :
      w'.page.node? x = w₁.page.node? x := by
    cases parent with
    | none => exact h'.page.same x hx₁
    | some p =>
      obtain ⟨ts, hgrown, -⟩ := h.page
      obtain ⟨us, hgrown', -⟩ := h'.page
      obtain ⟨c, q, hp, -⟩ := hgrown.place
      refine hgrown'.frame x hx₁ ?_ (by simp [idsAll])
      rintro rfl
      exact absurd (lt_size_of_node? hp) (Nat.not_lt.mpr hx)
  refine ⟨h'.length_eq.trans h.length_eq, fun m hm => ?_, ?_, ?_⟩
  · rw [h'.others m (by omega), h.others m (by omega)]
  · have hfirst := h.ready.mono hnum (Nat.le_refl _) (fun x hx hin => hkeep x hx hin.lt_size)
      fun m hkm hmi => h'.others m (Or.inl hmi)
    have hsecond := h'.ready.mono hnum' h.size_le (fun _ _ _ => rfl) fun _ _ _ => rfl
    exact hfirst.append hsecond
  · cases parent with
    | none => exact h.page.trans h'.page
    | some p =>
      obtain ⟨ts, hgrown, hsprouts⟩ := h.page
      obtain ⟨us, hgrown', hsprouts'⟩ := h'.page
      obtain ⟨c, q, -, hp⟩ := hgrown.place
      have hchildren : w₁.page.children p = w.page.children p ++ roots ts := by
        rw [children_of_node? hp, List.append_nil]
      rw [hchildren] at hgrown'
      have hboth : w.page.Regrown w'.page p (w.page.children p) ([] ++ []) (ts ++ us) [] :=
        Regrown.append hforest trivial List.nodup_nil hgrown hgrown'
      exact ⟨ts ++ us, hboth, hsprouts.append hsprouts'⟩

end Built

/-- What is demanded of the parent into which nodes are built. -/
def Admits (s : Setup κ) (w : Workshop) (ns : List Node) : Option NodeId → Prop
  | none => s.needsSkeleton ns = false
  | some p => (fun p : Nat => p < w.page.size) p

/-- Building nodes does what it should, wherever they are built. -/
def Builds (s : Setup κ) (k j : Nat) (ns : List Node) : Prop :=
  ∀ {parent : Option NodeId} {w w' : Workshop}, (s.buildNodes parent ns).run w = (.ok (), w') →
    w.page.IsForest → j ≤ w.skeletons.length → s.Admits w ns parent → Built s parent w w' k j ns

/-- The content of a component built into its slot. -/
theorem buildSlot_spec {k i : Nat} {children : List Node} (hchildren : s.Builds (k + 1) i children)
    (hnum : Numbered (k + 1) children i) {w w' : Workshop}
    (hrun : (s.buildSlot (some k) children).run w = (.ok (), w'))
    (hforest : w.page.IsForest) (hlen : i ≤ w.skeletons.length) :
    w.page.Extends w'.page ∧ w'.skeletons.length = w.skeletons.length ∧
      (∀ m, m < k ∨ i ≤ m → w'.skeleton? m = w.skeleton? m) ∧
      Furnished s w.page.size w'.page (w'.skeleton? k) children ∧
      Ready s w.page.size w'.page w'.skeleton? children := by
  have hki := hnum.le
  rw [buildSlot] at hrun
  obtain ⟨top, w₁, htop, hrun⟩ := making_bind_ok hrun
  obtain ⟨u, w₂, hbuild, hfill⟩ := making_bind_ok hrun
  -- the last step writes the skeleton to its slot and to no other
  obtain rfl : w' = { w₂ with skeletons := w₂.skeletons.set k top } :=
    (congrArg Prod.snd hfill).symm
  have hset (m : Nat) (hm : m ≠ k) :
      Workshop.skeleton? { w₂ with skeletons := w₂.skeletons.set k top } m = w₂.skeleton? m := by
    simp only [Workshop.skeleton?, List.getElem?_set, if_neg hm.symm]
  have hself (hk : k < w₂.skeletons.length) :
      Workshop.skeleton? { w₂ with skeletons := w₂.skeletons.set k top } k = top := by
    simp [Workshop.skeleton?, hk]
  have hready {base : Nat} (h : Ready s base w₂.page w₂.skeleton? children)
      (hbase : w.page.size ≤ base) : Ready s w.page.size w₂.page
        (Workshop.skeleton? { w₂ with skeletons := w₂.skeletons.set k top }) children :=
    h.mono hnum hbase (fun _ _ _ => rfl) fun m hm _ => hset m (by omega)
  cases hneeds : s.needsSkeleton children with
  | false =>
    rw [makeTop, hneeds] at htop
    obtain ⟨rfl, rfl⟩ := making_pure_ok htop
    have hbuilt := hchildren hbuild hforest hlen hneeds
    have hlt : k < w₂.skeletons.length := by
      rw [hbuilt.length_eq]
      omega
    refine ⟨hbuilt.page, by simpa using hbuilt.length_eq, fun m hm => ?_, ?_, ?_⟩
    · rw [hset m (by omega), hbuilt.others m (by omega)]
    · rw [hself hlt]
      exact hneeds
    · exact hready hbuilt.ready (Nat.le_refl _)
  | true =>
    rw [makeTop, hneeds] at htop
    obtain ⟨rfl, rfl⟩ : top = some w.page.size ∧
        w₁ = { w with page := (w.page.create .fragment).2 } := by
      have heq : ((Except.ok (some w.page.size), { w with page := (w.page.create .fragment).2 }) :
          Except TemplateError (Option NodeId) × Workshop) = (.ok top, w₁) := htop
      simpa [eq_comm] using heq
    have hnew : w.page.Extends (w.page.create .fragment).2 := Extends.create hforest _
    have hfragment : (w.page.create .fragment).2.node? w.page.size =
        some ⟨.fragment, none, []⟩ := by
      rw [node?_create, if_pos rfl]
    have hbuilt := hchildren hbuild (hforest.create _) hlen (by simp [Admits])
    have hlength : w₂.skeletons.length = w.skeletons.length := hbuilt.length_eq
    have hlt : k < w₂.skeletons.length := by omega
    obtain ⟨ts, hgrown, hsprouts⟩ := hbuilt.page
    rw [children_of_node? hfragment] at hgrown
    obtain ⟨c, q, hbefore, hafter⟩ := hgrown.place
    rw [hfragment] at hbefore
    obtain ⟨rfl, rfl⟩ := by simpa using hbefore
    refine ⟨⟨hgrown.forest, Nat.le_trans hnew.size_le hgrown.size_le, fun x hx => ?_⟩,
      by simpa using hlength, fun m hm => ?_, ?_, ?_⟩
    · rw [hgrown.frame x (Nat.lt_of_lt_of_le hx hnew.size_le) (Nat.ne_of_lt hx) (by simp [idsAll]),
        hnew.same x hx]
    · rw [hset m (by omega), hbuilt.others m (by omega)]
      rfl
    · rw [hself hlt]
      refine ⟨ts, ⟨by simpa using hafter, hgrown.stand⟩, hsprouts, fun x hx => ?_⟩
      rcases List.mem_cons.mp hx with rfl | hx
      · exact Nat.le_refl _
      · rcases hgrown.fresh x hx with hmem | hlarge
        · simp [idsAll] at hmem
        · exact Nat.le_trans hnew.size_le hlarge
    · exact hready hbuilt.ready hnew.size_le

/-- A single new node built into a parent. -/
theorem built_leaf {p : Nat} {w : Workshop} {k : Nat} {n : Node} {c : Content Value Action}
    (hforest : w.page.IsForest) (hp : p < w.page.size) (hc : c.kind ≠ .fragment)
    (hready : ∀ d look, Ready s w.page.size d look [n])
    (hsprouts : Sprouts s s.elementOf [n] [leaf w.page.size c]) :
    Built s (some p) w { w with page := (w.page.create c).2.append p w.page.size } k k [n] :=
  ⟨rfl, fun _ _ => rfl, hready _ _, _, Regrown.create hforest hp hc, hsprouts⟩

theorem checkComponent_ok {tag : Tag} {w w' : Workshop}
    (h : (s.checkComponent tag).run w = (.ok (), w')) : w' = w := by
  rw [checkComponent] at h
  split at h
  · have herror : (Except.error (.unknownComponent tag.name), w) =
        ((Except.ok (), w') : Except TemplateError Unit × Workshop) := h
    cases herror
  · exact (making_pure_ok h).2.symm

/-- A component: its place, and its content in its slot. -/
theorem built_component {parent : Option NodeId} {w w' : Workshop} {k i : Nat} {tag : Tag}
    {children : List Node} (hc : s.registry.isComponent tag = true) (hslot : tag.slot = some k)
    (hchildren : s.Builds (k + 1) i children) (hnum : Numbered (k + 1) children i)
    (hrun : (s.buildNode parent (.element tag children)).run w = (.ok (), w'))
    (hforest : w.page.IsForest) (hlen : i ≤ w.skeletons.length)
    (hparent : s.Admits w [.element tag children] parent) :
    Built s parent w w' k i [.element tag children] := by
  have hisSome : (some k).isSome = true := rfl
  cases parent with
  | none =>
    rw [buildNode] at hrun
    obtain ⟨inner, w₁, hinner, hrun⟩ := making_bind_ok hrun
    obtain ⟨rfl, rfl⟩ := making_pure_ok hinner
    simp only [hslot, if_pos hisSome] at hrun
    obtain ⟨hext, hlength, hothers, hfurnished, hready⟩ :=
      buildSlot_spec hchildren hnum hrun hforest hlen
    exact ⟨hlength, hothers, .component hc hslot hfurnished hready .nil, hext⟩
  | some p =>
    rw [buildNode] at hrun
    obtain ⟨u, w₀, hcheck, hmaking⟩ := making_bind_ok hrun
    rw [if_pos hc] at hmaking
    obtain ⟨id, w₂, hmake, hpure⟩ := making_bind_ok hmaking
    obtain ⟨inner, w₁, hinner, hslots⟩ := making_bind_ok hpure
    obtain rfl := checkComponent_ok hcheck
    obtain ⟨rfl, rfl⟩ := making_pure_ok hinner
    obtain rfl : w₂ = { w₀ with page := (w₀.page.create (.comment "")).2.append p w₀.page.size } :=
      (congrArg Prod.snd ((run_makeIn _ _ _).symm.trans hmake)).symm
    have hplace :
        w₀.page.Regrown _ p (w₀.page.children p) [] [leaf w₀.page.size (.comment "")] [] :=
      Regrown.create hforest hparent (by simp [Content.kind])
    simp only [hslot, if_pos hisSome] at hslots
    obtain ⟨hext, hlength, hothers, hfurnished, hready⟩ :=
      buildSlot_spec hchildren hnum hslots hplace.forest hlen
    have hsize := hplace.size_le
    have hfurnished' := hfurnished.mono hsize fun _ _ _ => rfl
    have hready' := hready.mono hnum hsize (fun _ _ _ => rfl) fun _ _ _ => rfl
    exact ⟨hlength, hothers, .component hc hslot hfurnished' hready' .nil, _,
      hplace.extends_after hext, .component _ hc .nil⟩

/-- An element that is no component, with its children. -/
theorem built_element {p : Nat} {w w' : Workshop} {k i : Nat} {tag : Tag} {children : List Node}
    (hc : s.registry.isComponent tag = false)
    (hchildren : s.Builds (Phrase.slotAfter tag.name k) i children)
    (hnum : Numbered (Phrase.slotAfter tag.name k) children i)
    (hrun : (s.buildNode (some p) (.element tag children)).run w = (.ok (), w'))
    (hforest : w.page.IsForest) (hlen : i ≤ w.skeletons.length) (hp : p < w.page.size) :
    Built s (some p) w w' k i [.element tag children] := by
  have hslots : k ≤ Phrase.slotAfter tag.name k := by
    rw [Phrase.slotAfter]
    split <;> omega
  rw [buildNode] at hrun
  obtain ⟨u, w₀, hcheck, hmaking⟩ := making_bind_ok hrun
  rw [if_neg (by simp [hc])] at hmaking
  obtain ⟨id, w₂, hmake, hpure⟩ := making_bind_ok hmaking
  obtain ⟨inner, w₁, hinner, hbelow⟩ := making_bind_ok hpure
  obtain rfl := checkComponent_ok hcheck
  obtain ⟨rfl, rfl⟩ := making_pure_ok hinner
  obtain ⟨rfl, rfl⟩ : id = w₀.page.size ∧ w₂ = { w₀ with
      page := (w₀.page.create (.element (s.elementOf tag))).2.append p w₀.page.size } := by
    have heq := (run_makeIn _ _ _).symm.trans hmake
    exact ⟨(Except.ok.inj (congrArg Prod.fst heq)).symm, (congrArg Prod.snd heq).symm⟩
  have hplace : w₀.page.Regrown _ p (w₀.page.children p) []
      [leaf w₀.page.size (.element (s.elementOf tag))] [] :=
    Regrown.create hforest hp (by simp [Content.kind])
  have hleaf := stands_leaf.mp hplace.stand.1
  have hbuilt := hchildren hbelow hplace.forest hlen (lt_size_of_node? hleaf)
  obtain ⟨ts, hgrown, hsprouts⟩ := hbuilt.page
  rw [children_of_node? hleaf] at hgrown
  obtain ⟨c, q, -, hpnode⟩ := hplace.place
  have hinside := Regrown.inside hplace.forest hplace.stand.1 ⟨c, q, hpnode⟩ (Nat.le_refl _) hleaf
    (fun _ _ _ => rfl) hgrown
  have hready := hbuilt.ready.mono hnum hplace.size_le (fun _ _ _ => rfl) fun _ _ _ => rfl
  exact ⟨hbuilt.length_eq, fun m hm => hbuilt.others m (by omega), .element hc hready .nil, _,
    hplace.trans hinside, .element _ hc hsprouts .nil⟩

theorem needsSkeleton_cons (n : Node) (ns : List Node) :
    s.needsSkeleton (n :: ns) = (s.isPlainElement n || s.needsSkeleton ns) := by
  simp [needsSkeleton]

/-- What a parent admits it admits one by one. -/
theorem Admits.head {parent : Option NodeId} {w : Workshop} {n : Node} {ns : List Node}
    (h : s.Admits w (n :: ns) parent) : s.Admits w [n] parent := by
  cases parent with
  | none =>
    rw [Admits, needsSkeleton_cons, Bool.or_eq_false_iff] at h
    rw [Admits, needsSkeleton_cons, h.1]
    rfl
  | some p => exact h

theorem Admits.tail {parent : Option NodeId} {w w₁ : Workshop} {n : Node} {ns : List Node}
    (h : s.Admits w (n :: ns) parent) (hsize : w.page.size ≤ w₁.page.size) :
    s.Admits w₁ ns parent := by
  cases parent with
  | none =>
    rw [Admits, needsSkeleton_cons, Bool.or_eq_false_iff] at h
    exact h.2
  | some p => exact Nat.lt_of_lt_of_le h hsize

/-- One node first, and then the others. -/
theorem Builds.cons {k i j : Nat} {n : Node} {ns : List Node} (hn : Numbered k [n] i)
    (hns : Numbered i ns j) (htail : s.Builds i j ns)
    (hhead : ∀ {parent : Option NodeId} {w w' : Workshop},
      (s.buildNode parent n).run w = (.ok (), w') → w.page.IsForest → i ≤ w.skeletons.length →
        s.Admits w [n] parent → Built s parent w w' k i [n]) : s.Builds k j (n :: ns) := by
  intro parent w w' hrun hforest hlen hparent
  have hij := hns.le
  rw [buildNodes] at hrun
  obtain ⟨u, w₁, hfirst, hrest⟩ := making_bind_ok hrun
  have hbuilt := hhead hfirst hforest (by omega) hparent.head
  have hbuilt' := htail hrest hbuilt.forest (hbuilt.length_eq ▸ hlen)
    (hparent.tail hbuilt.size_le)
  exact hbuilt.append hbuilt' hforest hn hns

/-- Building nodes whose slots are counted through. -/
theorem builds_of_numbered {k j : Nat} {ns : List Node} (hnum : Numbered k ns j) :
    s.Builds k j ns := by
  induction hnum with
  | nil =>
    intro parent w w' hrun hforest _ hparent
    rw [buildNodes] at hrun
    obtain ⟨-, rfl⟩ := making_pure_ok hrun
    refine Built.refl hforest fun p hp => ?_
    subst hp
    exact hparent
  | text value hnum ih =>
    refine Builds.cons (.text value .nil) hnum ih fun {parent w w'} hrun hforest _ hparent => ?_
    cases parent with
    | none =>
      rw [buildNode] at hrun
      obtain ⟨-, rfl⟩ := making_pure_ok hrun
      exact ⟨rfl, fun _ _ => rfl, .text value .nil, Extends.refl hforest⟩
    | some p =>
      obtain rfl := (congrArg Prod.snd hrun).symm
      exact built_leaf hforest hparent (by simp [Content.kind]) (fun _ _ => .text value .nil)
        (.text _ value .nil)
  | hole m hnum ih =>
    refine Builds.cons (.hole m .nil) hnum ih fun {parent w w'} hrun hforest _ hparent => ?_
    cases parent with
    | none =>
      rw [buildNode] at hrun
      obtain ⟨-, rfl⟩ := making_pure_ok hrun
      exact ⟨rfl, fun _ _ => rfl, .hole m .nil, Extends.refl hforest⟩
    | some p =>
      obtain rfl := (congrArg Prod.snd hrun).symm
      exact built_leaf hforest hparent (by simp [Content.kind]) (fun _ _ => .hole m .nil)
        (.hole _ m .nil)
  | @element k i j tag children ns htag hchildren hnum ihchildren ih =>
    refine Builds.cons (.element htag hchildren .nil) hnum ih
      fun {parent w w'} hrun hforest hlen hparent => ?_
    cases hc : s.registry.isComponent tag with
    | true =>
      have hcapital : Text.startsCapital tag.name = true := by
        by_contra hno
        rw [if_neg hno] at htag
        simp [Registry.isComponent, Registry.componentFor?, htag] at hc
      rw [if_pos hcapital] at htag
      rw [Phrase.slotAfter, if_pos hcapital] at hchildren ihchildren
      exact built_component hc htag ihchildren hchildren hrun hforest hlen hparent
    | false =>
      cases parent with
      | none => simp [Admits, needsSkeleton, isPlainElement, hc] at hparent
      | some p => exact built_element hc ihchildren hchildren hrun hforest hlen hparent

/-! ### Compiling -/

/-- A compiled literal as the document has it: every container has its skeleton. -/
structure Stocked (s : Setup κ) (d : Page) (source : Compiled) : Prop where
  furnished : Furnished s 0 d (source.skeleton? rootSlot) source.tree.children
  ready : Ready s 0 d source.skeleton? source.tree.children

/-- Compiling makes new nodes, and all skeletons. -/
theorem compile_spec {l : Literal} {d d' : Page} {source : Compiled}
    (h : s.compile l d = (.ok source, d')) (hforest : d.IsForest) :
    l.parse s.config = .ok source.tree ∧ d.Extends d' ∧ Stocked s d' source := by
  rw [compile] at h
  rcases hparse : l.parse s.config with e | tree
  · rw [hparse] at h
    cases h
  · rw [hparse] at h
    have hnum : Numbered (rootSlot + 1) tree.children tree.slotCount :=
      numbered_of_parseTokens hparse
    obtain ⟨w', hbuild, rfl⟩ : ∃ w', (s.build tree).run
        ⟨d, List.replicate tree.slotCount none⟩ = (.ok source, w') ∧ w'.page = d' := by
      rcases hrun : (s.build tree).run ⟨d, List.replicate tree.slotCount none⟩ with ⟨r, w'⟩
      simp only [hrun] at h
      obtain ⟨rfl, rfl⟩ := by simpa using h
      exact ⟨w', rfl, rfl⟩
    rw [build] at hbuild
    obtain ⟨top, w₁, htop, hrest⟩ := making_bind_ok hbuild
    obtain ⟨_, w₂, hnodes, hrest⟩ := making_bind_ok hrest
    obtain ⟨_, w₃, hfill, hrest⟩ := making_bind_ok hrest
    have hslot : (s.buildSlot (some rootSlot) tree.children).run
        ⟨d, List.replicate tree.slotCount none⟩ = (.ok (), w₃) := by
      rw [buildSlot, making_bind htop, making_bind hnodes]
      exact hfill
    obtain ⟨rfl, rfl⟩ : source = ⟨tree, w₃.skeletons⟩ ∧ w' = w₃ := by
      have heq : ((Except.ok ⟨tree, w₃.skeletons⟩, w₃) :
          Except TemplateError Compiled × Workshop) = (.ok source, w') := hrest
      simpa [eq_comm] using heq
    obtain ⟨hext, -, -, hfurnished, hready⟩ :=
      buildSlot_spec (builds_of_numbered hnum) hnum hslot hforest (by simp)
    exact ⟨rfl, hext, hfurnished.mono (Nat.zero_le _) fun _ _ _ => rfl,
      hready.mono hnum (Nat.zero_le _) (fun _ _ _ => rfl) fun _ _ _ => rfl⟩

/-! ### Literals of which no element is refused -/

/-- An action of compiling that comes to an end without an error. -/
def Succeeds {α : Type} (x : Making α) : Prop := ∀ w, ∃ a w', x.run w = (.ok a, w')

theorem Succeeds.bind {α β : Type} {x : Making α} {g : α → Making β} (h : Succeeds x)
    (h' : ∀ a, Succeeds (g a)) : Succeeds (x >>= g) := by
  intro w
  obtain ⟨a, w₁, hrun⟩ := h w
  rw [making_bind hrun]
  exact h' a w₁

theorem Succeeds.pure {α : Type} (a : α) : Succeeds (Pure.pure a) := fun w => ⟨a, w, rfl⟩

theorem succeeds_makeIn (p : NodeId) (c : Content Value Action) : Succeeds (makeIn p c) :=
  fun w => ⟨_, _, run_makeIn p c w⟩

theorem succeeds_makeTop (s : Setup κ) (ns : List Node) : Succeeds (s.makeTop ns) := by
  rw [makeTop]
  split
  · exact fun w => ⟨_, _, rfl⟩
  · exact Succeeds.pure none

theorem succeeds_fillSlot (slot : Option Nat) (skeleton : Option NodeId) :
    Succeeds (fillSlot slot skeleton) := by
  cases slot with
  | none => exact Succeeds.pure ()
  | some i => exact fun w => ⟨_, _, rfl⟩

/-- An element is accepted that has no slot or is a component; if components are not strict, every
    element is. -/
def Accepts (s : Setup κ) (t : Tag) : Prop :=
  t.slot = none ∨ s.registry.isComponent t = true ∨ s.config.strict = false

theorem succeeds_checkComponent {tag : Tag} (h : s.Accepts tag) :
    Succeeds (s.checkComponent tag) := by
  rw [checkComponent, if_neg]
  · exact Succeeds.pure ()
  · rcases h with h | h | h
    · simp [h]
    · simp [h]
    · simp [h]

mutual

theorem succeeds_buildNode (s : Setup κ) : ∀ (parent : Option NodeId) (n : Node),
    n.EveryTag s.Accepts → Succeeds (s.buildNode parent n)
  | none, .text _, _ => Succeeds.pure ()
  | some p, .text _, _ => (succeeds_makeIn p _).bind fun _ => Succeeds.pure _
  | none, .hole _, _ => Succeeds.pure ()
  | some p, .hole _, _ => (succeeds_makeIn p _).bind fun _ => Succeeds.pure _
  | parent, .element tag children, h => by
    obtain ⟨haccepts, hchildren⟩ := h
    have hinner (inner : Option NodeId) : Succeeds (match inner with
        | some id => s.buildNodes (some id) children
        | none =>
          if tag.slot.isSome then do
            let top ← s.makeTop children
            s.buildNodes top children
            fillSlot tag.slot top
          else pure ()) := by
      cases inner with
      | none =>
        simp only
        split
        · exact (succeeds_makeTop s children).bind fun top =>
            (succeeds_buildNodes s top children hchildren).bind fun _ => succeeds_fillSlot _ top
        · exact Succeeds.pure ()
      | some id => exact succeeds_buildNodes s (some id) children hchildren
    unfold buildNode
    cases parent with
    | none => exact (Succeeds.pure none).bind hinner
    | some p =>
      refine (succeeds_checkComponent haccepts).bind fun _ => ?_
      split
      · exact (succeeds_makeIn p _).bind fun _ => (Succeeds.pure none).bind hinner
      · exact (succeeds_makeIn p _).bind fun id => (Succeeds.pure (some id)).bind hinner

theorem succeeds_buildNodes (s : Setup κ) : ∀ (parent : Option NodeId) (ns : List Node),
    Node.EveryTagAll s.Accepts ns → Succeeds (s.buildNodes parent ns)
  | _, [], _ => Succeeds.pure ()
  | parent, n :: ns, h =>
    (succeeds_buildNode s parent n h.1).bind fun _ => succeeds_buildNodes s parent ns h.2

end

/-- A literal of which no element is refused can be compiled, if it can be parsed. -/
theorem compile_of_accepts {l : Literal} {tree : Template} (hparse : l.parse s.config = .ok tree)
    (htags : Node.EveryTagAll s.Accepts tree.children) (d : Page) :
    ∃ skeletons d', s.compile l d = (.ok ⟨tree, skeletons⟩, d') := by
  obtain ⟨top, w₁, htop⟩ := succeeds_makeTop s tree.children ⟨d, List.replicate tree.slotCount none⟩
  obtain ⟨u, w₂, hnodes⟩ := succeeds_buildNodes s top tree.children htags w₁
  obtain ⟨w₃, hfill⟩ : ∃ w₃, (fillSlot (some rootSlot) top).run w₂ = (.ok (), w₃) := ⟨_, rfl⟩
  have hrun : (s.build tree).run ⟨d, List.replicate tree.slotCount none⟩ =
      (.ok ⟨tree, w₃.skeletons⟩, w₃) := by
    rw [build, making_bind htop, making_bind hnodes, making_bind hfill]
    rfl
  refine ⟨w₃.skeletons, w₃.page, ?_⟩
  rw [compile, hparse]
  simp only [hrun]

end Setup
end Stencil
