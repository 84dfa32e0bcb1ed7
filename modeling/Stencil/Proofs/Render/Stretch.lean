/-
  Stencil/Proofs/Render/Stretch.lean
  ==================================
  **A stretch of the page, and what is known about it.**

  The content of a reader stands between other children of a node and its marker
  (`Stretch`).  What has happened there is told by an `Account`: which plants the last
  rendition has come to, which nodes are left of earlier ones, and which ones the effect
  of the stretch remembers.  That the page is as the account says is `Laid`, and it stays
  so when a binding of the last rendition runs (`Laid.inner`), when a binding of an earlier
  one does (`Laid.left`), and when the effect itself does (`Laid.outer`).

  An account is `Whole` as long as nothing is left of earlier renditions and the effect
  remembers what stands there.  A binding that brings a text up to date keeps it so
  (`Laid.roots_of_does`).
-/
import Stencil.Proofs.Render.Rendition
import Stencil.Proofs.Render.Shed

namespace Stencil.Render

open Document Document.Plant Markup

/-! ### The bindings of a container -/

/-- A binding of the plants `ts`, which show the nodes `ns`: it works on nodes of the plants, and it
    shows something whenever the values can be shown.  Its content stands beside its marker; and if
    that is on top of the plants, then it belongs to a hole on top of the nodes. -/
structure Seated (f : Factory) (values : List Value) (ns : List Node) (d : Page)
    (ts : List (Plant Value Action)) (b : Bound) : Prop where
  sits : b.1.Sits d
  nodes : ∀ x ∈ b.1.nodes, x ∈ idsAll ts
  responds : ∀ σ n, (∀ pt ∈ pointsOfAll f ns, Answers values σ n pt) → Responds n σ b.1
  beside : ∀ m r cur, b.1 = .content m r cur → ∀ c ∈ cur, d.parent? c = d.parent? m
  top : ∀ m r cur, b.1 = .content m r cur → m ∈ roots ts → ∃ i, Node.hole i ∈ ns ∧
    valueAt values i = .reactive r ∧ (b.2.isPlainText = true → onlyText? d cur ≠ none)

section

variable {f : Factory} {values : List Value} {ns ns' : List Node} {d : Page}
  {parent : Option NodeId} {ts ts' : List (Plant Value Action)} {bs : List Bound}

/-- The plants are some of those that show more nodes. -/
theorem Seated.within {b : Bound} (h : Seated f values ns d ts b)
    (hids : ∀ x ∈ idsAll ts, x ∈ idsAll ts')
    (hpoints : ∀ pt ∈ pointsOfAll f ns, pt ∈ pointsOfAll f ns')
    (htop : ∀ x ∈ idsAll ts, x ∈ roots ts' →
      x ∈ roots ts ∧ ∀ i, Node.hole i ∈ ns → Node.hole i ∈ ns') : Seated f values ns' d ts' b where
  sits := h.sits
  nodes x hx := hids x (h.nodes x hx)
  responds σ n hanswers := h.responds σ n fun pt hpt => hanswers pt (hpoints pt hpt)
  beside := h.beside
  top m r cur hm hroot := by
    have hmem : m ∈ idsAll ts := h.nodes m (by simp [hm, Binding.nodes])
    obtain ⟨hroot, hholes⟩ := htop m hmem hroot
    obtain ⟨i, hi, hrest⟩ := h.top m r cur hm hroot
    exact ⟨i, hholes i hi, hrest⟩

/-- Content that looks like a text is a text node. -/
theorem onlyText?_of_trees {cur : List (Plant Value Action)} {y : Yield}
    (hstand : d.AllStand parent cur) (htrees : Plant.trees cur = y.trees)
    (hplain : y.isPlainText = true) : onlyText? d (roots cur) ≠ none := by
  obtain ⟨s, hs⟩ : ∃ s, y.trees = [.text s] := by
    cases y with
    | number n => exact ⟨_, rfl⟩
    | text s => exact ⟨s, rfl⟩
    | _ => cases hplain
  rw [hs] at htrees
  match cur, htrees, hstand with
  | [.node t c cs], htrees, hstand =>
    have htree := (List.cons.inj htrees).1
    cases c with
    | text value =>
      have hkind : d.kind t = some .text := by
        rw [kind, hstand.1.1]
        rfl
      simp [onlyText?, root, hkind]
    | _ => simp [Plant.tree] at htree
  | _ :: _ :: _, htrees, _ => simp [Plant.trees] at htrees

/-- The bindings of a container. -/
theorem shows_seated (h : Shows f.toSetup (liveReading f values) ns ts bs)
    (hstand : d.AllStand parent ts) (hnodup : (idsAll ts).Nodup) :
    ∀ b ∈ bs, Seated f values ns d ts b := by
  induction h generalizing parent with
  | nil => simp
  | @text ns ts bs id value _ ih =>
    obtain ⟨hid, hnodupts⟩ := List.nodup_cons.mp hnodup
    refine fun b hb => (ih hstand.2 hnodupts b hb).within (fun x hx => List.mem_cons_of_mem _ hx)
      (fun pt hpt => hpt) fun x hx hroot => ?_
    rcases List.mem_cons.mp hroot with rfl | hroot
    · exact absurd hx hid
    · exact ⟨hroot, fun i hi => List.mem_cons_of_mem _ hi⟩
  | @hole i ns us ts as bs hi _ ih =>
    obtain ⟨hus, hts⟩ := allStand_append.mp hstand
    rw [idsAll_append] at hnodup
    obtain ⟨hnodupus, hnodupts, hdisjoint⟩ := List.nodup_append.mp hnodup
    intro b hb
    rcases List.mem_append.mp hb with hb | hb
    · rcases hv : valueAt values i with _ | _ | _ | _ | _ | _ | r | _ | _ | _ | _
      case reactive =>
        simp only [liveReading, hv] at hi
        obtain ⟨m, cur, y, rfl, rfl, htrees⟩ := hi
        obtain rfl := List.mem_singleton.mp hb
        obtain ⟨hcur, hmarker⟩ := allStand_append.mp hus
        rw [idsAll_append] at hnodupus
        obtain ⟨-, -, hapart⟩ := List.nodup_append.mp hnodupus
        have hm : m ∈ idsAll [leaf m (.comment "" : Content Value Action)] := by
          simp [leaf, ids, idsAll]
        have hroot : d.parent? m = parent := hmarker.parent?_root List.mem_cons_self
        refine ⟨⟨hmarker.lt_size hm, fun hmem => hapart m (root_mem_idsAll hmem) m hm rfl,
          fun x hx => hcur.lt_size (root_mem_idsAll hx)⟩, ?_, fun σ n hanswers => ?_, ?_, ?_⟩
        · simp only [idsAll_append]
          refine List.forall_mem_cons.mpr ⟨?_, fun x hx => ?_⟩
          · exact List.mem_append_left _ (List.mem_append_right _ hm)
          · exact List.mem_append_left _ (List.mem_append_left _ (root_mem_idsAll hx))
        · have hhole := hanswers (.hole i) (by simp [pointsOfAll, pointsOf])
          simp only [Answers, hv] at hhole
          exact hhole
        · rintro _ _ _ ⟨⟩ c hc
          rw [hcur.parent?_root hc, hroot]
        · rintro _ _ _ ⟨⟩ -
          exact ⟨i, List.mem_cons_self, hv, onlyText?_of_trees hcur htrees⟩
      all_goals
        simp only [liveReading, hv] at hi
        rw [hi.1] at hb
        cases hb
    · refine (ih hts hnodupts b hb).within (fun x hx => ?_)
        (fun pt hpt => List.mem_append_right _ hpt) fun x hx hroot => ?_
      · rw [idsAll_append]
        exact List.mem_append_right _ hx
      · rw [roots, List.map_append, List.mem_append] at hroot
        rcases hroot with hroot | hroot
        · exact absurd rfl (hdisjoint x (root_mem_idsAll hroot) x hx)
        · exact ⟨hroot, fun j hj => List.mem_cons_of_mem _ hj⟩
  | component hc hcomponent _ _ => exact hcomponent.elim
  | @element tag id e children ns cs ts as bs' bs hc htag _ _ ihchildren ih =>
    obtain ⟨⟨hnode, hcs⟩, hts⟩ := hstand
    obtain ⟨hself, hnodupts, hdisjoint⟩ := List.nodup_append.mp hnodup
    obtain ⟨hid, hnodupcs⟩ := List.nodup_cons.mp hself
    have hpoints : pointsOfAll f (.element tag children :: ns) =
        .element tag :: (pointsOfAll f children ++ pointsOfAll f ns) := by
      rw [pointsOfAll, pointsOf, if_neg (by simp [hc]), List.cons_append]
    intro b hb
    rcases List.mem_append.mp hb with hb | hb
    · rcases List.mem_append.mp hb with hb | hb
      · obtain ⟨-, -, ws, hworn, -⟩ := htag
        obtain ⟨pre, post, rfl⟩ := List.append_of_mem hb
        obtain ⟨a, ha, name, r, v, -, -, -, hvalue, hbinding, -, -⟩ := worn_split hworn rfl
        have hatag : a ∈ tag.attrs := (f.perm_boundAttrs tag).mem_iff.mp (List.mem_append_left _ ha)
        refine ⟨?_, ?_, fun σ n hanswers => ?_, ?_, ?_⟩
        · rw [hbinding, Binding.Sits, kind, hnode]
          rfl
        · rw [hbinding]
          exact List.forall_mem_singleton.mpr (List.mem_append_left _ List.mem_cons_self)
        · rw [hbinding]
          have hattr := hanswers (.element tag) (by rw [hpoints]; exact List.mem_cons_self) a hatag
          rw [AttrAnswers, hvalue] at hattr
          exact hattr
        · intro m r cur hm
          rw [hbinding] at hm
          cases hm
        · intro m r cur hm
          rw [hbinding] at hm
          cases hm
      · refine (ihchildren hcs hnodupcs b hb).within (fun x hx => ?_) (fun pt hpt => ?_)
          fun x hx hroot => ?_
        · exact List.mem_append_left _ (List.mem_cons_of_mem _ hx)
        · rw [hpoints]
          exact List.mem_cons_of_mem _ (List.mem_append_left _ hpt)
        · rcases List.mem_cons.mp hroot with rfl | hroot
          · exact absurd hx hid
          · exact absurd rfl (hdisjoint x (List.mem_cons_of_mem _ hx) x (root_mem_idsAll hroot))
    · refine (ih hts hnodupts b hb).within (fun x hx => ?_) (fun pt hpt => ?_) fun x hx hroot => ?_
      · exact List.mem_append_right _ hx
      · rw [hpoints]
        exact List.mem_cons_of_mem _ (List.mem_append_right _ hpt)
      · rcases List.mem_cons.mp hroot with rfl | hroot
        · exact absurd rfl (hdisjoint x List.mem_cons_self x hx)
        · exact ⟨hroot, fun j hj => List.mem_cons_of_mem _ hj⟩

end

/-! ### Old nodes -/

/-- Nodes that are there keep their kind, and each is where it was or has no parent any more. -/
structure Stays (d d' : Page) : Prop where
  size_le : d.size ≤ d'.size
  kind : ∀ x : Nat, x < d.size → d'.kind x = d.kind x
  parent : ∀ x : Nat, x < d.size → d'.parent? x = d.parent? x ∨ d'.parent? x = none

namespace Stays

variable {d d₁ d' : Page}

theorem trans (h : Stays d d₁) (h' : Stays d₁ d') : Stays d d' where
  size_le := Nat.le_trans h.size_le h'.size_le
  kind x hx := (h'.kind x (Nat.lt_of_lt_of_le hx h.size_le)).trans (h.kind x hx)
  parent x hx := by
    rcases h'.parent x (Nat.lt_of_lt_of_le hx h.size_le) with heq | hnone
    · rw [heq]
      exact h.parent x hx
    · exact Or.inr hnone

theorem of_extends (h : d.Extends d') : Stays d d' where
  size_le := h.size_le
  kind x hx := by rw [Document.kind, h.same x hx, ← Document.kind]
  parent x hx := Or.inl (by rw [parent?, h.same x hx, ← parent?])

theorem of_does {y : Yield} {b b' : Binding} (h : Does d d' y b b') (hforest : d.IsForest) :
    Stays d d' := ⟨h.size_le, fun _ hx => h.kind hforest hx, fun _ hx => h.parent? hforest hx⟩

/-- No node gets into a fragment. -/
theorem inFragment (h : Stays d d') (hforest : d.IsForest) {x : Nat} (hx : x < d.size)
    (hfragment : InFragment d' x) : InFragment d x := by
  have hup {y q : Nat} (hy : y < d.size) (hq : d'.parent? y = some q) :
      d.parent? y = some q ∧ q < d.size := by
    rcases h.parent y hy with heq | hnone
    · rw [heq] at hq
      exact ⟨hq, hforest.parent_lt_size hq⟩
    · rw [hnone] at hq
      cases hq
  have hancestor {a y : Nat} (hay : d'.Ancestor a y) (hy : y < d.size) :
      d.Ancestor a y ∧ a < d.size := by
    induction hay with
    | parent hq =>
      obtain ⟨hq', hlt⟩ := hup hy hq
      exact ⟨.parent hq', hlt⟩
    | step hq _ ih =>
      obtain ⟨hq', hlt⟩ := hup hy hq
      obtain ⟨hab, ha⟩ := ih hlt
      exact ⟨.step hq' hab, ha⟩
  obtain ⟨a, hkind, rfl | hax⟩ := hfragment
  · exact ⟨a, (h.kind a hx).symm.trans hkind, Or.inl rfl⟩
  · obtain ⟨hax', ha⟩ := hancestor hax hx
    exact ⟨a, (h.kind a ha).symm.trans hkind, Or.inr hax'⟩

end Stays

/-! ### Lists without repetitions -/

section

variable {as bs bs' cs ds : List NodeId} {x : NodeId}

/-- What is in the middle of three lists is on none of the sides. -/
theorem not_mem_sides (hnodup : (as ++ bs ++ cs).Nodup) (hx : x ∈ bs) : x ∉ as ∧ x ∉ cs := by
  obtain ⟨hfirst, -, hcs⟩ := List.nodup_append.mp hnodup
  exact ⟨fun has => (List.nodup_append.mp hfirst).2.2 x has x hx rfl,
    fun hmem => hcs x (List.mem_append_right _ hx) x hmem rfl⟩

/-- If the sides stay, then what was in the middle is in the middle. -/
theorem mem_middle (hnodup : (as ++ bs ++ cs).Nodup) (hx : x ∈ bs)
    (hmem : x ∈ as ++ bs' ++ cs) : x ∈ bs' := by
  obtain ⟨has, hcs⟩ := not_mem_sides hnodup hx
  simp only [List.mem_append] at hmem
  tauto

/-- A marker cuts a list in one way. -/
theorem eq_of_cut (h : as ++ x :: bs = cs ++ x :: ds) (hnodup : (as ++ x :: bs).Nodup) :
    as = cs ∧ bs = ds := by
  have hfirst {l l' : List NodeId} (hl : (l ++ x :: l').Nodup) : x ∉ l := fun hmem =>
    (List.nodup_append.mp hl).2.2 x hmem x List.mem_cons_self rfl
  have hlength {l l' : List NodeId} (hl : (l ++ x :: l').Nodup) :
      (l ++ x :: l').idxOf x = l.length := by
    rw [List.idxOf_append_of_notMem (hfirst hl), List.idxOf_cons_self, Nat.add_zero]
  obtain ⟨heq, hrest⟩ := List.append_inj h (by rw [← hlength hnodup, h, hlength (h ▸ hnodup)])
  exact ⟨heq, (List.cons.inj hrest).2⟩

end

/-! ### The account of a stretch -/

/-- A stretch of the children of a node, between `front` and a marker: it belongs to an effect, and
    the content that stands there is that of a reader. -/
structure Stretch where
  parent : Nat
  front : List NodeId
  marker : Nat
  back : List NodeId
  effect : Nat
  reader : Reader

/-- What there is to know about a stretch at one moment: the stale nodes, which are first of all,
    and then the plants that the last rendition has come to, with their bindings, the effects from
    number `first` on; the nodes that the effect of the stretch remembers; and all nodes that have
    been given up. -/
structure Account where
  stale : List NodeId
  plants : List (Plant Value Action)
  memory : List NodeId
  gone : NodeId → Prop
  rendition : Rendition
  nodes : List Node
  first : Nat
  bindings : List Bound

/-- What stands in the stretch and is not remembered. -/
def Account.unremembered (a : Account) : List NodeId :=
  (a.stale ++ roots a.plants).filter fun x => !a.memory.contains x

/-- The account when the effect has run again: all that it did not remember is stale now, and what
    the last rendition came to has been given up. -/
def Account.renewed (a : Account) (plants : List (Plant Value Action)) (rendition : Rendition)
    (nodes : List Node) (first : Nat) (bindings : List Bound) : Account :=
  ⟨a.unremembered, plants, roots plants, fun x => a.gone x ∨ x ∈ idsAll a.plants, rendition, nodes,
    first, bindings⟩

/-- The page is as the account says.  What is remembered stands among the plants or nowhere; and a
    marker that stands in the stretch is remembered, so that it goes when the effect runs. -/
structure Laid (S : Stretch) (d : Page) (a : Account) : Prop where
  forest : d.IsForest
  place : ∃ c q, d.node? S.parent =
    some ⟨c, q, S.front ++ a.stale ++ roots a.plants ++ S.marker :: S.back⟩
  stand : d.AllStand (some S.parent) a.plants
  shed : Shed d S.parent a.stale a.gone
  outside : ¬ InFragment d S.parent
  memory : ∀ x : Nat, x ∈ a.memory →
    x < d.size ∧ d.isFragment x = false ∧ (x ∈ roots a.plants ∨ d.parent? x = none)
  fixed : ∀ b ∈ a.bindings, ∀ m r cur, b.1 = .content m r cur → m ∈ roots a.plants → m ∈ a.memory

namespace Laid

variable {S : Stretch} {d d' : Page} {a : Account}

theorem children (h : Laid S d a) :
    d.children S.parent = S.front ++ a.stale ++ roots a.plants ++ S.marker :: S.back := by
  obtain ⟨c, q, hnode⟩ := h.place
  exact children_of_node? hnode

theorem parent_lt (h : Laid S d a) : S.parent < d.size := by
  obtain ⟨c, q, hnode⟩ := h.place
  exact lt_size_of_node? hnode

theorem nodup (h : Laid S d a) :
    (S.front ++ a.stale ++ roots a.plants ++ S.marker :: S.back).Nodup :=
  h.children ▸ h.forest.nodup_children S.parent

theorem parent_of_mem (h : Laid S d a) {x : Nat}
    (hx : x ∈ S.front ++ a.stale ++ roots a.plants ++ S.marker :: S.back) :
    d.parent? x = some S.parent :=
  h.forest.parent?_of_mem (h.children ▸ hx)

theorem parent_marker (h : Laid S d a) : d.parent? S.marker = some S.parent :=
  h.parent_of_mem (by simp)

/-- The children of the parent that are not stale have not been given up. -/
theorem not_gone (h : Laid S d a) {x : Nat}
    (hx : x ∈ S.front ++ (roots a.plants ++ S.marker :: S.back)) : ¬ a.gone x := by
  have hnodup : (S.front ++ a.stale ++ (roots a.plants ++ S.marker :: S.back)).Nodup := by
    rw [← List.append_assoc]
    exact h.nodup
  intro hgone
  have hparent : d.parent? x = some S.parent := by
    refine h.parent_of_mem ?_
    simp only [List.mem_append] at hx ⊢
    tauto
  rcases h.shed.up x S.parent hgone hparent with hp | ⟨-, hstale⟩
  · exact h.shed.apart hp
  · obtain ⟨hfront, hrest⟩ := not_mem_sides hnodup hstale
    exact (List.mem_append.mp hx).elim hfront hrest

theorem plants_not_gone (h : Laid S d a) : ∀ x ∈ idsAll a.plants, ¬ a.gone x := by
  refine h.shed.not_mem h.forest h.stand fun x hx hstale => ?_
  exact (not_mem_sides h.nodup hx).1 (List.mem_append_right _ hstale)

/-- What stands on either side of the stretch is not remembered. -/
theorem not_remembered (h : Laid S d a) {x : Nat} (hx : x ∈ S.front ∨ x ∈ S.marker :: S.back) :
    x ∉ a.memory := by
  intro hmem
  rcases (h.memory x hmem).2.2 with hroot | hnone
  · obtain ⟨hfront, hback⟩ := not_mem_sides h.nodup hroot
    exact hx.elim (fun hx => hfront (List.mem_append_left _ hx)) hback
  · have hparent : d.parent? x = some S.parent := by
      refine h.parent_of_mem ?_
      simp only [List.mem_append]
      tauto
    rw [hparent] at hnone
    cases hnone

theorem marker_not_mem (h : Laid S d a) : S.marker ∉ a.memory :=
  h.not_remembered (Or.inr List.mem_cons_self)

/-- A node of the plants that is a child of the parent is on top of them. -/
theorem root_of_mem (h : Laid S d a) {x : Nat} (hx : x ∈ idsAll a.plants)
    (hplaced : x ∈ a.stale ++ roots a.plants) : x ∈ roots a.plants := by
  have hparent : d.parent? x = some S.parent := by
    refine h.parent_of_mem ?_
    simp only [List.mem_append] at hplaced ⊢
    tauto
  obtain ⟨q, hq, hmem | ⟨-, hroot⟩⟩ := h.stand.exists_parent hx
  · obtain rfl := Option.some.inj (hq.symm.trans hparent)
    exact absurd hmem (h.stand.not_mem_parent h.forest)
  · exact hroot

theorem nodup_ids (h : Laid S d a) : (idsAll a.plants).Nodup := by
  have hnodup := h.nodup
  simp only [List.nodup_append] at hnodup
  exact h.stand.nodup_ids h.forest hnodup.1.2.1

/-- The nodes that have been given up and those of the plants are in no fragment. -/
theorem not_inFragment (h : Laid S d a) {x : Nat} (hx : a.gone x ∨ x ∈ idsAll a.plants) :
    ¬ InFragment d x :=
  (h.shed.add h.forest h.stand).not_inFragment h.outside hx

/-- What the nodes remembered are like after a change. -/
theorem memory_stays (h : Laid S d a) (hstays : Stays d d') {plants : List (Plant Value Action)}
    (hroots : ∀ x ∈ roots a.plants, d'.parent? x = some S.parent → x ∈ roots plants) :
    ∀ x : Nat, x ∈ a.memory →
      x < d'.size ∧ d'.isFragment x = false ∧ (x ∈ roots plants ∨ d'.parent? x = none) := by
  intro x hx
  obtain ⟨hlt, hkind, hwhere⟩ := h.memory x hx
  refine ⟨Nat.lt_of_lt_of_le hlt hstays.size_le, ?_, ?_⟩
  · rw [isFragment, hstays.kind x hlt]
    exact hkind
  · rcases hstays.parent x hlt with heq | hnone
    · refine hwhere.imp (fun hroot => hroots x hroot ?_) heq.trans
      rw [heq, h.stand.parent?_root hroot]
    · exact Or.inr hnone

theorem outside_stays (h : Laid S d a) (hstays : Stays d d') : ¬ InFragment d' S.parent :=
  fun hfragment => h.outside (hstays.inFragment h.forest h.parent_lt hfragment)

theorem of_extends (h : Laid S d a) (hext : d.Extends d') : Laid S d' a where
  forest := hext.forest
  place := by
    obtain ⟨c, q, hnode⟩ := h.place
    exact ⟨c, q, hext.node? hnode⟩
  stand := hext.allStand h.stand
  shed := h.shed.of_extends hext
  outside := h.outside_stays (.of_extends hext)
  memory := h.memory_stays (.of_extends hext) fun _ hx _ => hx
  fixed := h.fixed

/-- An old child of the parent was its child before. -/
theorem of_parent (h : Laid S d a) (hstays : Stays d d') {x : Nat} (hx : x < d.size)
    (hparent : d'.parent? x = some S.parent) :
    x ∈ S.front ++ a.stale ++ roots a.plants ++ S.marker :: S.back := by
  rw [← h.children]
  refine h.forest.mem_of_parent? ?_
  rcases hstays.parent x hx with heq | hnone
  · rw [← heq, hparent]
  · rw [hnone] at hparent
    cases hparent

/-- The markers of the bindings after the run of one of them are those before it. -/
theorem markers {f : Factory} {pre post : List Bound} {x : Bound} {y y' : Yield} {b : Binding}
    (h : Laid S d a)
    (hshows : Shows f.toSetup (liveReading f a.rendition.values) a.nodes a.plants a.bindings)
    (hbindings : a.bindings = pre ++ x :: post) (hdoes : Does d d' y' x.1 b) :
    ∀ c ∈ pre ++ (b, y) :: post, ∀ m r cur, c.1 = .content m r cur →
      m < d.size ∧ ∃ c ∈ a.bindings, ∃ cur', c.1 = .content m r cur' := by
  intro c hc m r cur hcm
  have hold : ∃ c ∈ a.bindings, ∃ cur', c.1 = .content m r cur' := by
    rw [hbindings]
    simp only [List.mem_append, List.mem_cons] at hc
    rcases hc with hc | rfl | hc
    · exact ⟨c, by simp [hc], cur, hcm⟩
    · obtain ⟨cur', hx⟩ := hdoes.content hcm
      exact ⟨x, by simp, cur', hx⟩
    · exact ⟨c, by simp [hc], cur, hcm⟩
  obtain ⟨c, hc, cur', hcm⟩ := hold
  have hnodes := (shows_seated hshows h.stand h.nodup_ids c hc).nodes
  exact ⟨h.stand.lt_size (hnodes m (by simp [hcm, Binding.nodes])), c, hc, cur', hcm⟩

/-- A binding of the container has run. -/
theorem inner (h : Laid S d a) {plants : List (Plant Value Action)} {bindings : List Bound}
    (hgrown : d.Regrown d' S.parent (S.front ++ a.stale) a.plants plants (S.marker :: S.back))
    (hstays : Stays d d')
    (hbindings : ∀ b ∈ bindings, ∀ m r cur, b.1 = .content m r cur →
      m < d.size ∧ ∃ c ∈ a.bindings, ∃ cur', c.1 = .content m r cur') :
    Laid S d' { a with plants := plants, bindings := bindings } := by
  obtain ⟨c, q, -, hafter⟩ := hgrown.place
  have hchildren : d'.children S.parent =
      S.front ++ a.stale ++ roots plants ++ S.marker :: S.back := children_of_node? hafter
  refine ⟨hgrown.forest, ⟨c, q, hafter⟩, hgrown.stand, ?_, ?_, ?_, fun b hb m r cur hbm hroot => ?_⟩
  · refine h.shed.congr hgrown.size_le fun x hx => hgrown.frame x (h.shed.lt_size x hx) ?_ ?_
    · rintro rfl
      exact h.shed.apart hx
    · exact fun hmem => h.plants_not_gone x hmem hx
  · exact h.outside_stays hstays
  · exact h.memory_stays hstays fun x hx hparent =>
      mem_middle h.nodup hx (hchildren ▸ hgrown.forest.mem_of_parent? hparent)
  · obtain ⟨hm, c, hc, cur', hcm⟩ := hbindings b hb m r cur hbm
    refine h.fixed c hc m r cur' hcm ?_
    refine mem_middle ?_ hroot (h.of_parent hstays hm (hgrown.stand.parent?_root hroot))
    rw [← hchildren]
    exact hgrown.forest.nodup_children S.parent

/-- A binding has run that works on nodes that have been given up. -/
theorem left (h : Laid S d a) {y : Yield} {b b' : Binding} (hdoes : Does d d' y b b')
    (hnodes : ∀ x ∈ b.nodes, a.gone x)
    (hmarker : ∀ m r cur, b = .content m r cur → m ∉ a.stale) :
    ∃ stale gone, Laid S d' { a with stale := stale, gone := gone } ∧ stale.Sublist a.stale ∧
      (∀ x, a.gone x → gone x) ∧ (∀ x ∈ b'.nodes, gone x) ∧
      ∀ x : Nat, x < d.size → ¬ a.gone x → x ≠ S.parent → d'.node? x = d.node? x := by
  obtain ⟨stale, gone, hshed, hsub, hmore, hnodes', hframe, hplace⟩ :=
    h.shed.does h.forest h.parent_lt hdoes hnodes hmarker
  obtain ⟨c, q, hnode⟩ := h.place
  have hnode' : d'.node? S.parent =
      some ⟨c, q, S.front ++ stale ++ roots a.plants ++ S.marker :: S.back⟩ := by
    have hbefore : d.node? S.parent =
        some ⟨c, q, S.front ++ a.stale ++ (roots a.plants ++ S.marker :: S.back)⟩ := by
      rw [hnode, ← List.append_assoc]
    rw [hplace c q _ _ hbefore fun _ hx => h.not_gone hx, ← List.append_assoc]
  have hstays := Stays.of_does hdoes h.forest
  refine ⟨stale, gone, ⟨hdoes.forest, ⟨c, q, hnode'⟩, ?_, hshed, h.outside_stays hstays,
    h.memory_stays hstays fun _ hx _ => hx, h.fixed⟩, hsub, hmore, hnodes', hframe⟩
  refine h.stand.congr fun x hx => hframe x (h.stand.lt_size hx) (h.plants_not_gone x hx) ?_
  rintro rfl
  exact h.stand.not_mem_parent h.forest hx

/-- What is remembered is in no fragment. -/
theorem not_mem_memory (h : Laid S d a) {x : Nat} (hx : InFragment d x) : x ∉ a.memory := by
  intro hmem
  obtain ⟨-, hkind, hroot | hnone⟩ := h.memory x hmem
  · exact h.not_inFragment (Or.inr (root_mem_idsAll hroot)) hx
  · obtain ⟨r, hr, hrx⟩ := hx
    by_cases hrx' : r = x
    · rw [isFragment, ← hrx', hr] at hkind
      cases hkind
    · exact not_ancestorOrSelf_root hnone hrx' hrx

/-- The children of the parent without those that are remembered. -/
theorem children_kept (h : Laid S d a) :
    (a.memory.foldl (fun d n => d.detach n) d).children S.parent =
      S.front ++ a.unremembered ++ S.marker :: S.back := by
  have hkeep (l : List NodeId) (hl : ∀ x ∈ l, x ∈ S.front ∨ x ∈ S.marker :: S.back) :
      l.filter (fun x => !a.memory.contains x) = l :=
    List.filter_eq_self.mpr fun x hx => by simpa using h.not_remembered (hl x hx)
  rw [children_detachAll h.forest, h.children, List.append_assoc S.front, List.filter_append,
    List.filter_append S.front, hkeep S.front fun x hx => Or.inl hx,
    hkeep (S.marker :: S.back) fun x hx => Or.inr hx]
  rfl

/-- The effect of the stretch has run: of all that stood there, what it does not remember is stale
    now. -/
theorem outer (h : Laid S d a) {us : List (Plant Value Action)}
    (hplanted : Planted (a.memory.foldl (fun d n => d.detach n) d) d' S.marker us)
    (rendition : Rendition) (nodes : List Node) (first : Nat) (bindings : List Bound) :
    Laid S d' (a.renewed us rendition nodes first bindings) ∧
      ∀ x, InFragment d x → d'.node? x = d.node? x := by
  have hforest₀ := (node?_detachAll h.forest a.memory).1
  have hparent₀ : (a.memory.foldl (fun d n => d.detach n) d).parent? S.marker = some S.parent := by
    rw [parent?_detachAll h.forest, if_neg h.marker_not_mem, h.parent_marker]
  have hstays : Stays d d' := Stays.of_does (y := .empty)
    (Does.replaces (r := S.reader) (Or.inr rfl) hplanted) h.forest
  have hchildren₀ := h.children_kept
  have hshed₀ := (h.shed.add h.forest h.stand).detachAll h.forest a.memory
  have hnode {x : Nat} (hx : x < d.size) := hplanted.node? (size_detachAll d a.memory ▸ hx)
  cases hplanted with
  | nowhere hnone _ _ =>
    rw [hparent₀] at hnone
    cases hnone
  | @before q t front back hroot ht hgrown hyoung =>
    obtain rfl : S.parent = q := by
      rw [← hroot, ht.parent?_eq] at hparent₀
      exact (Option.some.inj hparent₀).symm
    obtain ⟨c, parent, hbefore, hafter⟩ := hgrown.place
    have hnodup₀ := hforest₀.nodup_children S.parent
    obtain ⟨rfl, rfl⟩ : front =
        S.front ++ a.unremembered ∧ back = S.back := by
      have hcut := hchildren₀
      rw [children_of_node? hbefore] at hcut hnodup₀
      simp only [roots, List.map_cons, List.map_nil, hroot, List.append_assoc, List.cons_append,
        List.nil_append] at hcut hnodup₀
      refine eq_of_cut ?_ hnodup₀
      rw [hcut, List.append_assoc]
    have hmarker : S.marker ∉ a.unremembered := by
      rw [hchildren₀] at hnodup₀
      intro hmem
      exact (List.nodup_append.mp hnodup₀).2.2 S.marker (List.mem_append_right _ hmem) S.marker
        List.mem_cons_self rfl
    have hnott : ∀ x ∈ t.ids, ¬ (a.gone x ∨ x ∈ idsAll a.plants) := by
      have hnot := hshed₀.not_mem hforest₀ ht.alone
        (List.forall_mem_singleton.mpr (hroot.symm ▸ hmarker))
      simpa using hnot
    have hsame₀ (x : Nat) (hx : a.gone x ∨ x ∈ idsAll a.plants) :
        d'.node? x = (a.memory.foldl (fun d n => d.detach n) d).node? x := by
      refine hgrown.frame x (hshed₀.lt_size x hx) ?_ ?_
      · rintro rfl
        exact hshed₀.apart hx
      · simpa using fun hmem => hnott x hmem hx
    refine ⟨⟨hgrown.forest, ⟨c, parent, ?_⟩, (allStand_append.mp hgrown.stand).1,
      hshed₀.congr hgrown.size_le hsame₀, ?_, fun x hx => ?_, fun b _ m r cur _ hmem => hmem⟩,
      fun x hx => ?_⟩
    · rw [hafter]
      simp [hroot, Account.renewed]
    · exact h.outside_stays hstays
    · have hstand := (allStand_append.mp hgrown.stand).1
      have hx' := root_mem_idsAll hx
      exact ⟨hstand.lt_size hx', hstand.isFragment_eq_false hgrown.forest hx', Or.inl hx⟩
    · have hout : x ≠ S.parent := by
        rintro rfl
        exact h.outside hx
      have hkept : (a.memory.foldl (fun d n => d.detach n) d).node? x = d.node? x := by
        refine node?_detachAll_of_not_mem h.forest (h.not_mem_memory hx) fun c hc hmem => ?_
        have hcx := h.forest.parent?_of_mem hc
        rcases (h.memory c hmem).2.2 with hroot | hnone
        · rw [h.stand.parent?_root hroot] at hcx
          exact hout (Option.some.inj hcx).symm
        · rw [hnone] at hcx
          cases hcx
      rcases hnode hx.lt_size with hsame | ⟨_, _, _, _, hparent, -⟩
      · rw [hsame, hkept]
      · rw [hparent₀] at hparent
        exact absurd (Option.some.inj hparent).symm hout

end Laid

/-! ### Texts on top -/

/-- In every one of the states, what the readers among the topmost nodes yield is a text or a
    number. -/
def TextOnTop (n : Nat) (States : (String → Script) → Prop) (values : List Value)
    (ns : List Node) : Prop :=
  ∀ i r, Node.hole i ∈ ns → valueAt values i = .reactive r →
    ∀ σ x, States σ → showReader σ n r = some x → x.yield.isPlainText = true

/-- The stretch holds what the effect remembers and nothing else, and it will stay so as long as no
    nodes come or go: the readers on top have yielded texts and will. -/
structure Account.Whole (n : Nat) (States : (String → Script) → Prop) (a : Account) : Prop where
  stale : a.stale = []
  memory : a.memory = roots a.plants
  texts : TextOnTop n States a.rendition.values a.nodes
  shown : ∀ b ∈ a.bindings, ∃ σ reads, States σ ∧ Current σ n b reads

theorem Account.Whole.unremembered_eq {n : Nat} {States : (String → Script) → Prop} {a : Account}
    (h : a.Whole n States) : a.unremembered = [] := by
  simp [Account.unremembered, h.stale, h.memory]

/-- A run of a binding whose content is on top, if at all, as a text that stays one: the topmost
    nodes stay. -/
theorem Laid.roots_of_does {S : Stretch} {d d' : Page} {a : Account}
    {plants : List (Plant Value Action)} {y : Yield} {b b' : Binding} (h : Laid S d a)
    (hgrown : d.Regrown d' S.parent (S.front ++ a.stale) a.plants plants (S.marker :: S.back))
    (hdoes : Does d d' y b b') (hmarker : ∀ m r cur, b = .content m r cur → m ∈ idsAll a.plants)
    (hbeside : ∀ m r cur, b = .content m r cur → ∀ c ∈ cur, d.parent? c = d.parent? m)
    (htop : ∀ m r cur, b = .content m r cur → m ∈ roots a.plants →
      onlyText? d cur ≠ none ∧ y.isPlainText = true) : roots plants = roots a.plants := by
  obtain ⟨c, q, hbefore, hafter⟩ := hgrown.place
  suffices hsame : d'.children S.parent = d.children S.parent by
    rw [children_of_node? hbefore, children_of_node? hafter] at hsame
    simpa using hsame
  cases hdoes with
  | @touches _ z hz htouched =>
    by_cases hpz : S.parent = z
    · obtain ⟨c', hnode', -⟩ := htouched.self c q _ (hpz ▸ hbefore)
      rw [hpz, children_of_node? hnode', children_of_node? (hpz ▸ hbefore)]
    · rw [Document.children, htouched.same S.parent h.parent_lt hpz, ← Document.children]
  | @replaces m r cur new hno hplanted =>
    have hroot : m ∉ roots a.plants := fun hroot => by
      obtain ⟨honly, hplain⟩ := htop m r cur rfl hroot
      rcases hno with hno | hno
      · exact honly hno
      · rw [hplain] at hno
        cases hno
    have hm : d.parent? m ≠ some S.parent := fun hparent => by
      obtain ⟨q', hq', hmem | ⟨-, hroot'⟩⟩ := h.stand.exists_parent (hmarker m r cur rfl)
      · obtain rfl := Option.some.inj (hq'.symm.trans hparent)
        exact h.stand.not_mem_parent h.forest hmem
      · exact hroot hroot'
    have hchildren : (cur.foldl (fun d n => d.detach n) d).children S.parent =
        d.children S.parent := by
      rw [children_detachAll h.forest]
      refine List.filter_eq_self.mpr fun x hx => ?_
      have hxcur : x ∉ cur := fun hxcur =>
        hm ((hbeside m r cur rfl x hxcur).symm.trans (h.forest.parent?_of_mem hx))
      simpa using hxcur
    rcases hplanted.node? (size_detachAll d cur ▸ h.parent_lt) with hsame | ⟨_, _, _, _, hup, -⟩
    · rw [← hchildren, Document.children, hsame, ← Document.children]
    · rw [parent?_detachAll h.forest] at hup
      split at hup
      · cases hup
      · exact absurd hup hm

/-- A binding of the last rendition has run. -/
theorem Account.Whole.inner {f : Factory} {n : Nat} {States : (String → Script) → Prop}
    {S : Stretch} {d d' : Page} {a : Account} {pre post : List Bound} {x : Bound} {y : Yield}
    {b : Binding} {plants : List (Plant Value Action)} {σ : String → Script} {shown : Shown}
    {reads : List String} (h : a.Whole n States) (hlaid : Laid S d a)
    (hshows : Shows f.toSetup (liveReading f a.rendition.values) a.nodes a.plants a.bindings)
    (hbindings : a.bindings = pre ++ x :: post)
    (hgrown : d.Regrown d' S.parent (S.front ++ a.stale) a.plants plants (S.marker :: S.back))
    (hdoes : Does d d' shown.yield x.1 b) (hσ : States σ)
    (hshown : showReader σ n x.1.reader = some shown) (hcurrent : Current σ n (b, y) reads) :
    Account.Whole n States { a with plants := plants, bindings := pre ++ (b, y) :: post } := by
  have hx : x ∈ a.bindings := by simp [hbindings]
  have hseated := shows_seated hshows hlaid.stand hlaid.nodup_ids x hx
  have hroots : roots plants = roots a.plants := by
    refine hlaid.roots_of_does hgrown hdoes (fun m r cur hm => ?_) hseated.beside
      fun m r cur hm hroot => ?_
    · exact hseated.nodes m (by simp [hm, Binding.nodes])
    · obtain ⟨i, hi, hvalue, honly⟩ := hseated.top m r cur hm hroot
      obtain ⟨τ, reads', hτ, hlast⟩ := h.shown x hx
      rw [Current, hm] at hlast
      rw [hm] at hshown
      exact ⟨honly (h.texts i r hi hvalue τ _ hτ hlast), h.texts i r hi hvalue σ _ hσ hshown⟩
  refine ⟨h.stale, h.memory.trans hroots.symm, h.texts, fun c hc => ?_⟩
  rcases List.mem_append.mp hc with hc | hc
  · exact h.shown c (by simp [hbindings, hc])
  · rcases List.mem_cons.mp hc with rfl | hc
    · exact ⟨σ, reads, hσ, hcurrent⟩
    · exact h.shown c (by simp [hbindings, hc])

end Stencil.Render
