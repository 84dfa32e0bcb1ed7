/-
  Stencil/Proofs/Document/Regrow.lean
  ===================================
  **One region of a document changed, and nothing else.**

  Binding values to a copy, and bringing content up to date later, work on a stretch of
  the children of one node: some plants stood there, and afterwards others do.
  `Regrown` is that statement.  It says of every other old node that it is as it was,
  and that what stands in the stretch now stood in it before or is new; so changes of
  neighbouring stretches put together (`Regrown.append`), and so do a change of an
  element and one of its children (`Regrown.inside`).
-/
import Stencil.Proofs.Document.Plant

namespace Stencil.Document

open Plant

variable {π η : Type} {d d₁ d' : Document π η}

/-- The document has grown by new nodes, and all old ones are as they were. -/
structure Extends (d d' : Document π η) : Prop where
  forest : d'.IsForest
  size_le : d.size ≤ d'.size
  same : ∀ x : Nat, x < d.size → d'.node? x = d.node? x

namespace Extends

theorem refl (h : d.IsForest) : Extends d d := ⟨h, Nat.le_refl _, fun _ _ => rfl⟩

theorem trans (h : Extends d d₁) (h' : Extends d₁ d') : Extends d d' where
  forest := h'.forest
  size_le := Nat.le_trans h.size_le h'.size_le
  same x hx := (h'.same x (Nat.lt_of_lt_of_le hx h.size_le)).trans (h.same x hx)

theorem node? (h : Extends d d') {x : Nat} {n : NodeData π η} (hx : d.node? x = some n) :
    d'.node? x = some n :=
  (h.same x (lt_size_of_node? hx)).trans hx

theorem allStand (h : Extends d d') {parent : Option NodeId} {ts : List (Plant π η)}
    (hts : d.AllStand parent ts) : d'.AllStand parent ts :=
  hts.congr fun x hx => h.same x (hts.lt_size hx)

theorem stands (h : Extends d d') {parent : Option NodeId} {t : Plant π η}
    (ht : d.Stands parent t) : d'.Stands parent t :=
  ht.congr fun x hx => h.same x (ht.lt_size hx)

/-- What is above an old node is old, and was above it before. -/
theorem ancestor (h : Extends d d') (hforest : d.IsForest) {a b : Nat} (hab : d'.Ancestor a b)
    (hb : b < d.size) : d.Ancestor a b ∧ a < d.size := by
  have hparent {x p : Nat} (hx : x < d.size) (hp : d'.parent? x = some p) :
      d.parent? x = some p := by
    rwa [parent?, h.same x hx, ← parent?] at hp
  induction hab with
  | @parent b hp => exact ⟨.parent (hparent hb hp), hforest.parent_lt_size (hparent hb hp)⟩
  | @step p b hp _ ih =>
    obtain ⟨hanc, ha⟩ := ih (hforest.parent_lt_size (hparent hb hp))
    exact ⟨.step (hparent hb hp) hanc, ha⟩

theorem create (h : d.IsForest) (c : Content π η) : Extends d (d.create c).2 where
  forest := h.create c
  size_le := by simp
  same x hx := by rw [node?_create, if_neg (Nat.ne_of_lt hx)]

end Extends

/-- Among the children of `p`, between `front` and `back`, the plants `old` stood in `d` and
    the plants `new` stand in `d'`. -/
structure Regrown (d d' : Document π η) (p : NodeId) (front : List NodeId)
    (old new : List (Plant π η)) (back : List NodeId) : Prop where
  forest : d'.IsForest
  size_le : d.size ≤ d'.size
  place : ∃ c parent, d.node? p = some ⟨c, parent, front ++ roots old ++ back⟩ ∧
    d'.node? p = some ⟨c, parent, front ++ roots new ++ back⟩
  stand : d'.AllStand (some p) new
  fresh : ∀ x : Nat, x ∈ idsAll new → x ∈ idsAll old ∨ d.size ≤ x
  frame : ∀ x : Nat, x < d.size → x ≠ p → x ∉ idsAll old → d'.node? x = d.node? x

/-- A node is not among the plants that stand under it. -/
theorem AllStand.not_mem_parent {p : NodeId} {ts : List (Plant π η)}
    (h : d.AllStand (some p) ts) (hforest : d.IsForest) : p ∉ idsAll ts := by
  intro hmem
  obtain ⟨r, hr, hrp⟩ := h.below_root hmem
  have hpr : d.Ancestor p r := .parent (h.parent?_root hr)
  exact hforest.irrefl p (hpr.trans_orSelf hrp)

namespace Regrown

variable {p : NodeId} {front back : List NodeId} {old old' new new' : List (Plant π η)}

/-- Nothing happens. -/
theorem refl (h : d.IsForest) (hold : d.AllStand (some p) old)
    (hp : ∃ c parent, d.node? p = some ⟨c, parent, front ++ roots old ++ back⟩) :
    Regrown d d p front old old back := by
  obtain ⟨c, parent, hp⟩ := hp
  exact ⟨h, Nat.le_refl _, ⟨c, parent, hp, hp⟩, hold, fun x hx => Or.inl hx, fun _ _ _ _ => rfl⟩

/-- New nodes elsewhere come first. -/
theorem of_extends (hext : Extends d d₁) (hp : p < d.size)
    (h : Regrown d₁ d' p front old new back) :
    Regrown d d' p front old new back where
  forest := h.forest
  size_le := Nat.le_trans hext.size_le h.size_le
  place := by
    obtain ⟨c, parent, hbefore, hafter⟩ := h.place
    exact ⟨c, parent, (hext.same p hp).symm.trans hbefore, hafter⟩
  stand := h.stand
  fresh x hx := by
    rcases h.fresh x hx with hx | hx
    · exact Or.inl hx
    · exact Or.inr (Nat.le_trans hext.size_le hx)
  frame x hx hxp hxold := by
    rw [h.frame x (Nat.lt_of_lt_of_le hx hext.size_le) hxp hxold, hext.same x hx]

/-- New nodes elsewhere come last. -/
theorem extends_after (h : Regrown d d₁ p front old new back) (hext : Extends d₁ d') :
    Regrown d d' p front old new back where
  forest := hext.forest
  size_le := Nat.le_trans h.size_le hext.size_le
  place := by
    obtain ⟨c, parent, hbefore, hafter⟩ := h.place
    exact ⟨c, parent, hbefore, hext.node? hafter⟩
  stand := hext.allStand h.stand
  fresh := h.fresh
  frame x hx hxp hxold := by
    rw [hext.same x (Nat.lt_of_lt_of_le hx h.size_le), h.frame x hx hxp hxold]

/-- One change of a stretch after the other. -/
theorem trans {mid : List (Plant π η)} (h : Regrown d d₁ p front old mid back)
    (h' : Regrown d₁ d' p front mid new back) : Regrown d d' p front old new back where
  forest := h'.forest
  size_le := Nat.le_trans h.size_le h'.size_le
  place := by
    obtain ⟨c, parent, hbefore, hmiddle⟩ := h.place
    obtain ⟨c', parent', hmiddle', hafter⟩ := h'.place
    rw [hmiddle] at hmiddle'
    obtain ⟨rfl, rfl⟩ := by simpa using hmiddle'
    exact ⟨c, parent, hbefore, hafter⟩
  stand := h'.stand
  fresh x hx := by
    rcases h'.fresh x hx with hx | hx
    · exact h.fresh x hx
    · exact Or.inr (Nat.le_trans h.size_le hx)
  frame x hx hxp hxold := by
    have hxmid : x ∉ idsAll mid := by
      intro hmem
      rcases h.fresh x hmem with hmem | hlarge
      · exact hxold hmem
      · exact absurd hx (Nat.not_lt.mpr hlarge)
    rw [h'.frame x (Nat.lt_of_lt_of_le hx h.size_le) hxp hxmid, h.frame x hx hxp hxold]

/-- Two neighbouring stretches, one after the other. -/
theorem append (hforest : d.IsForest) (hold : d.AllStand (some p) (old ++ old'))
    (hroots : (roots (old ++ old')).Nodup)
    (h : Regrown d d₁ p front old new (roots old' ++ back))
    (h' : Regrown d₁ d' p (front ++ roots new) old' new' back) :
    Regrown d d' p front (old ++ old') (new ++ new') back := by
  have hnodup := hold.nodup_ids hforest hroots
  rw [idsAll_append] at hnodup
  obtain ⟨-, -, hapart⟩ := List.nodup_append.mp hnodup
  obtain ⟨hstand, hstand'⟩ := allStand_append.mp hold
  have hnew : p ∉ idsAll new := h.stand.not_mem_parent h.forest
  -- the plants of the first stretch are not touched by the second change
  have hkeep (x : Nat) (hx : x ∈ idsAll new) : d'.node? x = d₁.node? x := by
    refine h'.frame x (h.stand.lt_size hx) (fun heq => hnew (heq ▸ hx)) fun hxold => ?_
    rcases h.fresh x hx with hmem | hlarge
    · exact hapart x hmem x hxold rfl
    · exact absurd (hstand'.lt_size hxold) (Nat.not_lt.mpr hlarge)
  refine ⟨h'.forest, Nat.le_trans h.size_le h'.size_le, ?_, ?_, ?_, ?_⟩
  · obtain ⟨c, parent, hbefore, hmiddle⟩ := h.place
    obtain ⟨c', parent', hmiddle', hafter⟩ := h'.place
    rw [hmiddle] at hmiddle'
    obtain ⟨rfl, rfl, -⟩ := by simpa using hmiddle'
    refine ⟨c, parent, ?_, ?_⟩
    · rw [hbefore]
      simp only [roots, List.map_append, List.append_assoc]
    · rw [hafter]
      simp only [roots, List.map_append, List.append_assoc]
  · exact allStand_append.mpr ⟨h.stand.congr hkeep, h'.stand⟩
  · intro x hx
    rw [idsAll_append] at hx ⊢
    rcases List.mem_append.mp hx with hx | hx
    · rcases h.fresh x hx with hmem | hlarge
      · exact Or.inl (List.mem_append_left _ hmem)
      · exact Or.inr hlarge
    · rcases h'.fresh x hx with hmem | hlarge
      · exact Or.inl (List.mem_append_right _ hmem)
      · exact Or.inr (Nat.le_trans h.size_le hlarge)
  · intro x hx hxp hxold
    rw [idsAll_append, List.mem_append, not_or] at hxold
    rw [h'.frame x (Nat.lt_of_lt_of_le hx h.size_le) hxp hxold.2, h.frame x hx hxp hxold.1]

/-- A node gets another content, and then its children change. -/
theorem inside (hforest : d.IsForest) {id : NodeId} {c c' : Content π η} {cs : List (Plant π η)}
    (hold : d.Stands (some p) (node id c cs))
    (hp : ∃ b parent, d.node? p = some ⟨b, parent, front ++ [id] ++ back⟩)
    (hsize : d.size ≤ d₁.size) (hid : d₁.node? id = some ⟨c', some p, roots cs⟩)
    (hkeep : ∀ x : Nat, x < d.size → x ≠ id → d₁.node? x = d.node? x)
    (h : Regrown d₁ d' id [] cs new []) :
    Regrown d d' p front [node id c cs] [node id c' new] back := by
  have hpid : p ∉ id :: idsAll cs := by
    simpa [ids] using hold.alone.not_mem_parent hforest
  obtain ⟨hne, hpcs⟩ : p ≠ id ∧ p ∉ idsAll cs := by simpa using hpid
  obtain ⟨b, parent, hp⟩ := hp
  have hplt : p < d.size := lt_size_of_node? hp
  refine ⟨h.forest, Nat.le_trans hsize h.size_le, ⟨b, parent, hp, ?_⟩, ⟨⟨?_, h.stand⟩, trivial⟩,
    ?_, ?_⟩
  · rw [h.frame p (Nat.lt_of_lt_of_le hplt hsize) hne hpcs, hkeep p hplt hne, hp]
    simp only [List.map_cons, List.map_nil, Plant.root]
  · obtain ⟨e, parent', hbefore, hafter⟩ := h.place
    rw [hid] at hbefore
    obtain ⟨rfl, rfl, -⟩ := by simpa using hbefore
    simpa using hafter
  · intro x hx
    simp only [idsAll, ids, List.append_nil, List.mem_cons] at hx ⊢
    rcases hx with rfl | hx
    · exact Or.inl (Or.inl rfl)
    · rcases h.fresh x hx with hmem | hlarge
      · exact Or.inl (Or.inr hmem)
      · exact Or.inr (Nat.le_trans hsize hlarge)
  · intro x hx hxp hxold
    simp only [idsAll, ids, List.append_nil, List.mem_cons, not_or] at hxold
    rw [h.frame x (Nat.lt_of_lt_of_le hx hsize) hxold.1 hxold.2, hkeep x hx hxold.1]

/-- What is older than everything that changes stays. -/
theorem keeps_base {base : Document π η} (h : Regrown d d₁ p front old new back)
    (hext : Extends base d) (hp : ∀ x : Nat, x < base.size → x ≠ p)
    (hold : ∀ x : Nat, x ∈ idsAll old → base.size ≤ x) : Extends base d₁ where
  forest := h.forest
  size_le := Nat.le_trans hext.size_le h.size_le
  same x hx := by
    rw [h.frame x (Nat.lt_of_lt_of_le hx hext.size_le) (hp x hx)
      fun hmem => absurd hx (Nat.not_lt.mpr (hold x hmem)), hext.same x hx]

/-- The neighbouring stretch behind one that has changed. -/
theorem next (hforest : d.IsForest) (hold : d.AllStand (some p) (old ++ old'))
    (hroots : (roots (old ++ old')).Nodup)
    (h : Regrown d d₁ p front old new (roots old' ++ back)) :
    d₁.AllStand (some p) old' ∧
      ∃ c parent, d₁.node? p = some ⟨c, parent, (front ++ roots new) ++ roots old' ++ back⟩ := by
  have hnodup := hold.nodup_ids hforest hroots
  rw [idsAll_append] at hnodup
  obtain ⟨-, -, hapart⟩ := List.nodup_append.mp hnodup
  have hnotp := hold.not_mem_parent hforest
  rw [idsAll_append] at hnotp
  obtain ⟨-, hstand⟩ := allStand_append.mp hold
  refine ⟨hstand.congr fun x hx => ?_, ?_⟩
  · exact h.frame x (hstand.lt_size hx)
      (fun heq => hnotp (List.mem_append_right _ (heq ▸ hx))) fun hmem => hapart x hmem x hx rfl
  · obtain ⟨c, parent, -, hafter⟩ := h.place
    exact ⟨c, parent, by rw [hafter]; simp⟩

/-- The first part of a stretch changes. -/
theorem front_part {rest : List (Plant π η)} (hforest : d.IsForest)
    (hold : d.AllStand (some p) (old ++ rest)) (hroots : (roots (old ++ rest)).Nodup)
    (h : Regrown d d' p front old new (roots rest ++ back)) :
    Regrown d d' p front (old ++ rest) (new ++ rest) back := by
  obtain ⟨hrest, hplace⟩ := h.next hforest hold hroots
  exact append hforest hold hroots h (refl h.forest hrest hplace)

/-- The last part of a stretch changes. -/
theorem back_part {first : List (Plant π η)} (hforest : d.IsForest)
    (hold : d.AllStand (some p) (first ++ old)) (hroots : (roots (first ++ old)).Nodup)
    (h : Regrown d d' p (front ++ roots first) old new back) :
    Regrown d d' p front (first ++ old) (first ++ new) back := by
  obtain ⟨hfirst, -⟩ := allStand_append.mp hold
  obtain ⟨c, parent, hbefore, -⟩ := h.place
  have hplace :
      ∃ c parent, d.node? p = some ⟨c, parent, front ++ roots first ++ (roots old ++ back)⟩ :=
    ⟨c, parent, by rw [hbefore, List.append_assoc]⟩
  exact append hforest hold hroots (refl hforest hfirst hplace) h

/-- A young child of `p` lies in the stretch. -/
theorem mem_new (hbase : d.IsForest) (h : Regrown d d₁ p front old new back) {c : Nat}
    (hc : d.size ≤ c) (hparent : d₁.parent? c = some p) : c ∈ roots new := by
  obtain ⟨content, parent, hbefore, hafter⟩ := h.place
  have hmem := h.forest.mem_of_parent? hparent
  rw [children_of_node? hafter, List.append_assoc] at hmem
  have hold {x : Nat} (hx : x ∈ front ++ roots old ++ back) : x < d.size :=
    lt_size_of_parent? (hbase.parent?_of_mem (p := p) (by rwa [children_of_node? hbefore]))
  rcases List.mem_append.mp hmem with hc' | hc'
  · exact absurd (hold (by simp [hc'])) (Nat.not_lt.mpr hc)
  · rcases List.mem_append.mp hc' with hc' | hc'
    · exact hc'
    · exact absurd (hold (by simp [hc'])) (Nat.not_lt.mpr hc)

/-- Nodes of the base other than `p` and those of the stretch have no young children. -/
theorem parent?_ne (hbase : d.IsForest) (h : Regrown d d₁ p front old new back) {c x : Nat}
    (hc : d.size ≤ c) (hx : x < d.size) (hxp : x ≠ p) (hxold : x ∉ idsAll old) :
    d₁.parent? c ≠ some x := by
  intro hparent
  have hmem := h.forest.mem_of_parent? hparent
  rw [children, h.frame x hx hxp hxold, ← children] at hmem
  exact absurd (lt_size_of_parent? (hbase.parent?_of_mem hmem)) (Nat.not_lt.mpr hc)

theorem nodup_new (h : Regrown d d₁ p front old new back) : (idsAll new).Nodup := by
  obtain ⟨content, parent, -, hafter⟩ := h.place
  have hchildren := h.forest.nodup_children p
  rw [children_of_node? hafter, List.append_assoc] at hchildren
  obtain ⟨-, hchildren, -⟩ := List.nodup_append.mp hchildren
  exact h.stand.nodup_ids h.forest (List.nodup_append.mp hchildren).1

/-- A node of the stretch gets another content. -/
theorem refill {mid rest cs : List (Plant π η)} {id : NodeId} {c c' : Content π η}
    (h : Regrown d d₁ p front old (mid ++ node id c cs :: rest) back) (hforest : d'.IsForest)
    (hsize : d₁.size ≤ d'.size) (hid : d'.node? id = some ⟨c', some p, roots cs⟩)
    (hkeep : ∀ x : Nat, x < d₁.size → x ≠ id → d'.node? x = d₁.node? x) :
    Regrown d d' p front old (mid ++ node id c' cs :: rest) back := by
  have hids : idsAll (mid ++ node id c' cs :: rest) = idsAll (mid ++ node id c cs :: rest) := by
    simp [idsAll_append, idsAll, ids]
  have hmem : id ∈ idsAll (mid ++ node id c cs :: rest) := by simp [idsAll_append, idsAll, ids]
  have hpid : p ≠ id := fun heq => h.stand.not_mem_parent h.forest (heq ▸ hmem)
  have hnodup := h.nodup_new
  rw [idsAll_append, idsAll, ids, List.nodup_append, List.cons_append, List.nodup_cons] at hnodup
  obtain ⟨-, ⟨hbelow, -⟩, hmid⟩ := hnodup
  obtain ⟨hstandmid, ⟨-, hcs⟩, hrest⟩ := allStand_append.mp h.stand
  have hsame {ts : List (Plant π η)} {q : Option NodeId} (hts : d₁.AllStand q ts)
      (hout : id ∉ idsAll ts) : d'.AllStand q ts :=
    hts.congr fun x hx => hkeep x (hts.lt_size hx) fun heq => hout (heq ▸ hx)
  refine ⟨hforest, Nat.le_trans h.size_le hsize, ?_, allStand_append.mpr ⟨?_, ⟨hid, ?_⟩, ?_⟩,
    fun x hx => h.fresh x (hids ▸ hx), fun x hx hxp hxold => ?_⟩
  · obtain ⟨content, parent, hbefore, hafter⟩ := h.place
    refine ⟨content, parent, hbefore, ?_⟩
    rw [hkeep p (lt_size_of_node? hafter) hpid, hafter]
    simp [Plant.root]
  · exact hsame hstandmid fun hx => hmid id hx id List.mem_cons_self rfl
  · exact hsame hcs fun hx => hbelow (List.mem_append_left _ hx)
  · exact hsame hrest fun hx => hbelow (List.mem_append_right _ hx)
  · rw [hkeep x (Nat.lt_of_lt_of_le hx h.size_le), h.frame x hx hxp hxold]
    rintro rfl
    rcases h.fresh x hmem with hmem | hlarge
    · exact hxold hmem
    · exact absurd hx (Nat.not_lt.mpr hlarge)

/-- A plant of the stretch taken out. -/
theorem detach {mid rest : List (Plant π η)} {t : Plant π η}
    (h : Regrown d d₁ p front old (mid ++ t :: rest) back) :
    Regrown d (d₁.detach t.root) p front old (mid ++ rest) back := by
  have hroot : d₁.parent? t.root = some p := h.stand.parent?_root (by simp)
  have hnotp := h.stand.not_mem_parent h.forest
  have hnodup := h.nodup_new
  have htmem : t.root ∈ idsAll (mid ++ t :: rest) := root_mem_idsAll (by simp)
  have hpt : p ≠ t.root := fun heq => hnotp (heq ▸ htmem)
  -- only `p` and the top of `t` change
  have hkeep (x : NodeId) (hxp : x ≠ p) (hxt : x ≠ t.root) :
      (d₁.detach t.root).node? x = d₁.node? x := by
    rw [node?_detach h.forest]
    rcases hx : d₁.node? x with _ | n
    · rfl
    · have hmem : t.root ∉ n.children := by
        intro hmem
        have hparent := h.forest.parent?_of_mem (p := x) (by rwa [children_of_node? hx])
        exact hxp (Option.some.inj (hparent.symm.trans hroot))
      simp [hxt, filter_ne_of_not_mem hmem]
  rw [idsAll_append, idsAll] at hnodup
  obtain ⟨-, hnodup', hapart⟩ := List.nodup_append.mp hnodup
  obtain ⟨-, -, hapart'⟩ := List.nodup_append.mp hnodup'
  have hsub (x : NodeId) (hx : x ∈ idsAll (mid ++ rest)) :
      x ∈ idsAll (mid ++ t :: rest) ∧ x ≠ t.root := by
    rw [idsAll_append] at hx ⊢
    rw [idsAll, List.mem_append, List.mem_append]
    rcases List.mem_append.mp hx with hx | hx
    · exact ⟨Or.inl hx, fun heq => hapart x hx t.root (by simp [t.root_mem_ids]) heq⟩
    · exact ⟨Or.inr (Or.inr hx), fun heq => hapart' t.root t.root_mem_ids x hx heq.symm⟩
  refine ⟨h.forest.detach _, by simpa using h.size_le, ?_, ?_, ?_, ?_⟩
  · obtain ⟨c, parent, hbefore, hafter⟩ := h.place
    refine ⟨c, parent, hbefore, ?_⟩
    have hchildren := h.forest.nodup_children p
    rw [children_of_node? hafter] at hchildren
    have hlist : front ++ roots (mid ++ t :: rest) ++ back =
        (front ++ roots mid) ++ t.root :: (roots rest ++ back) := by simp
    have hwithout : front ++ roots (mid ++ rest) ++ back =
        (front ++ roots mid) ++ (roots rest ++ back) := by simp
    rw [hlist] at hchildren hafter
    have hfilter := hchildren.erase_eq_filter t.root
    rw [List.erase_append_right, List.erase_cons_head] at hfilter
    · rw [node?_detach h.forest, hafter, hwithout, hfilter]
      simp [hpt]
    · intro hmem
      exact (List.nodup_append.mp hchildren).2.2 _ hmem _ List.mem_cons_self rfl
  · obtain ⟨hmid, hrest⟩ := allStand_append.mp h.stand
    have hstand : d₁.AllStand (some p) (mid ++ rest) := allStand_append.mpr ⟨hmid, hrest.2⟩
    refine hstand.congr fun x hx => ?_
    obtain ⟨hx, hxt⟩ := hsub x hx
    exact hkeep x (fun heq => hnotp (heq ▸ hx)) hxt
  · exact fun x hx => h.fresh x (hsub x hx).1
  · intro x hx hxp hxold
    rw [← h.frame x hx hxp hxold]
    refine hkeep x hxp fun hxt => ?_
    rcases h.fresh x (hxt ▸ htmem) with hmem | hlarge
    · exact hxold hmem
    · exact absurd hx (Nat.not_lt.mpr hlarge)

/-- The first plants of the stretch taken out, one after the other. -/
theorem detachAll {ts rest : List (Plant π η)}
    (h : Regrown d d₁ p front old (ts ++ rest) back) :
    Regrown d ((roots ts).foldl (fun d id => d.detach id) d₁) p front old rest back := by
  induction ts generalizing d₁ with
  | nil => exact h
  | cons t ts ih =>
    have hfirst : Regrown d (d₁.detach t.root) p front old (ts ++ rest) back := by
      have hout : Regrown d d₁ p front old ([] ++ t :: (ts ++ rest)) back := h
      simpa using hout.detach
    exact ih hfirst

/-- A young plant without a parent put at the end of an old node. -/
theorem add {p : Nat} {t : Plant π η} (hext : Extends d d₁) (hp : p < d.size)
    (ht : d₁.Stands none t) (hkind : d₁.isFragment t.root = false)
    (hyoung : ∀ x : Nat, x ∈ t.ids → d.size ≤ x) :
    Regrown d (d₁.append p t.root) p (d.children p) [] [t] [] := by
  obtain ⟨⟨content, parent, cs⟩, hpnode⟩ := exists_node? hp
  have hpids : p ∉ t.ids := fun hmem => absurd hp (Nat.not_lt.mpr (hyoung p hmem))
  have hpt : p ≠ t.root := fun heq => hpids (heq ▸ t.root_mem_ids)
  have hfit : d₁.Fits p t.root none := by
    refine ⟨Nat.lt_of_lt_of_le hp hext.size_le, ht.lt_size t.root_mem_ids, hkind,
      by simp, ?_⟩
    rintro (heq | hanc)
    · exact hpt heq.symm
    · exact hpids (ht.mem_of_ancestor hext.forest t.root_mem_ids hanc)
  have hnode := node?_insertBefore_root hext.forest hfit ht.parent?_eq
  have hkeep (x : NodeId) (hxp : x ≠ p) (hxt : x ≠ t.root) :
      (d₁.append p t.root).node? x = d₁.node? x := by
    rw [Document.append, hnode]
    cases d₁.node? x <;> simp [hxp, hxt]
  refine ⟨hext.forest.insertBefore hfit, ?_, ⟨content, parent, ?_, ?_⟩, ⟨?_, trivial⟩, ?_, ?_⟩
  · rw [Document.append, size_insertBefore hext.forest hfit]
    exact hext.size_le
  · rw [hpnode, children_of_node? hpnode]
    simp
  · rw [Document.append, hnode, hext.node? hpnode, children_of_node? hpnode]
    simp [insertAt_none, hpt]
  · have hnodup := ht.nodup_ids hext.forest
    obtain ⟨id, c, us⟩ := t
    obtain ⟨hid, hus⟩ := ht
    have hself : id ≠ p := Ne.symm hpt
    refine ⟨?_, hus.congr fun x hx => ?_⟩
    · rw [Document.append, hnode, Plant.root, hid]
      simp [hself]
    · refine hkeep x (fun heq => hpids (heq ▸ List.mem_cons_of_mem _ hx)) ?_
      rintro rfl
      exact (List.nodup_cons.mp hnodup).1 hx
  · exact fun x hx => Or.inr (hyoung x (idsAll_single t ▸ hx))
  · intro x hx hxp _
    rw [hkeep x hxp, hext.same x hx]
    rintro rfl
    exact absurd hx (Nat.not_lt.mpr (hyoung _ t.root_mem_ids))

/-- A new node put at the end of a node. -/
theorem create (h : d.IsForest) {p : Nat} (hp : p < d.size) {c : Content π η}
    (hc : c.kind ≠ .fragment) :
    Regrown d ((d.create c).2.append p d.size) p (d.children p) [] [leaf d.size c] [] := by
  have hnew : (d.create c).2.node? d.size = some ⟨c, none, []⟩ := by
    rw [node?_create, if_pos rfl]
  have hkind : (d.create c).2.isFragment (leaf (π := π) (η := η) d.size c).root = false := by
    rw [leaf, Plant.root, isFragment_of_node? hnew]
    simpa using hc
  refine add (Extends.create h c) hp (stands_leaf.mpr hnew) hkind fun x hx => ?_
  have hxd : x = d.size := by simpa [ids, idsAll, leaf] using hx
  exact Nat.le_of_eq hxd.symm

end Regrown
end Stencil.Document
