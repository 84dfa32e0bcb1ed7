/-
  Stencil/Proofs/Render/Insert.lean
  =================================
  **Putting values where a marker stands.**

  A value is shown by nodes: those that it brings along, and text nodes made for its
  texts.  `Bears d vs ss` says what the values `vs` have to show, in order: plants that
  are in the document already, and texts.  Showing them makes the text nodes and nothing
  else (`growsTo_of_bears`); putting all of it in front of a marker changes one stretch of
  one region (`Regrown.insertAll`), provided that what is put in is younger than what the
  region is compared with.  The three ways in which content comes to its place are put
  together from these steps and from taking a node out (`Regrown.detach`).
-/
import Stencil.Render.Bind
import Stencil.Proofs.Document.Regrow

namespace Stencil.Render

open Document Document.Plant

/-! ### Runs -/

theorem run_bind {α β : Type} {act : Run α} {w w' : World} {a : α}
    (h : act w = some (a, w')) (next : α → Run β) : (act >>= next) w = next a w' := by
  change (act w).bind _ = _
  rw [h]
  rfl

theorem run_of_bind {α β : Type} {act : Run α} {next : α → Run β} {w w' : World} {b : β}
    (hrun : (act >>= next) w = some (b, w')) :
    ∃ a w₁, act w = some (a, w₁) ∧ next a w₁ = some (b, w') := by
  obtain ⟨⟨a, w₁⟩, hfirst, hrest⟩ := Option.bind_eq_some_iff.mp hrun
  exact ⟨a, w₁, hfirst, hrest⟩

theorem run_onPage {α : Type} (f : Page → α × Page) (w : World) :
    onPage f w = some ((f w.page).1, { w with page := (f w.page).2 }) := rfl

theorem run_changePage (f : Page → Page) (w : World) :
    changePage f w = some ((), { w with page := f w.page }) := rfl

theorem run_page (w : World) : page w = some (w.page, w) := rfl

/-! ### Moving plants -/

/-- A plant that can be moved as a whole: it stands somewhere and is no fragment. -/
def Loose (d : Page) (t : Plant Value Action) : Prop :=
  d.isFragment t.root = false ∧ ∃ parent, d.Stands parent t

theorem Loose.mono {d d' : Page} {t : Plant Value Action} (h : Loose d t)
    (hext : Extends d d') : Loose d' t := by
  obtain ⟨hkind, parent, hstand⟩ := h
  obtain ⟨id, c, cs⟩ := t
  refine ⟨?_, parent, hext.stands hstand⟩
  rw [Plant.root, isFragment_of_node? hstand.node?_eq] at hkind
  rw [Plant.root, isFragment_of_node? (hext.node? hstand.node?_eq)]
  exact hkind

theorem Loose.lt_size {d : Page} {t : Plant Value Action} (h : Loose d t) {x : Nat}
    (hx : x ∈ t.ids) : x < d.size := by
  obtain ⟨-, parent, hstand⟩ := h
  exact hstand.lt_size hx

theorem loose_create_text (d : Page) (s : String) :
    Loose (d.create (.text s)).2 (leaf d.size (.text s)) := by
  have hnode : (d.create (.text s)).2.node? d.size = some ⟨.text s, none, []⟩ := by
    rw [node?_create, if_pos rfl]
  refine ⟨?_, none, stands_leaf.mpr hnode⟩
  rw [leaf, Plant.root, isFragment_of_node? hnode]
  rfl

/-- What putting nodes in front of a marker makes of every node. -/
theorem node?_insertAll {d : Page} (h : d.IsForest) {p r : NodeId} {nodes front back : List NodeId}
    (hfit : ∀ c ∈ nodes, d.Fits p c (some r)) (hparent : ∀ c ∈ nodes, d.parent? c ≠ some p)
    (hnodup : nodes.Nodup) (hp : d.children p = front ++ r :: back) :
    (insertAll d p (some r) nodes).IsForest ∧ (insertAll d p (some r) nodes).size = d.size ∧
      ∀ x, (insertAll d p (some r) nodes).node? x = (d.node? x).map fun n =>
        ⟨n.content, if x ∈ nodes then some p else n.parent,
          if x = p then front ++ nodes ++ r :: back
          else n.children.filter fun c => !nodes.contains c⟩ := by
  induction nodes generalizing d front with
  | nil =>
    refine ⟨h, rfl, fun x => ?_⟩
    rcases hx : d.node? x with _ | ⟨c, parent, cs⟩
    · simpa [insertAll] using hx
    · by_cases hxp : x = p
      · subst hxp
        obtain rfl : cs = front ++ r :: back := (children_of_node? hx).symm.trans hp
        simp [insertAll, hx]
      · simp [insertAll, hx, hxp]
  | cons c nodes ih =>
    obtain ⟨hc, hnodup'⟩ := List.nodup_cons.mp hnodup
    have hfitc := hfit c List.mem_cons_self
    have hfront : r ∉ front := by
      have hchildren := h.nodup_children p
      rw [hp] at hchildren
      obtain ⟨-, -, hapart⟩ := List.nodup_append.mp hchildren
      exact fun hmem => hapart r hmem r List.mem_cons_self rfl
    have hcp : c ∉ d.children p := fun hmem =>
      hparent c List.mem_cons_self (h.parent?_of_mem hmem)
    have hp₁ : (d.insertBefore p c (some r)).children p = (front ++ [c]) ++ r :: back := by
      rw [children_insertBefore h hfitc, if_pos rfl, filter_ne_of_not_mem hcp, hp,
        insertAt_before hfront]
      simp
    have hfit₁ (e : NodeId) (he : e ∈ nodes) :
        (d.insertBefore p c (some r)).Fits p e (some r) := by
      have hfite := hfit e (List.mem_cons_of_mem _ he)
      refine ⟨?_, ?_, ?_, hfite.ne_ref, ?_⟩
      · rw [size_insertBefore h hfitc]
        exact hfite.parent_lt
      · rw [size_insertBefore h hfitc]
        exact hfite.child_lt
      · rw [isFragment_insertBefore h hfitc]
        exact hfite.notFragment
      · rintro (heq | hanc)
        · exact hfite.notAbove (Or.inl heq)
        · rcases ancestor_of_insertBefore h hfitc hanc with hep | ⟨-, hcp⟩
          · exact hfite.notAbove (Or.inr hep)
          · exact hfitc.notAbove hcp
    have hparent₁ (e : NodeId) (he : e ∈ nodes) :
        (d.insertBefore p c (some r)).parent? e ≠ some p := by
      have hne : e ≠ c := fun heq => hc (heq ▸ he)
      rw [parent?_insertBefore h hfitc, if_neg hne]
      exact hparent e (List.mem_cons_of_mem _ he)
    obtain ⟨hforest, hsize, hnode⟩ := ih (h.insertBefore hfitc) hfit₁ hparent₁ hnodup' hp₁
    refine ⟨hforest, hsize.trans (size_insertBefore h hfitc), fun x => ?_⟩
    have hstep : insertAll d p (some r) (c :: nodes) =
        insertAll (d.insertBefore p c (some r)) p (some r) nodes := rfl
    rw [hstep, hnode x, node?_insertBefore h hfitc, Option.map_map]
    rcases d.node? x with _ | ⟨content, parent, cs⟩
    · rfl
    · have hup : (if x ∈ nodes then some p else if x = c then some p else parent) =
          if x ∈ c :: nodes then some p else parent := by
        by_cases hxc : x = c <;> simp [hxc]
      refine congrArg some ((NodeData.mk.injEq ..).mpr ⟨rfl, hup, ?_⟩)
      by_cases hxp : x = p
      · simp [hxp]
      · have hfilter (y : NodeId) : (!nodes.contains y && y != c) = !(c :: nodes).contains y := by
          by_cases hyc : y = c <;> simp [hyc]
        simp only [hxp, if_false, List.filter_filter, hfilter]

/-- The nodes below the tops of plants are not tops themselves. -/
theorem not_mem_roots {ts : List (Plant Value Action)} (h : (idsAll ts).Nodup) {id : NodeId}
    {c : Content Value Action} {cs : List (Plant Value Action)} (ht : node id c cs ∈ ts)
    {x : NodeId} (hx : x ∈ idsAll cs) : x ∉ roots ts := by
  induction ts with
  | nil => cases ht
  | cons t ts ih =>
    obtain ⟨hself, hts, hapart⟩ := List.nodup_append.mp h
    rcases List.mem_cons.mp ht with rfl | ht
    · intro hmem
      rcases List.mem_cons.mp hmem with heq | hmem
      · subst heq
        exact (List.nodup_cons.mp hself).1 hx
      · exact hapart x (List.mem_cons_of_mem _ hx) x (root_mem_idsAll hmem) rfl
    · intro hmem
      rcases List.mem_cons.mp hmem with heq | hmem
      · have hxts : x ∈ idsAll ts := mem_idsAll.mpr ⟨_, ht, List.mem_cons_of_mem _ hx⟩
        exact hapart x (heq ▸ t.root_mem_ids) x hxts rfl
      · exact ih hts ht hmem

/-- Loose plants put in front of a child `r` of `p` stand there, and a node other than `p` that is
    none of their tops and has none as a child is what it was. -/
theorem insertAll_moves {d : Page} (hforest : d.IsForest) {p : Nat} {r : NodeId}
    {front back : List NodeId} {ts : List (Plant Value Action)} (hlt : p < d.size)
    (hp : d.children p = front ++ r :: back) (hloose : ∀ t ∈ ts, Loose d t)
    (hnodup : (idsAll ts).Nodup) (hpts : p ∉ idsAll ts) (hr : r ∉ idsAll ts)
    (hparent : ∀ c ∈ roots ts, d.parent? c ≠ some p) :
    (insertAll d p (some r) (roots ts)).IsForest ∧
      (insertAll d p (some r) (roots ts)).size = d.size ∧
      (insertAll d p (some r) (roots ts)).AllStand (some p) ts ∧
      (insertAll d p (some r) (roots ts)).node? p = (d.node? p).map (fun n =>
        ⟨n.content, n.parent, front ++ roots ts ++ r :: back⟩) ∧
      ∀ x ≠ p, x ∉ roots ts → (∀ c ∈ roots ts, c ∉ d.children x) →
        (insertAll d p (some r) (roots ts)).node? x = d.node? x := by
  have hfit (c : NodeId) (hc : c ∈ roots ts) : d.Fits p c (some r) := by
    obtain ⟨t, ht, rfl⟩ := List.mem_map.mp hc
    obtain ⟨hkind, q, hq⟩ := hloose t ht
    have htop : t.root ∈ idsAll ts := root_mem_idsAll hc
    refine ⟨hlt, (hloose t ht).lt_size t.root_mem_ids, hkind, fun heq => ?_, ?_⟩
    · exact hr (Option.some.inj heq ▸ htop)
    · rintro (heq | hanc)
      · exact hpts (heq ▸ htop)
      · have hmem := hq.alone.mem_of_ancestor hforest (x := t.root)
          (by simp [idsAll, t.root_mem_ids]) hanc
        exact hpts (mem_idsAll.mpr ⟨t, ht, by simpa [idsAll] using hmem⟩)
  obtain ⟨hforest', hsize, hnode⟩ :=
    node?_insertAll hforest hfit hparent (nodup_roots hnodup) hp
  have hkeep (x : NodeId) (hxp : x ≠ p) (hxts : x ∉ roots ts)
      (hchildren : ∀ c ∈ roots ts, c ∉ d.children x) :
      (insertAll d p (some r) (roots ts)).node? x = d.node? x := by
    rw [hnode]
    rcases hx : d.node? x with _ | n
    · rfl
    · have hfilter : n.children.filter (fun c => !(roots ts).contains c) = n.children := by
        refine List.filter_eq_self.mpr fun c hc => ?_
        have hmem : c ∉ roots ts := fun hmem =>
          hchildren c hmem (by rwa [children_of_node? hx])
        simpa using hmem
      simp only [Option.map_some, hxp, hxts, if_false, hfilter]
  refine ⟨hforest', hsize, allStand_iff.mpr fun t ht => ?_, ?_, hkeep⟩
  · obtain ⟨id, c, cs⟩ := t
    obtain ⟨-, q, hq, hcs⟩ := hloose _ ht
    have hid : id ∈ roots ts := List.mem_map.mpr ⟨_, ht, rfl⟩
    have hidp : id ≠ p := fun heq => hpts (heq ▸ root_mem_idsAll hid)
    have hroots : (roots cs).filter (fun c => !(roots ts).contains c) = roots cs := by
      refine List.filter_eq_self.mpr fun x hx => ?_
      have hmem : x ∉ roots ts := not_mem_roots hnodup ht (root_mem_idsAll hx)
      simpa using hmem
    refine ⟨?_, hcs.congr fun x hx => ?_⟩
    · rw [hnode, hq]
      simp only [Option.map_some, hid, hidp, if_true, if_false, hroots]
    · have hxts : x ∈ idsAll ts := mem_idsAll.mpr ⟨_, ht, List.mem_cons_of_mem _ hx⟩
      refine hkeep x (fun heq => hpts (heq ▸ hxts)) (not_mem_roots hnodup ht hx) fun y hy hyx => ?_
      exact not_mem_roots hnodup ht (hcs.mem_of_child hx hyx) hy
  · have hpmem : p ∉ roots ts := fun hmem => hpts (root_mem_idsAll hmem)
    rw [hnode]
    simp [hpmem]

/-- Young plants put in front of a plant of a stretch. -/
theorem regrown_insertAll {d d₁ : Page} {p : NodeId} {front back : List NodeId}
    {old mid rest ts : List (Plant Value Action)} {m : Plant Value Action} (hbase : d.IsForest)
    (h : d.Regrown d₁ p front old (mid ++ m :: rest) back) (hloose : ∀ t ∈ ts, Loose d₁ t)
    (hnodup : (idsAll ts).Nodup) (hyoung : ∀ x : Nat, x ∈ idsAll ts → d.size ≤ x)
    (hapart : ∀ x ∈ idsAll ts, x ∉ idsAll (mid ++ m :: rest)) :
    d.Regrown (insertAll d₁ p (some m.root) (roots ts)) p front old (mid ++ ts ++ m :: rest)
      back := by
  obtain ⟨content, parent, hbefore, hafter⟩ := h.place
  have hplt : p < d.size := lt_size_of_node? hbefore
  have hp : d₁.children p = (front ++ roots mid) ++ m.root :: (roots rest ++ back) := by
    rw [children_of_node? hafter]
    simp
  have hpts : p ∉ idsAll ts := fun hmem => absurd hplt (Nat.not_lt.mpr (hyoung p hmem))
  have hm : m.root ∉ idsAll ts := fun hmem => hapart _ hmem (root_mem_idsAll (by simp))
  have hparent (c : NodeId) (hc : c ∈ roots ts) : d₁.parent? c ≠ some p := by
    intro hcp
    have htop := root_mem_idsAll hc
    exact hapart c htop (root_mem_idsAll (h.mem_new hbase (hyoung c htop) hcp))
  obtain ⟨hforest, hsize, hmoved, hplace, hkeep⟩ := insertAll_moves h.forest
    (Nat.lt_of_lt_of_le hplt h.size_le) hp hloose hnodup hpts hm hparent
  have hnotp := h.stand.not_mem_parent h.forest
  have hstay : (insertAll d₁ p (some m.root) (roots ts)).AllStand (some p) (mid ++ m :: rest) := by
    refine h.stand.congr fun x hx => ?_
    refine hkeep x (fun heq => hnotp (heq ▸ hx)) (fun hmem => ?_) fun y hy hyx => ?_
    · exact hapart x (root_mem_idsAll hmem) hx
    · exact hapart y (root_mem_idsAll hy) (h.stand.mem_of_child hx hyx)
  refine ⟨hforest, hsize ▸ h.size_le, ⟨content, parent, hbefore, ?_⟩, ?_, ?_, ?_⟩
  · rw [hplace, hafter]
    simp
  · obtain ⟨hmid, hrest⟩ := allStand_append.mp hstay
    exact allStand_append.mpr ⟨allStand_append.mpr ⟨hmid, hmoved⟩, hrest⟩
  · intro x hx
    by_cases hxts : x ∈ idsAll ts
    · exact Or.inr (hyoung x hxts)
    · refine h.fresh x ?_
      simp only [idsAll_append, List.mem_append] at hx ⊢
      tauto
  · intro x hx hxp hxold
    rw [← h.frame x hx hxp hxold]
    refine hkeep x hxp (fun hmem => ?_) fun c hc hcx => ?_
    · exact absurd hx (Nat.not_lt.mpr (hyoung x (root_mem_idsAll hmem)))
    · exact h.parent?_ne hbase (hyoung c (root_mem_idsAll hc)) hx hxp hxold
        (h.forest.parent?_of_mem hcx)

/-! ### What values have to show -/

/-- A part of what a value shows: a plant that is there, or a text. -/
inductive Seed where
  | plant (t : Plant Value Action)
  | text (value : String)

namespace Seed

def tree : Seed → Tree
  | plant t => t.tree
  | text value => .text value

/-- The plants among the parts. -/
def plants : List Seed → List (Plant Value Action)
  | [] => []
  | plant t :: ss => t :: plants ss
  | text _ :: ss => plants ss

/-- The parts with a text node for each text, the first of which gets the number `base`. -/
def grow (base : Nat) : List Seed → List (Plant Value Action)
  | [] => []
  | plant t :: ss => t :: grow base ss
  | text value :: ss => leaf base (.text value) :: grow (base + 1) ss

/-- The number of texts. -/
def textCount : List Seed → Nat
  | [] => 0
  | plant _ :: ss => textCount ss
  | text _ :: ss => textCount ss + 1

theorem plants_texts (texts : List String) : plants (texts.map Seed.text) = [] := by
  induction texts with
  | nil => rfl
  | cons text texts ih => exact ih

theorem plants_append (ss ss' : List Seed) : plants (ss ++ ss') = plants ss ++ plants ss' := by
  induction ss with
  | nil => rfl
  | cons s ss ih => cases s <;> simp [plants, ih]

theorem textCount_append (ss ss' : List Seed) :
    textCount (ss ++ ss') = textCount ss + textCount ss' := by
  induction ss with
  | nil => simp [textCount]
  | cons s ss ih =>
    cases s <;> simp only [List.cons_append, textCount, ih]
    omega

theorem grow_append (base : Nat) (ss ss' : List Seed) :
    grow base (ss ++ ss') = grow base ss ++ grow (base + textCount ss) ss' := by
  induction ss generalizing base with
  | nil => rfl
  | cons s ss ih =>
    cases s with
    | plant t => simp [grow, textCount, ih]
    | text value =>
      have hsum : base + 1 + textCount ss = base + (textCount ss + 1) := by omega
      simp [grow, textCount, ih, hsum]

theorem trees_grow (base : Nat) (ss : List Seed) : trees (grow base ss) = ss.map tree := by
  induction ss generalizing base with
  | nil => rfl
  | cons s ss ih => cases s <;> simp [grow, trees, ih, tree, leaf, Plant.tree]

/-- The numbers of what is shown are those of the plants and new ones. -/
theorem mem_idsAll_grow {base x : Nat} {ss : List Seed} (h : x ∈ idsAll (grow base ss)) :
    x ∈ idsAll (plants ss) ∨ base ≤ x := by
  induction ss generalizing base with
  | nil => simp [grow, idsAll] at h
  | cons s ss ih =>
    cases s with
    | plant t =>
      rcases List.mem_append.mp h with h | h
      · exact Or.inl (List.mem_append_left _ h)
      · rcases ih h with h | h
        · exact Or.inl (List.mem_append_right _ h)
        · exact Or.inr h
    | text value =>
      simp only [grow, leaf, idsAll, ids, List.cons_append, List.nil_append, List.mem_cons] at h
      rcases h with rfl | h
      · exact Or.inr (Nat.le_refl _)
      · rcases ih h with h | h
        · exact Or.inl h
        · exact Or.inr (by omega)

theorem nodup_grow {base : Nat} {ss : List Seed} (h : (idsAll (plants ss)).Nodup)
    (hbase : ∀ x : Nat, x ∈ idsAll (plants ss) → x < base) : (idsAll (grow base ss)).Nodup := by
  induction ss generalizing base with
  | nil => exact List.nodup_nil
  | cons s ss ih =>
    cases s with
    | plant t =>
      obtain ⟨ht, hss, hapart⟩ := List.nodup_append.mp h
      have hbase' (x : Nat) (hx : x ∈ idsAll (plants ss)) : x < base :=
        hbase x (List.mem_append_right _ hx)
      refine List.nodup_append.mpr ⟨ht, ih hss hbase', fun x hx y hy heq => ?_⟩
      subst heq
      rcases mem_idsAll_grow hy with hy | hy
      · exact hapart x hx x hy rfl
      · exact absurd (hbase x (List.mem_append_left _ hx)) (Nat.not_lt.mpr hy)
    | text value =>
      refine List.nodup_cons.mpr ⟨fun hmem => ?_, ih h fun x hx => ?_⟩
      · rcases mem_idsAll_grow (by simpa [idsAll, ids] using hmem) with hmem | hmem
        · exact absurd (hbase base hmem) (Nat.lt_irrefl _)
        · omega
      · exact Nat.lt_succ_of_lt (hbase x hx)

end Seed

open Seed

/-- `Bears d vs ss`: in the document `d` the values `vs` have the parts `ss` to show. -/
inductive Bears (d : Page) : List Value → List Seed → Prop where
  | nil : Bears d [] []
  | empty {vs : List Value} {ss : List Seed} (h : Bears d vs ss) : Bears d (.empty :: vs) ss
  | bool {vs : List Value} {ss : List Seed} (b : Bool) (h : Bears d vs ss) :
      Bears d (.bool b :: vs) ss
  | number {vs : List Value} {ss : List Seed} (n : Number) (h : Bears d vs ss) :
      Bears d (.number n :: vs) (.text n.text :: ss)
  | text {vs : List Value} {ss : List Seed} (s : String) (h : Bears d vs ss) :
      Bears d (.text s :: vs) (.text s :: ss)
  | node {vs : List Value} {ss : List Seed} {t : Plant Value Action} (ht : Loose d t)
      (h : Bears d vs ss) : Bears d (.node t.root :: vs) (.plant t :: ss)
  | list {items vs : List Value} {ss ss' : List Seed} (hitems : Bears d items ss)
      (h : Bears d vs ss') : Bears d (.list items :: vs) (ss ++ ss')

namespace Bears

variable {d d' : Page} {vs vs' : List Value} {ss ss' : List Seed}

theorem append (h : Bears d vs ss) (h' : Bears d vs' ss') : Bears d (vs ++ vs') (ss ++ ss') := by
  induction h with
  | nil => exact h'
  | empty _ ih => exact .empty ih
  | bool b _ ih => exact .bool b ih
  | number n _ ih => exact .number n ih
  | text s _ ih => exact .text s ih
  | node ht _ ih => exact .node ht ih
  | list hitems _ _ ih =>
    rw [List.append_assoc]
    exact .list hitems ih

/-- What values have to show depends on the nodes of their plants only. -/
theorem congr (h : Bears d vs ss) (hsame : ∀ x ∈ idsAll (plants ss), d'.node? x = d.node? x) :
    Bears d' vs ss := by
  induction h with
  | nil => exact .nil
  | empty _ ih => exact .empty (ih hsame)
  | bool b _ ih => exact .bool b (ih hsame)
  | number n _ ih => exact .number n (ih hsame)
  | text s _ ih => exact .text s (ih hsame)
  | @node vs ss t ht _ ih =>
    obtain ⟨hkind, parent, hstand⟩ := ht
    have hsame' (x : NodeId) (hx : x ∈ t.ids) : d'.node? x = d.node? x :=
      hsame x (List.mem_append_left _ hx)
    refine .node ⟨?_, parent, ?_⟩ (ih fun x hx => hsame x (List.mem_append_right _ hx))
    · rw [isFragment, kind, hsame' _ t.root_mem_ids]
      exact hkind
    · exact hstand.congr hsame'
  | list _ _ ihitems ih =>
    rw [plants_append, idsAll_append] at hsame
    exact .list (ihitems fun x hx => hsame x (List.mem_append_left _ hx))
      (ih fun x hx => hsame x (List.mem_append_right _ hx))

theorem loose (h : Bears d vs ss) : ∀ t ∈ plants ss, Loose d t := by
  induction h with
  | nil => simp [plants]
  | empty _ ih => exact ih
  | bool _ _ ih => exact ih
  | number _ _ ih => exact ih
  | text _ _ ih => exact ih
  | node ht _ ih =>
    intro t hmem
    rcases List.mem_cons.mp hmem with rfl | hmem
    · exact ht
    · exact ih t hmem
  | list _ _ ihitems ih =>
    intro t hmem
    rw [plants_append] at hmem
    rcases List.mem_append.mp hmem with hmem | hmem
    · exact ihitems t hmem
    · exact ih t hmem

theorem lt_size (h : Bears d vs ss) {x : Nat} (hx : x ∈ idsAll (plants ss)) : x < d.size := by
  obtain ⟨t, ht, hxt⟩ := mem_idsAll.mp hx
  exact (h.loose t ht).lt_size hxt

theorem mono (h : Bears d vs ss) (hext : d.Extends d') : Bears d' vs ss :=
  h.congr fun x hx => hext.same x (h.lt_size hx)

end Bears

/-- In every world whose page extends `d`, showing `vs` makes text nodes for the texts of `ss`,
    leaves all other nodes as they are and gives the tops of what `ss` has grown to. -/
def GrowsTo (c : Calls) (d : Page) (vs : List Value) (ss : List Seed) : Prop :=
  ∀ {w : World}, d.Extends w.page →
    ∃ d', nodesOfAll c vs w = some (roots (grow w.page.size ss), { w with page := d' }) ∧
      w.page.Extends d' ∧ d'.size = w.page.size + textCount ss ∧
      ∀ t ∈ grow w.page.size ss, Loose d' t

/-- One value that makes a text node, and then the others. -/
theorem growsTo_text {c : Calls} {d : Page} {v : Value} {vs : List Value} {ss : List Seed}
    {s : String} (hv : nodesOf c v = do return [← onPage (·.createText s)])
    (h : GrowsTo c d vs ss) : GrowsTo c d (v :: vs) (.text s :: ss) := by
  intro w hext
  have hnew : w.page.Extends (w.page.create (.text s)).2 := Extends.create hext.forest _
  obtain ⟨d', hrun, hext', hsize, hloose⟩ :=
    h (w := { w with page := (w.page.create (.text s)).2 }) (hext.trans hnew)
  rw [size_create] at hrun hsize hloose
  have hleaf : Loose (w.page.create (.text s)).2 (leaf w.page.size (.text s)) := by
    have hnode : (w.page.create (.text s)).2.node? w.page.size = some ⟨.text s, none, []⟩ := by
      rw [node?_create, if_pos rfl]
    refine ⟨?_, none, stands_leaf.mpr hnode⟩
    rw [leaf, Plant.root, isFragment_of_node? hnode]
    rfl
  refine ⟨d', ?_, hnew.trans hext', ?_, ?_⟩
  · have hfront : nodesOf c v w =
        some ([w.page.size], { w with page := (w.page.create (.text s)).2 }) := by
      rw [hv]
      rfl
    rw [nodesOfAll, run_bind hfront, run_bind hrun]
    rfl
  · rw [hsize, textCount]
    omega
  · intro t ht
    rcases List.mem_cons.mp ht with rfl | ht
    · exact hleaf.mono hext'
    · exact hloose t ht

/-- One value that shows nothing, and then the others. -/
theorem growsTo_nothing {c : Calls} {d : Page} {v : Value} {vs : List Value} {ss : List Seed}
    (hv : nodesOf c v = pure []) (h : GrowsTo c d vs ss) : GrowsTo c d (v :: vs) ss := by
  intro w hext
  obtain ⟨d', hrun, hrest⟩ := h hext
  refine ⟨d', ?_, hrest⟩
  have hfront : nodesOf c v w = some ([], w) := by
    rw [hv]
    rfl
  rw [nodesOfAll, run_bind hfront, run_bind hrun]
  rfl

/-- Showing values makes text nodes and nothing else. -/
theorem growsTo_of_bears {d : Page} {vs : List Value} {ss : List Seed} (h : Bears d vs ss)
    (c : Calls) : GrowsTo c d vs ss := by
  induction h with
  | nil =>
    intro w hext
    exact ⟨w.page, rfl, Extends.refl hext.forest, rfl, by simp [grow]⟩
  | empty _ ih => exact growsTo_nothing (by simp [nodesOf]) ih
  | bool b _ ih => exact growsTo_nothing (by simp [nodesOf]) ih
  | number n _ ih => exact growsTo_text (by rw [nodesOf]) ih
  | text s _ ih => exact growsTo_text (by rw [nodesOf]) ih
  | @node vs ss t ht _ ih =>
    intro w hext
    obtain ⟨d', hrun, hext', hsize, hloose⟩ := ih hext
    refine ⟨d', ?_, hext', hsize, ?_⟩
    · have hkind := (ht.mono hext).1
      have hfront : nodesOf c (.node t.root) w = some ([t.root], w) := by
        rw [nodesOf, run_bind (run_page w), hkind]
        rfl
      rw [nodesOfAll, run_bind hfront, run_bind hrun]
      rfl
    · intro u hu
      rcases List.mem_cons.mp hu with rfl | hu
      · exact (ht.mono hext).mono hext'
      · exact hloose u hu
  | @list items vs ss ss' _ _ ihitems ih =>
    intro w hext
    obtain ⟨d₁, hrun₁, hext₁, hsize₁, hloose₁⟩ := ihitems hext
    obtain ⟨d', hrun, hext', hsize, hloose⟩ := ih (w := { w with page := d₁ }) (hext.trans hext₁)
    simp only [hsize₁] at hrun hsize hloose
    refine ⟨d', ?_, hext₁.trans hext', ?_, ?_⟩
    · rw [nodesOfAll, nodesOf, run_bind hrun₁, run_bind hrun, grow_append]
      simp only [roots, List.map_append]
      rfl
    · rw [hsize, textCount_append]
      omega
    · intro t ht
      rw [grow_append] at ht
      rcases List.mem_append.mp ht with ht | ht
      · exact (hloose₁ t ht).mono hext'
      · exact hloose t ht

/-! ### A value in the place of a marker -/

/-- Showing one value. -/
theorem nodesOf_eq {d : Page} {v : Value} {ss : List Seed} (h : Bears d [v] ss) (c : Calls)
    {w : World} (hext : d.Extends w.page) :
    ∃ d', nodesOf c v w = some (roots (grow w.page.size ss), { w with page := d' }) ∧
      w.page.Extends d' ∧ ∀ t ∈ grow w.page.size ss, Loose d' t := by
  obtain ⟨d', hrun, hext', -, hloose⟩ := growsTo_of_bears h c hext
  refine ⟨d', ?_, hext', hloose⟩
  rw [nodesOfAll] at hrun
  rcases hv : nodesOf c v w with _ | ⟨front, w'⟩
  · have hnone : (nodesOf c v >>= fun front => do
        let back ← nodesOfAll c []
        return front ++ back) w = none := by
      change (nodesOf c v w).bind _ = none
      rw [hv]
      rfl
    rw [hnone] at hrun
    cases hrun
  · rw [run_bind hv] at hrun
    have hrun' : some (front ++ [], w') =
        some (roots (grow w.page.size ss), { w with page := d' }) := hrun
    rwa [List.append_nil] at hrun'

theorem Bears.not_reader {d : Page} {v : Value} {ss : List Seed} (h : Bears d [v] ss)
    (r : Reader) : v ≠ .reactive r := by
  rintro rfl
  cases h

/-- A value that is no reader takes the place of a marker in one go, when its nodes are made. -/
theorem run_insertValue (f : Factory) {c : Calls} {v : Value} {w : World} {d' : Page} {p m : NodeId}
    {nodes : List NodeId} (hreader : ∀ r, v ≠ .reactive r)
    (hrun : nodesOf c v w = some (nodes, { w with page := d' }))
    (hparent : d'.parent? m = some p) :
    insertValue f c m v w =
      some ((), { w with page := (insertAll d' p (some m) nodes).detach m }) := by
  rw [insertValue]
  · rw [run_bind hrun, run_bind (run_page _)]
    simp only [hparent]
    rfl
  · exact hreader

/-- What a value shows is put in front of a plant `m` of a stretch. -/
theorem regrown_grow {d d₁ d₂ : Page} {p : NodeId} {front back : List NodeId}
    {old mid rest : List (Plant Value Action)} {m : Plant Value Action} {ss : List Seed}
    {vs : List Value} (hbase : d.IsForest) (h : d.Regrown d₁ p front old (mid ++ m :: rest) back)
    (hbears : Bears d₁ vs ss) (hnodup : (idsAll (plants ss)).Nodup)
    (hyoung : ∀ x : Nat, x ∈ idsAll (plants ss) → d.size ≤ x)
    (hapart : ∀ x ∈ idsAll (plants ss), x ∉ idsAll (mid ++ m :: rest)) (hext : d₁.Extends d₂)
    (hloose : ∀ t ∈ grow d₁.size ss, Loose d₂ t) :
    d.Regrown (insertAll d₂ p (some m.root) (roots (grow d₁.size ss))) p front old
      (mid ++ grow d₁.size ss ++ m :: rest) back := by
  refine regrown_insertAll hbase (h.extends_after hext) hloose
    (nodup_grow hnodup fun x hx => hbears.lt_size hx) (fun x hx => ?_) fun x hx hmem => ?_
  · rcases mem_idsAll_grow hx with hx | hx
    · exact hyoung x hx
    · exact Nat.le_trans h.size_le hx
  · rcases mem_idsAll_grow hx with hx | hx
    · exact hapart x hx hmem
    · exact absurd (h.stand.lt_size hmem) (Nat.not_lt.mpr hx)

/-- A value that is no reader takes the place of a marker. -/
theorem insertValue_eq {d : Page} {p : NodeId} {front back : List NodeId}
    {old mid rest : List (Plant Value Action)} {m : Plant Value Action} {ss : List Seed}
    {v : Value} (f : Factory) (c : Calls) {w : World} (hbase : d.IsForest)
    (h : d.Regrown w.page p front old (mid ++ m :: rest) back) (hbears : Bears w.page [v] ss)
    (hnodup : (idsAll (plants ss)).Nodup)
    (hyoung : ∀ x : Nat, x ∈ idsAll (plants ss) → d.size ≤ x)
    (hapart : ∀ x ∈ idsAll (plants ss), x ∉ idsAll (mid ++ m :: rest)) :
    ∃ d', insertValue f c m.root v w = some ((), { w with page := d' }) ∧
      d.Regrown d' p front old (mid ++ grow w.page.size ss ++ rest) back := by
  obtain ⟨d₁, hrun, hext, hloose⟩ := nodesOf_eq hbears c (Extends.refl h.forest)
  have hgrown := regrown_grow hbase h hbears hnodup hyoung hapart hext hloose
  have hparent : d₁.parent? m.root = some p :=
    (h.extends_after hext).stand.parent?_root (by simp)
  exact ⟨_, run_insertValue f hbears.not_reader hrun hparent, hgrown.detach⟩

/-- A value put at the end of a node that is older than anything the value brings along. -/
theorem mount_eq {d : Page} {p : Nat} {ss : List Seed} {v : Value} (f : Factory) (c : Calls)
    {w : World} (hbase : d.IsForest) (hext : d.Extends w.page) (hp : p < d.size)
    (hbears : Bears w.page [v] ss) (hnodup : (idsAll (plants ss)).Nodup)
    (hyoung : ∀ x : Nat, x ∈ idsAll (plants ss) → d.size ≤ x) :
    ∃ base d', mount f c p v w = some ((), { w with page := d' }) ∧
      d.Regrown d' p (d.children p) [] (grow base ss) [] := by
  have hmarker := Regrown.create hext.forest (Nat.lt_of_lt_of_le hp hext.size_le)
    (c := .comment "") (by simp [Content.kind])
  obtain ⟨d₁, hd₁⟩ : ∃ d₁, d₁ = (w.page.create (.comment "")).2.append p w.page.size :=
    ⟨_, rfl⟩
  rw [← hd₁] at hmarker
  have hlt (x : Nat) (hx : x ∈ idsAll (plants ss)) : x < w.page.size := hbears.lt_size hx
  have hbears₁ : Bears d₁ [v] ss := by
    refine hbears.congr fun x hx => hmarker.frame x (hlt x hx) ?_ (by simp [idsAll])
    rintro rfl
    exact absurd hp (Nat.not_lt.mpr (hyoung x hx))
  have hchildren : w.page.children p = d.children p := by
    rw [children, hext.same p hp, ← children]
  rw [hchildren] at hmarker
  have hstart : d.Regrown d₁ p (d.children p) []
      ([] ++ leaf w.page.size (.comment "") :: []) [] := hmarker.of_extends hext hp
  obtain ⟨d', hrun, hgrown⟩ := insertValue_eq f c (w := { w with page := d₁ }) hbase hstart
    hbears₁ hnodup hyoung fun x hx hmem => by
      have hxm : x = w.page.size := by simpa [idsAll, ids, leaf] using hmem
      exact absurd (hlt x hx) (by rw [hxm]; exact Nat.lt_irrefl _)
  refine ⟨d₁.size, d', ?_, by simpa using hgrown⟩
  rw [mount, run_bind (run_onPage _ w), run_bind (run_changePage _ _)]
  rw [hd₁] at hrun
  exact hrun

/-- Loose plants take the place of the marker `m` that is all that `p` has. -/
theorem insertAll_detach {d : Page} (hforest : d.IsForest) {p m : NodeId}
    {content : Content Value Action} {parent : Option NodeId} {ts : List (Plant Value Action)}
    (hp : d.node? p = some ⟨content, parent, [m]⟩)
    (hm : d.node? m = some ⟨.comment "", some p, []⟩) (hloose : ∀ t ∈ ts, Loose d t)
    (hnodup : (idsAll ts).Nodup) (hpts : p ∉ idsAll ts) (hmts : m ∉ idsAll ts) :
    ((insertAll d p (some m) (roots ts)).detach m).IsForest ∧
      ((insertAll d p (some m) (roots ts)).detach m).AllStand (some p) ts ∧
      ((insertAll d p (some m) (roots ts)).detach m).node? p =
        some ⟨content, parent, roots ts⟩ := by
  have hmp : m ≠ p := by
    rintro rfl
    exact hforest.irrefl m (.parent (parent?_of_node? hm))
  have hchildren : d.children p = [] ++ m :: [] := children_of_node? hp
  have hparent (x : NodeId) (hx : x ∈ roots ts) : d.parent? x ≠ some p := by
    intro hxp
    have hmem := hforest.mem_of_parent? hxp
    rw [hchildren] at hmem
    exact hmts (List.mem_singleton.mp hmem ▸ root_mem_idsAll hx)
  obtain ⟨hforest', -, hmoved, hplace, hkeep⟩ := insertAll_moves hforest (lt_size_of_node? hp)
    hchildren hloose hnodup hpts hmts hparent
  obtain ⟨d', hd'⟩ : ∃ d', d' = insertAll d p (some m) (roots ts) := ⟨_, rfl⟩
  rw [← hd'] at hforest' hmoved hplace hkeep ⊢
  rw [hp] at hplace
  have hmark : d'.node? m = some ⟨.comment "", some p, []⟩ := by
    rw [hkeep m hmp (fun hmem => hmts (root_mem_idsAll hmem)) fun x _ => ?_, hm]
    rw [children_of_node? hm]
    exact List.not_mem_nil
  have hdone : d'.Regrown (d'.detach m) p [] (ts ++ leaf m (.comment "") :: []) (ts ++ []) [] := by
    refine Regrown.detach (t := leaf m (.comment "")) (Regrown.refl hforest' ?_ ?_)
    · exact allStand_append.mpr ⟨hmoved, stands_leaf.mpr hmark, trivial⟩
    · exact ⟨content, parent, by simpa [leaf, Plant.root] using hplace⟩
  refine ⟨hdone.forest, ?_, ?_⟩
  · rw [← List.append_nil ts]
    exact hdone.stand
  · obtain ⟨c, q, hbefore, hafter⟩ := hdone.place
    obtain ⟨rfl, rfl, -⟩ := by simpa using hplace.symm.trans hbefore
    simpa using hafter

/-- A value put into a new node.  What the value brings along is older than the node, so this is
    no case of `mount_eq`. -/
theorem mount_new {ss : List Seed} {v : Value} (f : Factory) (c : Calls) {w : World}
    (hforest : w.page.IsForest) (hbears : Bears w.page [v] ss)
    (hnodup : (idsAll (plants ss)).Nodup) (content : Content Value Action) :
    ∃ base d', mount f c w.page.size v { w with page := (w.page.create content).2 } =
        some ((), { w with page := d' }) ∧
      d'.IsForest ∧ d'.AllStand (some w.page.size) (grow base ss) ∧
      d'.node? w.page.size = some ⟨content, none, roots (grow base ss)⟩ := by
  obtain ⟨p, hp⟩ : ∃ p, p = w.page.size := ⟨_, rfl⟩
  obtain ⟨d₀, hd₀⟩ : ∃ d₀, d₀ = (w.page.create content).2 := ⟨_, rfl⟩
  rw [← hp, ← hd₀]
  have hext₀ : w.page.Extends d₀ := hd₀ ▸ Extends.create hforest content
  have hplace₀ : d₀.node? p = some ⟨content, none, []⟩ := by rw [hd₀, node?_create, if_pos hp]
  have hlt₀ : p < d₀.size := lt_size_of_node? hplace₀
  -- the marker
  obtain ⟨m, hm⟩ : ∃ m, m = d₀.size := ⟨_, rfl⟩
  obtain ⟨d₁, hd₁⟩ : ∃ d₁, d₁ = (d₀.create (.comment "")).2.append p m := ⟨_, rfl⟩
  have hmarker : d₀.Regrown d₁ p [] [] [leaf m (.comment "")] [] := by
    have hcreate := Regrown.create hext₀.forest hlt₀ (c := .comment "") (by simp [Content.kind])
    rw [children_of_node? hplace₀, ← hm, ← hd₁] at hcreate
    exact hcreate
  have hplace₁ : d₁.node? p = some ⟨content, none, [m]⟩ := by
    obtain ⟨_, _, hbefore, hafter⟩ := hmarker.place
    obtain ⟨rfl, rfl, -⟩ := by simpa using hplace₀.symm.trans hbefore
    exact hafter
  have hmlt : m < d₁.size := hmarker.stand.1.lt_size List.mem_cons_self
  -- what the value shows
  have hold (x : Nat) (hx : x ∈ idsAll (plants ss)) : x < p := hp ▸ hbears.lt_size hx
  have hbears₁ : Bears d₁ [v] ss := by
    refine hbears.congr fun x hx => ?_
    have hxp := hold x hx
    rw [hmarker.frame x (Nat.lt_trans hxp hlt₀) (Nat.ne_of_lt hxp) (by simp [idsAll]),
      hext₀.same x (hp ▸ hxp)]
  obtain ⟨d₂, hrun, hext, hloose⟩ :=
    nodesOf_eq hbears₁ c (w := { w with page := d₁ }) (Extends.refl hmarker.forest)
  have hids (x : Nat) (hx : x ∈ idsAll (grow d₁.size ss)) : x < p ∨ d₁.size ≤ x :=
    (mem_idsAll_grow hx).imp_left (hold x)
  have hpts : p ∉ idsAll (grow d₁.size ss) := by
    intro hmem
    have hside := hids p hmem
    omega
  have hmts : m ∉ idsAll (grow d₁.size ss) := by
    intro hmem
    have hside := hids m hmem
    omega
  have hmark₂ : d₂.node? m = some ⟨.comment "", some p, []⟩ :=
    hext.node? (stands_leaf.mp hmarker.stand.1)
  obtain ⟨hforest', hstand, hplace⟩ := insertAll_detach hext.forest (hext.node? hplace₁) hmark₂
    hloose (nodup_grow hnodup fun x hx => hbears₁.lt_size hx) hpts hmts
  refine ⟨d₁.size, _, ?_, hforest', hstand, hplace⟩
  have hnew : d₀.createComment "" = (m, (d₀.create (.comment "")).2) := hm ▸ rfl
  rw [mount, run_bind (run_onPage _ _), run_bind (run_changePage _ _)]
  simp only [hnew, ← hd₁]
  exact run_insertValue f hbears.not_reader hrun (parent?_of_node? hmark₂)

end Stencil.Render
