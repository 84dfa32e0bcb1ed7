/-
  Stencil/Proofs/Render/Shed.lean
  ===============================
  **Nodes that have been given up, and the bindings that still work on them.**

  When content is replaced, the bindings that were made for it stay.  They go on to put
  nodes in and to take nodes out, out of sight: among nodes that no longer have a place in
  the page.  `Shed d p stale gone` says that the nodes of `gone` are of this kind, but for
  the nodes of `stale`, which still stand under `p`.

  What a run of a binding does to the page is said by `Does`.  It never gives a node that is
  there another parent (`Does.parent?`).  So the run of a binding that works on nodes that
  have been given up stays among them, and all it can do under `p` is to take some of the
  stale nodes out (`Shed.does`).
-/
import Stencil.Proofs.Render.Bound
import Stencil.Proofs.Render.Replace

namespace Stencil

open Document Document.Plant

/-- A node of plants under `p` has its parent among them, or it is on top and its parent is `p`. -/
theorem Document.AllStand.exists_parent {π η : Type} {d : Document π η} {p : NodeId}
    {ts : List (Plant π η)} (h : d.AllStand (some p) ts) {x : NodeId} (hx : x ∈ idsAll ts) :
    ∃ q, d.parent? x = some q ∧ (q ∈ idsAll ts ∨ q = p ∧ x ∈ roots ts) := by
  induction ts using Plant.induct generalizing p with
  | nil => simp [idsAll] at hx
  | cons id c cs ts ihc iht =>
    obtain ⟨⟨hnode, hcs⟩, hts⟩ := h
    rcases List.mem_append.mp hx with hx | hx
    · rcases List.mem_cons.mp hx with rfl | hx
      · exact ⟨p, parent?_of_node? hnode, Or.inr ⟨rfl, List.mem_cons_self⟩⟩
      · obtain ⟨q, hq, hmem | ⟨rfl, -⟩⟩ := ihc hcs hx
        · exact ⟨q, hq, Or.inl (List.mem_append_left _ (List.mem_cons_of_mem _ hmem))⟩
        · exact ⟨_, hq, Or.inl (List.mem_append_left _ List.mem_cons_self)⟩
    · obtain ⟨q, hq, hmem | ⟨rfl, hmem⟩⟩ := iht hts hx
      · exact ⟨q, hq, Or.inl (List.mem_append_right _ hmem)⟩
      · exact ⟨_, hq, Or.inr ⟨rfl, List.mem_cons_of_mem _ hmem⟩⟩

/-- There is no fragment among plants that stand under a node. -/
theorem Document.AllStand.isFragment_eq_false {π η : Type} {d : Document π η} {p : NodeId}
    {ts : List (Plant π η)} (h : d.AllStand (some p) ts) (hforest : d.IsForest) {x : NodeId}
    (hx : x ∈ idsAll ts) : d.isFragment x = false := by
  obtain ⟨q, hq, -⟩ := h.exists_parent hx
  by_contra hfragment
  rw [hforest.fragment_root x (by simpa using hfragment)] at hq
  cases hq

/-- Plants that stand in two documents have the same nodes there. -/
theorem Document.AllStand.agree {π η : Type} {d d' : Document π η} {parent : Option NodeId}
    {ts : List (Plant π η)} (h : d.AllStand parent ts) (h' : d'.AllStand parent ts) :
    ∀ x ∈ idsAll ts, d'.node? x = d.node? x := by
  induction ts using Plant.induct generalizing parent with
  | nil => simp [idsAll]
  | cons id c cs ts ihc iht =>
    obtain ⟨⟨hnode, hcs⟩, hts⟩ := h
    obtain ⟨⟨hnode', hcs'⟩, hts'⟩ := h'
    intro x hx
    rcases List.mem_append.mp hx with hx | hx
    · rcases List.mem_cons.mp hx with rfl | hx
      · rw [hnode, hnode']
      · exact ihc hcs hcs' x hx
    · exact iht hts hts' x hx

/-- A yield that can be written into a text node that is there. -/
def Yield.isPlainText : Yield → Bool
  | .text _ => true
  | .number _ => true
  | _ => false

namespace Render

/-! ### Nodes that have been given up -/

/-- The nodes of `gone` are closed under going down.  Going up from one of them leads to nothing
    else, but for the nodes of `stale`, some of which may stand under `p`. -/
structure Shed (d : Page) (p : NodeId) (stale : List NodeId) (gone : NodeId → Prop) : Prop where
  apart : ¬ gone p
  lt_size : ∀ x : Nat, gone x → x < d.size
  up : ∀ x q, gone x → d.parent? x = some q → gone q ∨ q = p ∧ x ∈ stale
  down : ∀ x c, gone x → c ∈ d.children x → gone c
  solid : ∀ x, gone x → d.isFragment x = false

namespace Shed

variable {d d' : Page} {p : NodeId} {stale : List NodeId} {gone : NodeId → Prop}

theorem nothing (d : Page) (p : NodeId) : Shed d p [] fun _ => False :=
  ⟨id, nofun, nofun, nofun, nofun⟩

/-- What has been given up depends on the links and kinds of its own nodes only. -/
theorem of_links (h : Shed d p stale gone) (hsize : d.size ≤ d'.size)
    (hsame : ∀ x : Nat, gone x → d'.parent? x = d.parent? x ∧ d'.children x = d.children x ∧
      d'.isFragment x = d.isFragment x) : Shed d' p stale gone where
  apart := h.apart
  lt_size x hx := Nat.lt_of_lt_of_le (h.lt_size x hx) hsize
  up x q hx hq := h.up x q hx ((hsame x hx).1 ▸ hq)
  down x c hx hc := h.down x c hx ((hsame x hx).2.1 ▸ hc)
  solid x hx := (hsame x hx).2.2.trans (h.solid x hx)

theorem congr (h : Shed d p stale gone) (hsize : d.size ≤ d'.size)
    (hsame : ∀ x : Nat, gone x → d'.node? x = d.node? x) : Shed d' p stale gone :=
  h.of_links hsize fun x hx => by
    simp only [parent?, children, isFragment, kind, hsame x hx, and_self]

theorem of_extends (h : Shed d p stale gone) (hext : d.Extends d') : Shed d' p stale gone :=
  h.congr hext.size_le fun x hx => hext.same x (h.lt_size x hx)

/-- What is above a node that has been given up has been given up, or is above `p`. -/
theorem above (h : Shed d p stale gone) {a x : NodeId} (hx : gone x) (hax : d.AncestorOrSelf a x) :
    gone a ∨ d.AncestorOrSelf a p := by
  rcases hax with rfl | hax
  · exact Or.inl hx
  · induction hax with
    | parent hq =>
      rcases h.up _ _ hx hq with hq | ⟨rfl, -⟩
      · exact Or.inl hq
      · exact Or.inr (Or.inl rfl)
    | step hq hab ih =>
      rcases h.up _ _ hx hq with hq | ⟨rfl, -⟩
      · exact ih hq
      · exact Or.inr (Or.inr hab)

/-- What is below a node that has been given up has been given up. -/
theorem below (h : Shed d p stale gone) (hforest : d.IsForest) {a x : NodeId} (ha : gone a)
    (hax : d.AncestorOrSelf a x) : gone x := by
  rcases hax with rfl | hax
  · exact ha
  · induction hax with
    | parent hq => exact h.down _ _ ha (hforest.mem_of_parent? hq)
    | step hq _ ih => exact h.down _ _ ih (hforest.mem_of_parent? hq)

theorem of_stands (h : Shed d p stale gone) (hforest : d.IsForest) {parent : Option NodeId}
    {t : Plant Value Action} (ht : d.Stands parent t) (hroot : gone t.root) :
    ∀ x ∈ t.ids, gone x :=
  fun _ hx => h.below hforest hroot (ht.below_root hx)

/-- What stands under `p` and is not stale has not been given up. -/
theorem not_mem (h : Shed d p stale gone) (hforest : d.IsForest) {ts : List (Plant Value Action)}
    (hstand : d.AllStand (some p) ts) (hstale : ∀ x ∈ roots ts, x ∉ stale) :
    ∀ x ∈ idsAll ts, ¬ gone x := by
  intro x hx hgone
  obtain ⟨r, hr, hrx⟩ := hstand.below_root hx
  have hrp : d.parent? r = some p := hstand.parent?_root hr
  rcases h.above hgone hrx with hr' | hr'
  · rcases h.up r p hr' hrp with hp | ⟨-, hmem⟩
    · exact h.apart hp
    · exact hstale r hr hmem
  · have hpr : d.Ancestor p r := .parent hrp
    exact hforest.irrefl p (hpr.trans_orSelf hr')

/-- What has been given up is in no fragment. -/
theorem not_inFragment (h : Shed d p stale gone) (hout : ¬ InFragment d p) {x : NodeId}
    (hx : gone x) : ¬ InFragment d x := by
  rintro ⟨r, hkind, hrx⟩
  rcases h.above hx hrx with hr | hr
  · have hsolid := h.solid r hr
    rw [isFragment, hkind] at hsolid
    cases hsolid
  · exact hout ⟨r, hkind, hr⟩

/-- The nodes of plants under `p` are given up as well; they are still there. -/
theorem add (h : Shed d p stale gone) (hforest : d.IsForest) {ts : List (Plant Value Action)}
    (hstand : d.AllStand (some p) ts) :
    Shed d p (stale ++ roots ts) fun x => gone x ∨ x ∈ idsAll ts where
  apart := by
    rintro (hp | hp)
    · exact h.apart hp
    · exact hstand.not_mem_parent hforest hp
  lt_size x hx := by
    rcases hx with hx | hx
    · exact h.lt_size x hx
    · exact hstand.lt_size hx
  up x q hx hq := by
    rcases hx with hx | hx
    · rcases h.up x q hx hq with hq | ⟨rfl, hmem⟩
      · exact Or.inl (Or.inl hq)
      · exact Or.inr ⟨rfl, List.mem_append_left _ hmem⟩
    · obtain ⟨q', hq', hmem⟩ := hstand.exists_parent hx
      obtain rfl := Option.some.inj (hq'.symm.trans hq)
      rcases hmem with hmem | ⟨rfl, hmem⟩
      · exact Or.inl (Or.inr hmem)
      · exact Or.inr ⟨rfl, List.mem_append_right _ hmem⟩
  down x c hx hc := by
    rcases hx with hx | hx
    · exact Or.inl (h.down x c hx hc)
    · exact Or.inr (hstand.mem_of_child hx hc)
  solid x hx := by
    rcases hx with hx | hx
    · exact h.solid x hx
    · exact hstand.isFragment_eq_false hforest hx

/-- Some nodes are taken out of their parents. -/
theorem detachAll (h : Shed d p stale gone) (hforest : d.IsForest) (cur : List NodeId) :
    Shed (cur.foldl (fun d n => d.detach n) d) p (stale.filter fun x => !cur.contains x) gone where
  apart := h.apart
  lt_size x hx := by
    rw [size_detachAll]
    exact h.lt_size x hx
  up x q hx hq := by
    rw [parent?_detachAll hforest] at hq
    split at hq
    · cases hq
    · rename_i hkept
      rcases h.up x q hx hq with hq | ⟨rfl, hmem⟩
      · exact Or.inl hq
      · exact Or.inr ⟨rfl, List.mem_filter.mpr ⟨hmem, by simpa using hkept⟩⟩
  down x c hx hc := by
    rw [children_detachAll hforest] at hc
    exact h.down x c hx (List.mem_filter.mp hc).1
  solid x hx := by
    rw [isFragment, kind_detachAll hforest]
    exact h.solid x hx

/-- Plants are put before a node that has been given up, and they are given up as well. -/
theorem regrown (h : Shed d p stale gone) {q : NodeId} {front back : List NodeId}
    {t : Plant Value Action} {new : List (Plant Value Action)} (hq : gone q)
    (ht : ∀ x ∈ t.ids, gone x) (hp : p ∉ idsAll new)
    (hgrown : d.Regrown d' q front [t] (new ++ [t]) back) :
    Shed d' p stale fun x => gone x ∨ x ∈ idsAll new := by
  obtain ⟨c, parent, hbefore, hafter⟩ := hgrown.place
  -- a node of the stretch, the node above it, or a node that is as it was
  have hcases (x : NodeId) (hx : gone x ∨ x ∈ idsAll new) :
      x ∈ idsAll (new ++ [t]) ∨ gone x ∧ (x = q ∨ d'.node? x = d.node? x) := by
    by_cases hmem : x ∈ idsAll (new ++ [t])
    · exact Or.inl hmem
    · rw [idsAll_append, idsAll_single, List.mem_append, not_or] at hmem
      have hgone : gone x := hx.resolve_right hmem.1
      by_cases hxq : x = q
      · exact Or.inr ⟨hgone, Or.inl hxq⟩
      · refine Or.inr ⟨hgone, Or.inr (hgrown.frame x (h.lt_size x hgone) hxq ?_)⟩
        simpa using hmem.2
  have hmember {x : NodeId} (hx : x ∈ idsAll (new ++ [t])) : gone x ∨ x ∈ idsAll new := by
    rw [idsAll_append, idsAll_single] at hx
    rcases List.mem_append.mp hx with hx | hx
    · exact Or.inr hx
    · exact Or.inl (ht x hx)
  refine ⟨fun hgone => hgone.elim h.apart hp, fun x hx => ?_, fun x r hx hr => ?_,
    fun x y hx hy => ?_, fun x hx => ?_⟩
  · rcases hcases x hx with hmem | ⟨hgone, -⟩
    · exact hgrown.stand.lt_size hmem
    · exact Nat.lt_of_lt_of_le (h.lt_size x hgone) hgrown.size_le
  · rcases hcases x hx with hmem | ⟨hgone, rfl | hsame⟩
    · obtain ⟨r', hr', hmem' | ⟨rfl, -⟩⟩ := hgrown.stand.exists_parent hmem
      · obtain rfl := Option.some.inj (hr'.symm.trans hr)
        exact Or.inl (hmember hmem')
      · obtain rfl := Option.some.inj (hr'.symm.trans hr)
        exact Or.inl (Or.inl hq)
    · have hold : d.parent? x = some r := by
        rw [parent?_of_node? hafter] at hr
        rw [parent?_of_node? hbefore, ← hr]
      exact (h.up x r hgone hold).imp_left Or.inl
    · rw [parent?, hsame, ← parent?] at hr
      exact (h.up x r hgone hr).imp_left Or.inl
  · rcases hcases x hx with hmem | ⟨hgone, rfl | hsame⟩
    · exact hmember (hgrown.stand.mem_of_child hmem hy)
    · rw [children_of_node? hafter] at hy
      have hold (y : NodeId) (hy : y ∈ front ++ roots [t] ++ back) : gone y :=
        h.down x y hgone (by rwa [children_of_node? hbefore])
      simp only [List.mem_append, roots, List.map_append] at hy hold
      rcases hy with (hy | hy | hy) | hy
      · exact Or.inl (hold y (Or.inl (Or.inl hy)))
      · exact Or.inr (root_mem_idsAll hy)
      · exact Or.inl (hold y (Or.inl (Or.inr hy)))
      · exact Or.inl (hold y (Or.inr hy))
    · rw [children, hsame, ← children] at hy
      exact Or.inl (h.down x y hgone hy)
  · rcases hcases x hx with hmem | ⟨hgone, rfl | hsame⟩
    · exact hgrown.stand.isFragment_eq_false hgrown.forest hmem
    · have hsolid := h.solid x hgone
      rw [isFragment_of_node? hbefore] at hsolid
      rw [isFragment_of_node? hafter]
      exact hsolid
    · rw [isFragment, kind, hsame]
      exact h.solid x hgone

end Shed

/-! ### What a run of a binding does to the page -/

/-- The nodes that a binding works on. -/
def Binding.nodes : Binding → List NodeId
  | .attribute id _ _ _ => [id]
  | .spread id _ _ => [id]
  | .content marker _ current => marker :: current

/-- The nodes of the binding are there and are what they have to be. -/
def Binding.Sits (d : Page) : Binding → Prop
  | .attribute id _ _ _ => d.kind id = some .element
  | .spread _ _ _ => True
  | .content marker _ current =>
    marker < d.size ∧ marker ∉ current ∧ ∀ x : Nat, x ∈ current → x < d.size

theorem Binding.Sits.mono {d d' : Page} {b : Binding} (h : b.Sits d) (hsize : d.size ≤ d'.size)
    (hkind : ∀ x : Nat, x < d.size → d'.kind x = d.kind x) : b.Sits d' := by
  rcases b with ⟨id, setter, name, r⟩ | ⟨id, shadowed, r⟩ | ⟨m, r, cur⟩
  · have hlt : id < d.size := by
      rw [Binding.Sits, Document.kind, Option.map_eq_some_iff] at h
      obtain ⟨n, hn, -⟩ := h
      exact lt_size_of_node? hn
    exact (hkind id hlt).trans h
  · exact trivial
  · exact ⟨Nat.lt_of_lt_of_le h.1 hsize, h.2.1, fun x hx => Nat.lt_of_lt_of_le (h.2.2 x hx) hsize⟩

/-- While the signals hold `σ`, the binding shows something. -/
def Responds (n : Nat) (σ : String → Script) : Binding → Prop
  | .attribute _ _ _ r => ∃ x v, showReader σ n r = some x ∧ x.yield.scalar? = some v
  | .spread _ _ _ => False
  | .content _ r _ => ∃ x, showReader σ n r = some x

/-- The plants `new` have been put before `m`, or `m` has no parent and there are none. -/
inductive Planted (d d' : Page) (m : NodeId) (new : List (Plant Value Action)) : Prop where
  | nowhere (hm : d.parent? m = none) (hnew : new = []) (h : d.Extends d')
  | before {q : NodeId} {t : Plant Value Action} {front back : List NodeId} (hm : t.root = m)
      (ht : d.Stands (some q) t) (h : d.Regrown d' q front [t] (new ++ [t]) back)
      (hyoung : ∀ x : Nat, x ∈ idsAll new → d.size ≤ x)

/-- Content is brought up to date in a text node that is there, or it is taken out and other plants
    come. -/
theorem updateContent_plants {d : Page} {w : World} {m : Nat} {cur : List NodeId} {v : Value}
    {ss : List Seed} (c : Calls) (hforest : d.IsForest) (hext : d.Extends w.page)
    (hbears : Bears w.page [v] ss) (hnodup : (idsAll (Seed.plants ss)).Nodup)
    (hyoung : ∀ x : Nat, x ∈ idsAll (Seed.plants ss) → d.size ≤ x) (hm : m < d.size)
    (hmcur : m ∉ cur) (hcur : ∀ x : Nat, x ∈ cur → x < d.size) :
    (∃ n s, onlyText? w.page cur = some n ∧ plainText? v = some s ∧
      updateContent c m cur v w = some (cur, { w with page := w.page.setText n s })) ∨
    ((onlyText? w.page cur = none ∨ plainText? v = none) ∧ ∃ d' new,
      updateContent c m cur v w = some (roots new, { w with page := d' }) ∧
      Planted (cur.foldl (fun d n => d.detach n) d) d' m new ∧
      (d.parent? m ≠ none → new = Seed.grow w.page.size ss)) := by
  rcases hway : (onlyText? w.page cur).bind fun n => (plainText? v).map fun s => (n, s)
    with _ | ⟨n, s⟩
  · right
    have hno : onlyText? w.page cur = none ∨ plainText? v = none := by
      rcases hn : onlyText? w.page cur with _ | n
      · exact Or.inl rfl
      · rcases hs : plainText? v with _ | s
        · exact Or.inr rfl
        · simp [hn, hs] at hway
    have hupdate : updateContent c m cur v w = replaceContent c m cur v w := by
      rw [updateContent, run_bind (run_page w)]
      rcases hno with hno | hno
      · simp only [hno]
      · rcases onlyText? w.page cur with _ | n <;> simp only [hno]
    refine ⟨hno, ?_⟩
    obtain ⟨d₀, hd₀⟩ : ∃ d₀, d₀ = cur.foldl (fun d n => d.detach n) d := ⟨_, rfl⟩
    obtain ⟨d₁, hd₁⟩ : ∃ d₁, d₁ = cur.foldl (fun d n => d.detach n) w.page := ⟨_, rfl⟩
    have h₀ : d₀.IsForest := hd₀ ▸ (node?_detachAll hforest cur).1
    have hext₁ : d₀.Extends d₁ := by
      rw [hd₀, hd₁]
      exact extends_detachAll hforest hext cur
    have hsize₀ : d₀.size = d.size := by rw [hd₀, size_detachAll]
    have hsize₁ : d₁.size = w.page.size := by rw [hd₁, size_detachAll]
    have hbears₁ : Bears d₁ [v] ss := by
      refine hbears.congr fun x hx => ?_
      obtain ⟨t, ht, hxt⟩ := mem_idsAll.mp hx
      obtain ⟨-, q, hq⟩ := hbears.loose t ht
      rw [hd₁]
      refine node?_detachAll_of_not_mem hext.forest (fun hmem => ?_) fun y hy hmem => ?_
      · exact absurd (hcur x hmem) (Nat.not_lt.mpr (hyoung x hx))
      · have hyt : y ∈ t.ids := by
          simpa using hq.alone.mem_of_child (by simpa using hxt) hy
        exact absurd (hcur y hmem) (Nat.not_lt.mpr (hyoung y (mem_idsAll.mpr ⟨t, ht, hyt⟩)))
    obtain ⟨d₂, hnodes, hext₂, hloose⟩ := nodesOf_eq hbears₁ c (w := { w with page := d₁ })
      (Extends.refl hext₁.forest)
    have hext' : d₀.Extends d₂ := hext₁.trans hext₂
    have hparent₂ : d₂.parent? m = d.parent? m := by
      rw [parent?, hext'.same m (hsize₀ ▸ hm), ← parent?, hd₀, parent?_detachAll hforest,
        if_neg hmcur]
    rw [hupdate, replaceContent, run_bind (run_changePage _ w), ← hd₁, ← hd₀, run_bind hnodes,
      run_bind (run_page _)]
    rcases hparent : d.parent? m with _ | q
    · rw [hparent] at hparent₂
      refine ⟨d₂, [], ?_, .nowhere ?_ rfl hext', fun h => absurd rfl h⟩
      · simp only [hparent₂]
        rfl
      · rw [parent?, ← hext'.same m (hsize₀ ▸ hm), ← parent?, hparent₂]
    · rw [hparent] at hparent₂
      have hparent₀ : d₀.parent? m = some q := by
        rw [parent?, ← hext'.same m (hsize₀ ▸ hm), ← parent?, hparent₂]
      obtain ⟨t, rfl, ht⟩ := h₀.exists_stands (hsize₀.symm ▸ hm : m < d₀.size)
      rw [hparent₀] at ht
      obtain ⟨front, back, hsplit⟩ := List.append_of_mem (h₀.mem_of_parent? hparent₀)
      obtain ⟨⟨content, parent, cs⟩, hq⟩ := exists_node? (h₀.parent_lt_size hparent₀)
      rw [children_of_node? hq] at hsplit
      have hstart : d₀.Regrown d₁ q front [t] ([] ++ t :: []) back := by
        refine (Regrown.refl h₀ ht.alone ⟨content, parent, ?_⟩).extends_after hext₁
        rw [hq]
        simpa using hsplit
      have hgrown := regrown_grow h₀ hstart hbears₁ hnodup (hsize₀.symm ▸ hyoung)
        (fun x hx hmem => ?_) hext₂ hloose
      · refine ⟨_, Seed.grow w.page.size ss, ?_, .before rfl ht (hsize₁ ▸ hgrown) fun x hx => ?_,
          fun _ => rfl⟩
        · simp only [hparent₂, hsize₁]
          rfl
        · rcases Seed.mem_idsAll_grow hx with hx | hx
          · exact hsize₀.symm ▸ hyoung x hx
          · exact hsize₀.symm ▸ Nat.le_trans hext.size_le hx
      · have hxt : x ∈ t.ids := by simpa using hmem
        exact absurd (ht.lt_size hxt) (Nat.not_lt.mpr (hsize₀.symm ▸ hyoung x hx))
  · obtain ⟨n', hn, hmap⟩ := Option.bind_eq_some_iff.mp hway
    obtain ⟨s', hs, heq⟩ := Option.map_eq_some_iff.mp hmap
    obtain ⟨rfl, rfl⟩ := by simpa using heq
    refine Or.inl ⟨n', s', hn, hs, ?_⟩
    rw [updateContent, run_bind (run_page w)]
    simp only [hn, hs]
    rfl

/-- An old node is as it was, unless new nodes have been put among its children. -/
theorem Planted.node? {d d' : Page} {m : NodeId} {new : List (Plant Value Action)}
    (h : Planted d d' m new) {x : Nat} (hx : x < d.size) : d'.node? x = d.node? x ∨
      ∃ c parent front back, d.parent? m = some x ∧
        d.node? x = some ⟨c, parent, front ++ m :: back⟩ ∧
        d'.node? x = some ⟨c, parent, front ++ roots new ++ m :: back⟩ := by
  cases h with
  | nowhere _ _ hext => exact Or.inl (hext.same x hx)
  | @before q t front back hm ht hgrown hyoung =>
    by_cases hxq : x = q
    · obtain ⟨c, parent, hbefore, hafter⟩ := hgrown.place
      refine Or.inr ⟨c, parent, front, back, ?_, ?_, ?_⟩
      · rw [← hm, ht.parent?_eq, hxq]
      · rw [hxq, hbefore, ← hm]
        simp
      · rw [hxq, hafter, ← hm]
        simp
    · by_cases hxt : x ∈ t.ids
      · obtain ⟨-, hlast⟩ := allStand_append.mp hgrown.stand
        exact Or.inl (ht.alone.agree hlast x (by simpa using hxt))
      · exact Or.inl (hgrown.frame x hx hxq (by simpa using hxt))

theorem Planted.forest {d d' : Page} {m : NodeId} {new : List (Plant Value Action)}
    (h : Planted d d' m new) : d'.IsForest := by
  cases h with
  | nowhere _ _ hext => exact hext.forest
  | before _ _ hgrown => exact hgrown.forest

theorem Planted.size_le {d d' : Page} {m : NodeId} {new : List (Plant Value Action)}
    (h : Planted d d' m new) : d.size ≤ d'.size := by
  cases h with
  | nowhere _ _ hext => exact hext.size_le
  | before _ _ hgrown => exact hgrown.size_le

/-- A node gets another content of the same kind. -/
structure Touched (d d' : Page) (x : NodeId) : Prop where
  forest : d'.IsForest
  size_le : d.size ≤ d'.size
  same : ∀ y : Nat, y < d.size → y ≠ x → d'.node? y = d.node? y
  self : ∀ c q cs, d.node? x = some ⟨c, q, cs⟩ →
    ∃ c', d'.node? x = some ⟨c', q, cs⟩ ∧ c'.kind = c.kind

/-- `Does d d' y b b'`: what a run of the binding `b` that shows the yield `y` does to the page, and
    the binding for the next run. -/
inductive Does (d d' : Page) (y : Yield) : Binding → Binding → Prop where
  | touches {b : Binding} {x : NodeId} (hx : x ∈ b.nodes) (h : Touched d d' x) : Does d d' y b b
  | replaces {m : NodeId} {r : Reader} {cur : List NodeId} {new : List (Plant Value Action)}
      (hno : onlyText? d cur = none ∨ y.isPlainText = false)
      (h : Planted (cur.foldl (fun d n => d.detach n) d) d' m new) :
      Does d d' y (.content m r cur) (.content m r (roots new))

namespace Does

variable {d d' : Page} {y : Yield} {b b' : Binding}

theorem forest (h : Does d d' y b b') : d'.IsForest := by
  cases h with
  | touches _ h => exact h.forest
  | replaces _ h => exact h.forest

theorem size_le (h : Does d d' y b b') : d.size ≤ d'.size := by
  cases h with
  | touches _ h => exact h.size_le
  | replaces _ h =>
    rw [← size_detachAll]
    exact h.size_le

/-- No node that is there gets another parent. -/
theorem parent? (h : Does d d' y b b') (hforest : d.IsForest) {x : Nat} (hx : x < d.size) :
    d'.parent? x = d.parent? x ∨ d'.parent? x = none := by
  cases h with
  | @touches _ z _ h =>
    left
    by_cases hxz : x = z
    · obtain ⟨⟨c, q, cs⟩, hnode⟩ := exists_node? hx
      obtain ⟨c', hnode', -⟩ := h.self c q cs (hxz ▸ hnode)
      rw [parent?_of_node? hnode, hxz, parent?_of_node? hnode']
    · rw [Document.parent?, h.same x hx hxz, ← Document.parent?]
  | @replaces m r cur new _ h =>
    have hparent : d'.parent? x = (cur.foldl (fun d n => d.detach n) d).parent? x := by
      rcases h.node? (size_detachAll d cur ▸ hx) with hsame | ⟨c, q, front, back, -, hbefore,
        hafter⟩
      · rw [Document.parent?, hsame, ← Document.parent?]
      · rw [parent?_of_node? hbefore, parent?_of_node? hafter]
    rw [hparent, parent?_detachAll hforest]
    split
    · exact Or.inr rfl
    · exact Or.inl rfl

theorem kind (h : Does d d' y b b') (hforest : d.IsForest) {x : Nat} (hx : x < d.size) :
    d'.kind x = d.kind x := by
  cases h with
  | @touches _ z _ h =>
    by_cases hxz : x = z
    · obtain ⟨⟨c, q, cs⟩, hnode⟩ := exists_node? hx
      obtain ⟨c', hnode', hkind⟩ := h.self c q cs (hxz ▸ hnode)
      rw [← hxz] at hnode'
      rw [Document.kind, Document.kind, hnode, hnode']
      exact congrArg some hkind
    · rw [Document.kind, h.same x hx hxz, ← Document.kind]
  | @replaces m r cur new _ h =>
    rw [← kind_detachAll hforest cur]
    rcases h.node? (size_detachAll d cur ▸ hx) with hsame | ⟨c, q, front, back, -, hbefore, hafter⟩
    · rw [Document.kind, hsame, ← Document.kind]
    · rw [Document.kind, Document.kind, hbefore, hafter]
      rfl

/-- A binding of content stays at its marker and has the same reader. -/
theorem content (h : Does d d' y b b') {m : NodeId} {r : Reader} {cur : List NodeId}
    (hb : b' = .content m r cur) : ∃ cur', b = .content m r cur' := by
  cases h with
  | touches _ _ => exact ⟨cur, hb⟩
  | @replaces m' r' cur' new _ _ =>
    injection hb with hm hr
    exact ⟨cur', by rw [hm, hr]⟩

theorem responds (h : Does d d' y b b') {n : Nat} {σ : String → Script} (hb : Responds n σ b) :
    Responds n σ b' := by
  cases h with
  | touches _ _ => exact hb
  | replaces _ _ => exact hb

theorem sits (h : Does d d' y b b') (hforest : d.IsForest) (hb : b.Sits d) : b'.Sits d' := by
  cases h with
  | touches hx ht =>
    exact hb.mono ht.size_le fun _ hlt => (Does.touches (y := y) hx ht).kind hforest hlt
  | @replaces m r cur new hno hplanted =>
    obtain ⟨hm, -, -⟩ := hb
    have hm' : m < d'.size := Nat.lt_of_lt_of_le hm (Does.replaces (r := r) hno hplanted).size_le
    cases hplanted with
    | nowhere _ hnew _ =>
      subst hnew
      exact ⟨hm', by simp, by simp⟩
    | @before q t front back hroot ht hgrown hyoung =>
      have hnodup := hgrown.nodup_new
      rw [idsAll_append, List.nodup_append] at hnodup
      refine ⟨hm', fun hmem => ?_, fun x hx => ?_⟩
      · refine hnodup.2.2 m (root_mem_idsAll hmem) m ?_ rfl
        simpa using hroot ▸ t.root_mem_ids
      · refine hgrown.stand.lt_size ?_
        rw [idsAll_append]
        exact List.mem_append_left _ (root_mem_idsAll hx)

end Does

/-- A run of a binding that works on nodes that have been given up: it stays among them, and under
    `p` it takes out some stale nodes at most. -/
theorem Shed.does {d d' : Page} {p : Nat} {stale : List NodeId} {gone : NodeId → Prop} {y : Yield}
    {b b' : Binding} (h : Shed d p stale gone) (hforest : d.IsForest) (hp : p < d.size)
    (hdoes : Does d d' y b b') (hnodes : ∀ x ∈ b.nodes, gone x)
    (hmarker : ∀ m r cur, b = .content m r cur → m ∉ stale) :
    ∃ stale' gone', Shed d' p stale' gone' ∧ stale'.Sublist stale ∧ (∀ x, gone x → gone' x) ∧
      (∀ x ∈ b'.nodes, gone' x) ∧
      (∀ x : Nat, x < d.size → ¬ gone x → x ≠ p → d'.node? x = d.node? x) ∧
      ∀ c q front back, d.node? p = some ⟨c, q, front ++ stale ++ back⟩ →
        (∀ x ∈ front ++ back, ¬ gone x) → d'.node? p = some ⟨c, q, front ++ stale' ++ back⟩ := by
  cases hdoes with
  | @touches _ z hz htouched =>
    have hgone : gone z := hnodes z hz
    have hpz : p ≠ z := fun heq => h.apart (heq ▸ hgone)
    refine ⟨stale, gone, ?_, List.Sublist.refl _, fun _ hx => hx, hnodes, fun x hx hno _ => ?_,
      fun c q front back hnode _ => ?_⟩
    · refine h.of_links htouched.size_le fun x hx => ?_
      obtain ⟨⟨c, q, cs⟩, hnode⟩ := exists_node? (h.lt_size x hx)
      by_cases hxz : x = z
      · obtain ⟨c', hnode', hkind⟩ := htouched.self c q cs (hxz ▸ hnode)
        rw [← hxz] at hnode'
        simp [parent?_of_node? hnode, parent?_of_node? hnode', children_of_node? hnode,
          children_of_node? hnode', isFragment_of_node? hnode, isFragment_of_node? hnode', hkind]
      · have hsame := htouched.same x (h.lt_size x hx) hxz
        simp only [parent?, children, isFragment, kind, hsame, and_self]
    · exact htouched.same x hx fun heq => hno (heq ▸ hgone)
    · rw [htouched.same p hp hpz, hnode]
  | @replaces m r cur new _ hplanted =>
    obtain ⟨hm, hcur⟩ := List.forall_mem_cons.mp hnodes
    have h₀ := h.detachAll hforest cur
    have hforest₀ : (cur.foldl (fun d n => d.detach n) d).IsForest :=
      (node?_detachAll hforest cur).1
    -- what has not been given up has no children that are taken out
    have hsame₀ (x : NodeId) (hno : ¬ gone x) (hxp : x ≠ p) :
        (cur.foldl (fun d n => d.detach n) d).node? x = d.node? x := by
      refine node?_detachAll_of_not_mem hforest (fun hmem => hno (hcur x hmem)) fun c hc hmem => ?_
      rcases h.up c x (hcur c hmem) (hforest.parent?_of_mem hc) with hx | ⟨hx, -⟩
      · exact hno hx
      · exact hxp hx
    have hplace₀ (c : Content Value Action) (q : Option NodeId) (front back : List NodeId)
        (hnode : d.node? p = some ⟨c, q, front ++ stale ++ back⟩)
        (hapart : ∀ x ∈ front ++ back, ¬ gone x) :
        (cur.foldl (fun d n => d.detach n) d).node? p =
          some ⟨c, q, front ++ (stale.filter fun x => !cur.contains x) ++ back⟩ := by
      have hkeep (l : List NodeId) (hl : ∀ x ∈ l, ¬ gone x) :
          l.filter (fun x => !cur.contains x) = l :=
        List.filter_eq_self.mpr fun x hx => by simpa using fun hmem => hl x hx (hcur x hmem)
      have hpcur : p ∉ cur := fun hmem => h.apart (hcur p hmem)
      obtain ⟨hfront, hback⟩ := List.forall_mem_append.mp hapart
      rw [(node?_detachAll hforest cur).2, hnode]
      simp only [Option.map_some, hpcur, if_false, List.filter_append, hkeep front hfront,
        hkeep back hback]
    cases hplanted with
    | nowhere _ hnew hext =>
      subst hnew
      refine ⟨_, gone, h₀.of_extends hext, List.filter_sublist, fun _ hx => hx,
        List.forall_mem_singleton.mpr hm, fun x hx hno hxp => ?_,
        fun c q front back hnode hapart => ?_⟩
      · rw [hext.same x (size_detachAll d cur ▸ hx), hsame₀ x hno hxp]
      · rw [hext.same p (size_detachAll d cur ▸ hp), hplace₀ c q front back hnode hapart]
    | @before q t front' back' hroot ht hgrown hyoung =>
      have htgone : ∀ x ∈ t.ids, gone x := h₀.of_stands hforest₀ ht (hroot ▸ hm)
      have hq : gone q := by
        rcases h₀.up t.root q (hroot ▸ hm) ht.parent?_eq with hq | ⟨-, hmem⟩
        · exact hq
        · exact absurd (hroot ▸ (List.mem_filter.mp hmem).1) (hmarker m r cur rfl)
      have hpnew : p ∉ idsAll new := fun hmem =>
        absurd (hyoung p hmem) (Nat.not_le.mpr (size_detachAll d cur ▸ hp))
      have hframe (x : Nat) (hx : x < d.size) (hno : ¬ gone x) :
          d'.node? x = (cur.foldl (fun d n => d.detach n) d).node? x := by
        refine hgrown.frame x (size_detachAll d cur ▸ hx) (fun heq => hno (heq ▸ hq)) ?_
        simpa using fun hmem => hno (htgone x hmem)
      refine ⟨_, _, h₀.regrown hq htgone hpnew hgrown, List.filter_sublist, fun _ hx => Or.inl hx,
        ?_, fun x hx hno hxp => ?_, fun c q front back hnode hapart => ?_⟩
      · exact List.forall_mem_cons.mpr ⟨Or.inl hm, fun x hx => Or.inr (root_mem_idsAll hx)⟩
      · rw [hframe x hx hno, hsame₀ x hno hxp]
      · rw [hframe p hp h.apart, hplace₀ c q front back hnode hapart]

theorem isPlainText_of_fits {y : Yield} {v : Value} (h : y.Fits v) (hv : plainText? v = none) :
    y.isPlainText = false := by
  cases y with
  | number n =>
    obtain rfl := Option.some.inj h
    cases hv
  | text s =>
    obtain rfl := Option.some.inj h
    cases hv
  | _ => rfl

/-- The only text node of a list is one of the list. -/
theorem eq_of_onlyText? {d : Page} {cur : List NodeId} {n : NodeId} (h : onlyText? d cur = some n) :
    cur = [n] ∧ d.kind n = some .text := by
  match cur, h with
  | [m], h =>
    rw [onlyText?] at h
    split at h
    · rename_i hkind
      obtain rfl := Option.some.inj h
      exact ⟨rfl, hkind⟩
    · cases h

theorem touched_setText {d d' : Page} {n : Nat} (hext : d.Extends d')
    (hkind : d'.kind n = some .text) (s : String) : Touched d (d'.setText n s) n where
  forest := hext.forest.setText n s
  size_le := by
    rw [setText, size_update]
    exact hext.size_le
  same y hy hne := by
    rw [node?_setText, hext.same y hy]
    rcases d.node? y with _ | ⟨c, q, cs⟩
    · rfl
    · cases c <;> simp [Ne.symm hne]
  self c q cs hnode := by
    have hnode' := hext.node? hnode
    rw [Document.kind, hnode'] at hkind
    obtain ⟨t, rfl⟩ : ∃ t, c = .text t := by
      cases c with
      | text t => exact ⟨t, rfl⟩
      | _ => cases hkind
    refine ⟨.text s, ?_, rfl⟩
    rw [node?_setText, hnode']
    simp

/-- The run of a binding that shows something. -/
theorem effect_does (f : Factory) {n k : Nat} (hk : 3 * n + 3 ≤ k) {w : World} {id : Nat}
    {b : Binding} (hlive : w.live = true) (heffect : w.graph.effects[id]? = some ⟨b, false⟩)
    (hresponds : Responds n w.held b) (hforest : w.page.IsForest) (hsits : b.Sits w.page) :
    ∃ w' b' x, (machine f k).effect id w = some ((), w') ∧ Rerun w w' id b' x.reads ∧
      showReader w.held n b.reader = some x ∧ Does w.page w'.page x.yield b b' := by
  rcases b with ⟨node, setter, name, r⟩ | ⟨_, _, _⟩ | ⟨m, r, cur⟩
  · obtain ⟨x, v, hshow, hscalar⟩ := hresponds
    obtain ⟨e, q, cs, hnode⟩ : ∃ e q cs, w.page.node? node = some ⟨.element e, q, cs⟩ := by
      rw [Binding.Sits, Document.kind, Option.map_eq_some_iff] at hsits
      obtain ⟨⟨c, q, cs⟩, hnode, hkind⟩ := hsits
      cases c with
      | element e => exact ⟨e, q, cs, hnode⟩
      | _ => cases hkind
    obtain ⟨w', hrun, hrerun, hforest', hsize, hnode', hframe⟩ :=
      effect_attribute f hk hlive heffect hshow hscalar hforest hnode
    refine ⟨w', _, x, hrun, hrerun, hshow, .touches List.mem_cons_self
      ⟨hforest', hsize, hframe, fun c q' cs' hc => ?_⟩⟩
    obtain ⟨rfl, rfl, rfl⟩ := by simpa using hnode.symm.trans hc
    exact ⟨_, hnode', rfl⟩
  · exact hresponds.elim
  · obtain ⟨x, hshow⟩ := hresponds
    obtain ⟨hm, hmcur, hcur⟩ := hsits
    obtain ⟨j, rfl⟩ : ∃ j, k = j + 1 := ⟨k - 1, by omega⟩
    obtain ⟨w', b', hrun, hrerun, hdoes⟩ := runEffect_run (f := f) (c := machine f j) x.reads
      (P := fun d b' => Does w.page d x.yield (.content m r cur) b') hlive heffect
      fun w₀ hpage hheld _ hlive₀ => by
        obtain ⟨w₁, v, ss, hread, hstirs, hbrings⟩ :=
          resolveReader_comes f hshow (m := j) (by omega) w₀ (hpage ▸ hforest) hheld
        rw [hpage] at hbrings
        obtain ⟨hfits, -⟩ := List.forall₂_cons.mp hbrings.fits
        have hget : (getThe World : Run World) w₀ = some (w₀, w₀) := rfl
        have hrunBinding {next : List NodeId} {d' : Page}
            (hupdate : updateContent (machine f j) m cur v w₁ =
              some (next, { w₁ with page := d' })) :
            runBinding f (machine f j) (.content m r cur) w₀ =
              some (.content m r next, { w₁ with page := d' }) := by
          rw [runBinding, run_bind hget, if_neg (by simp [hlive₀])]
          rw [run_bind hread, run_bind hupdate]
          rfl
        rcases updateContent_plants (machine f j) hforest hbrings.ext hbrings.bears hbrings.nodup
          hbrings.young hm hmcur hcur with
          ⟨t, s, ht, hs, hupdate⟩ | ⟨hno, d', new, hupdate, hplanted, -⟩
        · obtain ⟨rfl, hkind⟩ := eq_of_onlyText? ht
          exact ⟨_, _, hrunBinding hupdate, hstirs.onPage _,
            .touches (by simp [Binding.nodes]) (touched_setText hbrings.ext hkind s)⟩
        · refine ⟨_, _, hrunBinding hupdate, hstirs.onPage _, .replaces ?_ hplanted⟩
          rcases hno with hno | hno
          · left
            rcases hn : onlyText? w.page cur with _ | t
            · rfl
            · obtain ⟨rfl, hkind⟩ := eq_of_onlyText? hn
              have hkind' : w₁.page.kind t = some .text := by
                rw [Document.kind, hbrings.ext.same t (hcur t List.mem_cons_self), ← Document.kind]
                exact hkind
              rw [onlyText?, if_pos hkind'] at hno
              cases hno
          · exact Or.inr (isPlainText_of_fits hfits hno)
    exact ⟨w', b', x, hrun, hrerun, hshow, hdoes⟩

end Render
end Stencil
