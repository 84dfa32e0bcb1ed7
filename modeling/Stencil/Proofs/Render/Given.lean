/-
  Stencil/Proofs/Render/Given.lean
  ================================
  **Nodes that a hole is given.**

  A reader may yield nodes of the application, and scalars or lists of scalars at other times.
  Such a node is put before the marker of the hole and taken away again; what it holds and what
  stands in it is left alone, with one exception.  A text that comes when a single text node
  stands before the marker is written into that node, no matter whose it is.  So a text node of
  the application loses its text to a text that is yielded directly after it.

  `Stage` is the account of this: which given node stands there, and what has been written over
  given nodes.  `newBinding_given` says that the page agrees with it at any time, and that nothing
  has been written over as long as no text comes directly after a given text node.
-/
import Stencil.Proofs.Document.Moves
import Stencil.Proofs.Render.HandOver
import Stencil.Proofs.Render.Routine
import Mathlib.Data.List.Chain

namespace Stencil.Render

open Document

/-! ### What is yielded -/

/-- A scalar, a list of scalars, or one of the given nodes. -/
inductive Offered (given : List NodeId) : Value → Prop where
  | scalar {v : Value} (h : (Yield.ofScalar? v).isSome) : Offered given v
  | list {vs : List Value} (h : ∀ v ∈ vs, (Yield.ofScalar? v).isSome) : Offered given (.list vs)
  | node {n : NodeId} (h : n ∈ given) : Offered given (.node n)

/-- The node that a value is. -/
def nodeOf? : Value → Option NodeId
  | .node n => some n
  | _ => none

theorem eq_of_nodeOf? {v : Value} {n : NodeId} (h : nodeOf? v = some n) : v = .node n := by
  cases v with
  | node k => exact congrArg Value.node (Option.some.inj h)
  | _ => cases h

/-- Text nodes for some values, new and nowhere. -/
structure Sprung (d d' : Page) (ids : List NodeId) : Prop where
  ext : d.Extends d'
  nodup : ids.Nodup
  young : ∀ x : Nat, x ∈ ids → d.size ≤ x ∧ x < d'.size
  notFragment : ∀ x ∈ ids, d'.isFragment x = false
  root : ∀ x ∈ ids, d'.parent? x = none

namespace Sprung

variable {d d₁ d' : Page} {ids ids' : List NodeId}

theorem nil (h : d.IsForest) : Sprung d d [] where
  ext := .refl h
  nodup := List.nodup_nil
  young _ hx := absurd hx List.not_mem_nil
  notFragment _ hx := absurd hx List.not_mem_nil
  root _ hx := absurd hx List.not_mem_nil

theorem text (h : d.IsForest) (s : String) : Sprung d (d.createText s).2 [d.size] := by
  have hnode : (d.createText s).2.node? d.size = some ⟨.text s, none, []⟩ := by
    rw [createText, node?_create, if_pos rfl]
  refine ⟨.create h _, List.nodup_singleton _, ?_, ?_, ?_⟩
  · refine List.forall_mem_singleton.mpr ⟨Nat.le_refl _, ?_⟩
    exact lt_size_of_node? hnode
  · exact List.forall_mem_singleton.mpr (isFragment_of_node? hnode)
  · refine List.forall_mem_singleton.mpr ?_
    rw [parent?, hnode]
    rfl

theorem append (h : Sprung d d₁ ids) (h' : Sprung d₁ d' ids') : Sprung d d' (ids ++ ids') where
  ext := h.ext.trans h'.ext
  nodup := by
    refine List.nodup_append.mpr ⟨h.nodup, h'.nodup, fun x hx y hy heq => ?_⟩
    have hlt := (h.young x hx).2
    have hle := (h'.young y hy).1
    exact Nat.not_lt.mpr hle (heq ▸ hlt)
  young := by
    refine List.forall_mem_append.mpr ⟨fun x hx => ?_, fun x hx => ?_⟩
    · exact ⟨(h.young x hx).1, Nat.lt_of_lt_of_le (h.young x hx).2 h'.ext.size_le⟩
    · exact ⟨Nat.le_trans h.ext.size_le (h'.young x hx).1, (h'.young x hx).2⟩
  notFragment := by
    refine List.forall_mem_append.mpr ⟨fun x hx => ?_, h'.notFragment⟩
    rw [isFragment, kind, h'.ext.same x (h.young x hx).2]
    exact h.notFragment x hx
  root := by
    refine List.forall_mem_append.mpr ⟨fun x hx => ?_, h'.root⟩
    rw [parent?, h'.ext.same x (h.young x hx).2]
    exact h.root x hx

end Sprung

theorem nodesOf_scalar (c : Calls) {v : Value} (hv : (Yield.ofScalar? v).isSome) {w : World}
    (hforest : w.page.IsForest) :
    ∃ ids d, nodesOf c v w = some (ids, { w with page := d }) ∧ Sprung w.page d ids := by
  cases v with
  | text s => exact ⟨_, _, rfl, .text hforest s⟩
  | number n => exact ⟨_, _, rfl, .text hforest n.text⟩
  | empty => exact ⟨[], w.page, rfl, .nil hforest⟩
  | bool b => exact ⟨[], w.page, rfl, .nil hforest⟩
  | _ => cases hv

theorem nodesOfAll_scalars (c : Calls) {vs : List Value}
    (hvs : ∀ v ∈ vs, (Yield.ofScalar? v).isSome) {w : World} (hforest : w.page.IsForest) :
    ∃ ids d, nodesOfAll c vs w = some (ids, { w with page := d }) ∧ Sprung w.page d ids := by
  induction vs generalizing w with
  | nil => exact ⟨[], w.page, rfl, .nil hforest⟩
  | cons v vs ih =>
    obtain ⟨hv, hrest⟩ := List.forall_mem_cons.mp hvs
    obtain ⟨ids, d₁, hone, hsprung⟩ := nodesOf_scalar c hv hforest
    obtain ⟨ids', d', hmore, hsprung'⟩ := ih hrest (w := { w with page := d₁ }) hsprung.ext.forest
    refine ⟨ids ++ ids', d', ?_, hsprung.append hsprung'⟩
    rw [nodesOfAll, run_bind hone, run_bind hmore]
    rfl

/-- What is offered is a given node, or new text nodes show it. -/
theorem nodesOf_offered (c : Calls) {given : List NodeId} {v : Value} (hv : Offered given v)
    {w : World} (hforest : w.page.IsForest) (hkind : ∀ n ∈ given, w.page.isFragment n = false) :
    (∃ n ∈ given, v = .node n ∧ nodesOf c v w = some ([n], w)) ∨
      ∃ ids d, nodeOf? v = none ∧ nodesOf c v w = some (ids, { w with page := d }) ∧
        Sprung w.page d ids := by
  cases hv with
  | scalar hv =>
    right
    obtain ⟨ids, d, hnodes, hsprung⟩ := nodesOf_scalar c hv hforest
    refine ⟨ids, d, ?_, hnodes, hsprung⟩
    cases v with
    | node n => cases hv
    | _ => rfl
  | @list vs hvs =>
    right
    obtain ⟨ids, d, hnodes, hsprung⟩ := nodesOfAll_scalars c hvs hforest
    refine ⟨ids, d, rfl, ?_, hsprung⟩
    rw [nodesOf]
    exact hnodes
  | @node n hn =>
    left
    refine ⟨n, hn, rfl, ?_⟩
    rw [nodesOf, run_bind (run_page w), hkind n hn]
    rfl

/-! ### The account -/

/-- The given node that stands before the marker of a hole, and the texts that have been written
    over given nodes, the latest first. -/
structure Stage where
  shown : Option NodeId
  written : List (NodeId × String)

/-- Whether a node is a text node. -/
def isText (d : Page) (n : NodeId) : Bool := d.kind n == some .text

/-- A value is yielded.  A text goes into the text node that stands there. -/
def Stage.next (d : Page) (s : Stage) (v : Value) : Stage :=
  match nodeOf? v, s.shown.filter (isText d), plainText? v with
  | some n, _, _ => ⟨some n, s.written⟩
  | none, some n, some t => ⟨some n, (n, t) :: s.written⟩
  | none, _, _ => ⟨none, s.written⟩

/-- What a node holds when texts have been written over it. -/
def overwritten (texts : List (NodeId × String)) (n : NodeId) :
    Content Value Action → Content Value Action
  | .text t => .text (((texts.find? (·.1 == n)).map (·.2)).getD t)
  | c => c

theorem kind_overwritten (texts : List (NodeId × String)) (n : NodeId) (c : Content Value Action) :
    (overwritten texts n c).kind = c.kind := by
  cases c <;> rfl

theorem map_overwritten_nil (n : NodeId) (o : Option (Content Value Action)) :
    o.map (overwritten [] n) = o := by
  rcases o with _ | c
  · rfl
  · cases c <;> rfl

/-! ### What the page has to be -/

/-- A marker can still take a node when another one has been put before it. -/
theorem Takes.beside {d : Page} {n m p x : Nat} {ref : Option NodeId} (h : Takes d n m)
    (hforest : d.IsForest) (hparent : d.parent? m = some p) (hm : m ≠ x) (hfit : d.Fits p x ref) :
    Takes (d.insertBefore p x ref) n m := by
  obtain ⟨hne, q, hq, hout⟩ := h
  obtain rfl : q = p := Option.some.inj (hq.symm.trans hparent)
  refine ⟨hne, q, ?_, ?_⟩
  · rw [parent?_insertBefore hforest hfit, if_neg hm, hq]
  · rintro (heq | hanc)
    · exact hout (Or.inl heq)
    · rcases ancestor_of_insertBefore hforest hfit hanc with hold | ⟨hself, -⟩
      · exact hout (Or.inr hold)
      · exact hout hself

/-- The nodes of a list that are not given. -/
def others (given l : List NodeId) : List NodeId := l.filter fun x => !given.contains x

theorem others_filter {given l : List NodeId} {x : NodeId} (h : x ∈ given ∨ x ∉ l) :
    others given (l.filter (· != x)) = others given l := by
  rcases h with hx | hx
  · rw [others, others, List.filter_filter]
    refine List.filter_congr fun y _ => ?_
    by_cases hy : y = x <;> simp [hy, hx]
  · rw [filter_ne_of_not_mem hx]

/-- The nodes `region` stand before the marker `m`, and what else stands beside them, the given
    nodes apart, is as `Beside` says.  The given nodes are as they were in `d₀` except for the texts
    that have been written over them; none of them stands in another, and the marker stands in
    none. -/
structure Lies (d₀ : Page) (given : List NodeId)
    (Beside : NodeId → List NodeId → List NodeId → Prop) (m : NodeId)
    (texts : List (NodeId × String)) (region : List NodeId) (d : Page) : Prop where
  forest : d.IsForest
  content : ∀ n ∈ given, d.content? n = (d₀.content? n).map (overwritten texts n)
  children : ∀ n ∈ given, d.children n = d₀.children n
  apart : ∀ n ∈ given, ∀ q, d.parent? n = some q → q ∉ given
  takes : ∀ n ∈ given, Takes d n m
  place : ∃ p front back, Beside p (others given front) (others given back) ∧
    d.children p = front ++ region ++ m :: back

section

variable {d₀ d d' : Page} {given : List NodeId} {Beside : NodeId → List NodeId → List NodeId → Prop}
  {m p x : NodeId} {texts : List (NodeId × String)} {region ids : List NodeId}

namespace Lies

theorem kind (h : Lies d₀ given Beside m texts region d) {n : NodeId} (hn : n ∈ given) :
    d.kind n = d₀.kind n := by
  rw [kind_eq_map_content?, kind_eq_map_content?, h.content n hn, Option.map_map]
  congr 1
  funext c
  exact kind_overwritten texts n c

theorem isFragment (h : Lies d₀ given Beside m texts region d) {n : NodeId} (hn : n ∈ given) :
    d.isFragment n = d₀.isFragment n := by
  rw [Document.isFragment, Document.isFragment, h.kind hn]

theorem isText (h : Lies d₀ given Beside m texts region d) {n : NodeId} (hn : n ∈ given) :
    isText d n = isText d₀ n := by
  rw [Render.isText, Render.isText, h.kind hn]

theorem lt_size (h : Lies d₀ given Beside m texts region d) {n : Nat} (hn : n ∈ given)
    (hlt : n < d₀.size) : n < d.size := by
  obtain ⟨data, hdata⟩ := exists_node? hlt
  have hsome : d.content? n ≠ none := by
    rw [h.content n hn, content?, hdata]
    simp
  rw [content?] at hsome
  obtain ⟨data', hdata'⟩ := Option.ne_none_iff_exists'.mp hsome
  obtain ⟨node, hnode, -⟩ := Option.map_eq_some_iff.mp hdata'
  exact lt_size_of_node? hnode

/-- The place of the region is in the parent of the marker, and no given node is that. -/
theorem parent (h : Lies d₀ given Beside m texts region d) :
    ∃ p, d.parent? m = some p ∧ p ∉ given ∧ ∃ front back,
      Beside p (others given front) (others given back) ∧
        d.children p = front ++ region ++ m :: back := by
  obtain ⟨p, front, back, hbeside, hplace⟩ := h.place
  have hparent : d.parent? m = some p := h.forest.parent?_of_mem (by simp [hplace])
  refine ⟨p, hparent, fun hp => ?_, front, back, hbeside, hplace⟩
  obtain ⟨-, q, hq, hout⟩ := h.takes p hp
  exact hout (Or.inl (Option.some.inj (hparent.symm.trans hq)))

/-- The document grows. -/
theorem of_extends (h : Lies d₀ given Beside m texts region d)
    (hlt : ∀ n : Nat, n ∈ given → n < d₀.size) (hext : d.Extends d') :
    Lies d₀ given Beside m texts region d' := by
  have hsame (n : Nat) (hn : n ∈ given) : d'.node? n = d.node? n :=
    hext.same n (h.lt_size hn (hlt n hn))
  obtain ⟨p, hparent, -, front, back, hbeside, hplace⟩ := h.parent
  have hp : p < d.size := h.forest.parent_lt_size hparent
  refine ⟨hext.forest, fun n hn => ?_, fun n hn => ?_, fun n hn q hq => ?_,
    fun n hn => ?_, p, front, back, hbeside, ?_⟩
  · rw [content?, hsame n hn]
    exact h.content n hn
  · rw [Document.children, hsame n hn]
    exact h.children n hn
  · rw [parent?, hsame n hn] at hq
    exact h.apart n hn q hq
  · obtain ⟨hne, q, hq, hout⟩ := h.takes n hn
    refine ⟨hne, q, ?_, ?_⟩
    · rw [parent?, hext.same m (lt_size_of_parent? hq)]
      exact hq
    · rintro (heq | hanc)
      · exact hout (Or.inl heq)
      · exact hout (Or.inr (hext.ancestor h.forest hanc (h.forest.parent_lt_size hq)).1)
  · rw [Document.children, hext.same p hp]
    exact hplace

/-- The first node of the region is taken away. -/
theorem detach (h : Lies d₀ given Beside m texts (x :: region) d) :
    Lies d₀ given Beside m texts region (d.detach x) := by
  obtain ⟨p, hparent, hp, front, back, hbeside, hplace⟩ := h.parent
  have hxp : d.parent? x = some p := h.forest.parent?_of_mem (by simp [hplace])
  have hnodup := h.forest.nodup_children p
  rw [hplace] at hnodup
  have hxm : m ≠ x := by
    rintro rfl
    simp [List.nodup_append] at hnodup
  have hfront : x ∉ front := fun hx => by
    simp only [List.append_assoc, List.cons_append] at hnodup
    exact (List.nodup_append.mp hnodup).2.2 x hx x List.mem_cons_self rfl
  have hrest : x ∉ region ++ m :: back := by
    simp only [List.append_assoc, List.cons_append] at hnodup
    exact (List.nodup_cons.mp (List.nodup_append.mp hnodup).2.1).1
  refine ⟨h.forest.detach x, fun n hn => ?_, fun n hn => ?_, fun n hn q hq => ?_,
    fun n hn => ?_, p, front, back, hbeside, ?_⟩
  · rw [content?_detach]
    exact h.content n hn
  · rw [children_detach h.forest, filter_ne_of_not_mem, h.children n hn]
    intro hx
    obtain rfl : n = p := Option.some.inj ((h.forest.parent?_of_mem hx).symm.trans hxp)
    exact hp hn
  · rw [parent?_detach h.forest] at hq
    split at hq
    · cases hq
    · exact h.apart n hn q hq
  · exact (h.takes n hn).detach h.forest x hxm
  · rw [children_detach h.forest, hplace, List.append_assoc, List.cons_append, List.filter_append,
      filter_ne_of_not_mem hfront, List.filter_cons_of_neg (by simp), filter_ne_of_not_mem hrest,
      List.append_assoc]

theorem clear (h : Lies d₀ given Beside m texts region d) :
    Lies d₀ given Beside m texts [] (region.foldl (fun d n => d.detach n) d) := by
  induction region generalizing d with
  | nil => exact h
  | cons x region ih => exact ih h.detach

/-- A given node, or one that is nowhere, is put directly before the marker. -/
theorem insert (h : Lies d₀ given Beside m texts region d) (hparent : d.parent? m = some p)
    (hx : x < d.size) (hkind : d.isFragment x = false) (htakes : Takes d x m) (hregion : x ∉ region)
    (hfree : x ∈ given ∨ d.parent? x = none) :
    Lies d₀ given Beside m texts (region ++ [x]) (d.insertBefore p x (some m)) := by
  have hfit := htakes.fits h.forest hx hkind hparent
  obtain ⟨p', hparent', hp, front, back, hbeside, hplace⟩ := h.parent
  obtain rfl : p' = p := Option.some.inj (hparent'.symm.trans hparent)
  have hapart (q : NodeId) (hq : d.parent? x = some q) : q ∉ given := by
    rcases hfree with hgiven | hnone
    · exact h.apart x hgiven q hq
    · rw [hnone] at hq
      cases hq
  have hlist (l : List NodeId) (hl : ∀ y ∈ l, y ∈ d.children p') : x ∈ given ∨ x ∉ l := by
    refine hfree.imp_right fun hnone hmem => ?_
    rw [h.forest.parent?_of_mem (hl x hmem)] at hnone
    cases hnone
  refine ⟨h.forest.insertBefore hfit, fun n hn => ?_, fun n hn => ?_, fun n hn q hq => ?_,
    fun n hn => ?_, p', front.filter (· != x), back.filter (· != x), ?_, ?_⟩
  · rw [content?_insertBefore]
    exact h.content n hn
  · have hnp : n ≠ p' := fun heq => hp (heq ▸ hn)
    rw [children_insertBefore h.forest hfit, if_neg hnp, filter_ne_of_not_mem, h.children n hn]
    intro hmem
    exact hapart n (h.forest.parent?_of_mem hmem) hn
  · rw [parent?_insertBefore h.forest hfit] at hq
    split at hq
    · exact Option.some.inj hq ▸ hp
    · exact h.apart n hn q hq
  · exact (h.takes n hn).beside h.forest hparent htakes.1 hfit
  · rwa [others_filter (hlist front fun y hy => by simp [hplace, hy]),
      others_filter (hlist back fun y hy => by simp [hplace, hy])]
  · have hm : m ∉ front.filter (· != x) ++ region := by
      have hnodup := h.forest.nodup_children p'
      rw [hplace] at hnodup
      intro hmem
      refine (List.nodup_append.mp hnodup).2.2 m ?_ m List.mem_cons_self rfl
      rcases List.mem_append.mp hmem with hmem | hmem
      · exact List.mem_append_left _ (List.mem_filter.mp hmem).1
      · exact List.mem_append_right _ hmem
    rw [children_insertBefore h.forest hfit, if_pos rfl, hplace, List.filter_append,
      List.filter_append, filter_ne_of_not_mem hregion,
      List.filter_cons_of_pos (by simpa using htakes.1), insertAt_before hm]
    simp

/-- New nodes are put before the marker. -/
theorem insertAll (h : Lies d₀ given Beside m texts region d) (hparent : d.parent? m = some p)
    (hids : ids.Nodup) (hlt : ∀ x : Nat, x ∈ ids → x < d.size)
    (hkind : ∀ x ∈ ids, d.isFragment x = false) (htakes : ∀ x ∈ ids, Takes d x m)
    (hregion : ∀ x ∈ ids, x ∉ region) (hroot : ∀ x ∈ ids, d.parent? x = none) :
    Lies d₀ given Beside m texts (region ++ ids) (insertAll d p (some m) ids) := by
  induction ids generalizing d region with
  | nil => simpa [Render.insertAll] using h
  | cons x ids ih =>
    obtain ⟨hx, hids⟩ := List.nodup_cons.mp hids
    have hself := List.mem_cons_self (a := x) (l := ids)
    have hmore (y : NodeId) (hy : y ∈ ids) := List.mem_cons_of_mem x hy
    have hne (y : NodeId) (hy : y ∈ ids) : y ≠ x := fun heq => hx (heq ▸ hy)
    have hfit := (htakes x hself).fits h.forest (hlt x hself) (hkind x hself) hparent
    have hone := h.insert hparent (hlt x hself) (hkind x hself) (htakes x hself) (hregion x hself)
      (Or.inr (hroot x hself))
    have hall := ih hone ?_ hids ?_ ?_ ?_ ?_ ?_
    · rw [List.append_assoc] at hall
      exact hall
    · rw [parent?_insertBefore h.forest hfit, if_neg (htakes x hself).1, hparent]
    · intro y hy
      rw [size_insertBefore h.forest hfit]
      exact hlt y (hmore y hy)
    · intro y hy
      rw [isFragment_insertBefore h.forest hfit]
      exact hkind y (hmore y hy)
    · intro y hy
      exact (htakes y (hmore y hy)).beside h.forest hparent (htakes x hself).1 hfit
    · intro y hy
      simp [hregion y (hmore y hy), hne y hy]
    · intro y hy
      rw [parent?_insertBefore h.forest hfit, if_neg (hne y hy)]
      exact hroot y (hmore y hy)

/-- A text is written into the text node that stands before the marker. -/
theorem setText (h : Lies d₀ given Beside m texts [x] d) (hx : Render.isText d x = true)
    (t : String) :
    Lies d₀ given Beside m (if x ∈ given then (x, t) :: texts else texts) [x] (d.setText x t) := by
  obtain ⟨s, q, cs, hnode⟩ : ∃ s q cs, d.node? x = some ⟨.text s, q, cs⟩ := by
    rw [Render.isText, Document.kind] at hx
    rcases hnode : d.node? x with _ | ⟨c, q, cs⟩
    · simp [hnode] at hx
    · cases c with
      | text s => exact ⟨s, q, cs, rfl⟩
      | _ => simp [hnode, Content.kind] at hx
  have hset (y : NodeId) : (d.setText x t).node? y =
      if y = x then some ⟨.text t, q, cs⟩ else d.node? y := node?_setText_text hnode y
  have hparents (y : NodeId) : (d.setText x t).parent? y = d.parent? y := by
    rw [parent?, hset, parent?]
    split
    · rename_i heq
      rw [heq, hnode]
      rfl
    · rfl
  have hchildren (y : NodeId) : (d.setText x t).children y = d.children y := by
    rw [Document.children, hset, Document.children]
    split
    · rename_i heq
      rw [heq, hnode]
      rfl
    · rfl
  have hancestor {a b : NodeId} (hab : (d.setText x t).Ancestor a b) : d.Ancestor a b := by
    induction hab with
    | parent hb => exact .parent (hparents _ ▸ hb)
    | step hb _ ih => exact .step (hparents _ ▸ hb) ih
  refine ⟨h.forest.setText x t, fun n hn => ?_, fun n hn => ?_, fun n hn q hq => ?_,
    fun n hn => ?_, ?_⟩
  · have hold := h.content n hn
    by_cases hnx : n = x
    · rw [hnx] at hn hold ⊢
      rw [content?, hnode] at hold
      obtain ⟨c, hc, hkept⟩ := Option.map_eq_some_iff.mp hold.symm
      rw [content?, hset, if_pos rfl, if_pos hn, hc]
      cases c with
      | text _ => simp [overwritten]
      | _ => cases hkept
    · have hskip : overwritten (if x ∈ given then (x, t) :: texts else texts) n =
          overwritten texts n := by
        funext c
        split
        · cases c <;> simp [overwritten, Ne.symm hnx]
        · rfl
      rw [content?, hset, if_neg hnx, hskip]
      exact hold
  · rw [hchildren]
    exact h.children n hn
  · rw [hparents] at hq
    exact h.apart n hn q hq
  · obtain ⟨hne, q, hq, hout⟩ := h.takes n hn
    refine ⟨hne, q, (hparents m).trans hq, ?_⟩
    rintro (heq | hanc)
    · exact hout (Or.inl heq)
    · exact hout (Or.inr (hancestor hanc))
  · obtain ⟨p, front, back, hbeside, hplace⟩ := h.place
    exact ⟨p, front, back, hbeside, (hchildren p).trans hplace⟩

end Lies

/-- The page is as the account says: the region before the marker is the given node that is shown,
    or it is none of the given nodes. -/
structure Reached (d₀ : Page) (given : List NodeId)
    (Beside : NodeId → List NodeId → List NodeId → Prop) (m : NodeId) (s : Stage)
    (region : List NodeId) (d : Page) : Prop where
  lies : Lies d₀ given Beside m s.written region d
  shown : ∀ n, s.shown = some n → n ∈ given ∧ region = [n]
  own : s.shown = none → ∀ x ∈ region, x ∉ given

/-! ### One run -/

/-- A given node stands before the marker. -/
theorem Lies.reached_shown (h : Lies d₀ given Beside m texts [x] d) (hx : x ∈ given) :
    Reached d₀ given Beside m ⟨some x, texts⟩ [x] d where
  lies := h
  shown n hn := by
    obtain rfl := Option.some.inj hn
    exact ⟨hx, rfl⟩
  own hnone := absurd hnone (Option.some_ne_none x)

/-- What stands before the marker is of the hole. -/
theorem Lies.reached_own (h : Lies d₀ given Beside m texts region d)
    (hown : ∀ x ∈ region, x ∉ given) :
    Reached d₀ given Beside m ⟨none, texts⟩ region d where
  lies := h
  shown n hn := absurd hn.symm (Option.some_ne_none n)
  own _ := hown

theorem of_onlyText?_eq_some (h : onlyText? d region = some x) :
    region = [x] ∧ isText d x = true := by
  rcases region with _ | ⟨y, _ | ⟨z, rest⟩⟩
  · cases h
  · rw [onlyText?] at h
    split at h
    · rename_i hkind
      obtain rfl := Option.some.inj h
      exact ⟨rfl, by simp [isText, hkind]⟩
    · cases h
  · cases h

/-- A text goes into the text node that stands before the marker. -/
theorem Reached.overwrite {s : Stage} {v : Value} {t : String}
    (h : Reached d₀ given Beside m s [x] d) (hx : isText d x = true) (hv : nodeOf? v = none)
    (ht : plainText? v = some t) :
    Reached d₀ given Beside m (s.next d₀ v) [x] (d.setText x t) := by
  have hlies := h.lies.setText hx t
  cases hshown : s.shown with
  | some n =>
    obtain ⟨hn, hregion⟩ := h.shown n hshown
    obtain rfl : x = n := by simpa using hregion
    have hnext : s.next d₀ v = ⟨some x, (x, t) :: s.written⟩ := by
      have htext : isText d₀ x = true := h.lies.isText hn ▸ hx
      simp [Stage.next, hv, hshown, ht, Option.filter, htext]
    rw [if_pos hn] at hlies
    rw [hnext]
    exact hlies.reached_shown hn
  | none =>
    have hout := h.own hshown x List.mem_cons_self
    have hnext : s.next d₀ v = ⟨none, s.written⟩ := by
      simp [Stage.next, hv, hshown]
    rw [if_neg hout] at hlies
    rw [hnext]
    exact hlies.reached_own (h.own hshown)

/-- Everything else replaces what stands there. -/
theorem Reached.replace (c : Calls) {s : Stage} {v : Value} {w : World}
    (h : Reached d₀ given Beside m s region w.page) (hv : Offered given v)
    (hkind : ∀ n ∈ given, d₀.isFragment n = false) (hlt : ∀ n : Nat, n ∈ given → n < d₀.size)
    (hway : nodeOf? v = none → s.shown.filter (isText d₀) = none ∨ plainText? v = none) :
    ∃ region' d', replaceContent c m region v w = some (region', { w with page := d' }) ∧
      Reached d₀ given Beside m (s.next d₀ v) region' d' := by
  -- the page without what stood there
  obtain ⟨d₁, hd₁⟩ : ∃ d₁, d₁ = region.foldl (fun d n => d.detach n) w.page := ⟨_, rfl⟩
  have h₁ : Lies d₀ given Beside m s.written [] d₁ := hd₁ ▸ h.lies.clear
  have hkind₁ (n : NodeId) (hn : n ∈ given) : d₁.isFragment n = false :=
    (h₁.isFragment hn).trans (hkind n hn)
  obtain ⟨p, hparent, -⟩ := h₁.parent
  rcases nodesOf_offered c hv (w := { w with page := d₁ }) h₁.forest hkind₁ with
    ⟨n, hn, rfl, hnodes⟩ | ⟨ids, d₂, hnode, hnodes, hsprung⟩
  · refine ⟨[n], insertAll d₁ p (some m) [n], ?_, ?_⟩
    · rw [replaceContent, run_bind (run_changePage _ w), ← hd₁, run_bind hnodes,
        run_bind (run_page _)]
      simp only [hparent]
      rfl
    · have hlies := h₁.insert hparent (h₁.lt_size hn (hlt n hn)) (hkind₁ n hn) (h₁.takes n hn)
        List.not_mem_nil (Or.inl hn)
      exact hlies.reached_shown hn
  · have hsprung' : Sprung d₁ d₂ ids := hsprung
    have h₂ := h₁.of_extends hlt hsprung'.ext
    have hp : p < d₁.size := h₁.forest.parent_lt_size hparent
    have hparent₂ : d₂.parent? m = some p := by
      rw [parent?, hsprung'.ext.same m (lt_size_of_parent? hparent)]
      exact hparent
    have htakes (x : Nat) (hx : x ∈ ids) : Takes d₂ x m := by
      have hyoung := (hsprung'.young x hx).1
      refine ⟨?_, p, hparent₂, ?_⟩
      · rintro rfl
        exact Nat.not_lt.mpr hyoung (lt_size_of_parent? hparent)
      · rintro (heq | hanc)
        · exact Nat.not_lt.mpr hyoung (heq ▸ hp)
        · exact Nat.not_lt.mpr hyoung (hsprung'.ext.ancestor h₁.forest hanc hp).2
    have hlies := h₂.insertAll hparent₂ hsprung'.nodup (fun x hx => (hsprung'.young x hx).2)
      hsprung'.notFragment htakes (fun x _ => List.not_mem_nil) hsprung'.root
    have hnext : s.next d₀ v = ⟨none, s.written⟩ := by
      rcases hway hnode with hshown | hplain
      · simp [Stage.next, hnode, hshown]
      · simp [Stage.next, hnode, hplain]
    refine ⟨ids, insertAll d₂ p (some m) ids, ?_, ?_⟩
    · rw [replaceContent, run_bind (run_changePage _ w), ← hd₁, run_bind hnodes,
        run_bind (run_page _)]
      simp only [hparent₂]
      rfl
    · rw [hnext]
      refine hlies.reached_own fun x hx hgiven => ?_
      exact Nat.not_lt.mpr (hsprung'.young x hx).1 (h₁.lt_size hgiven (hlt x hgiven))

/-- The content is brought up to date, and the page still agrees with the account. -/
theorem Reached.update (c : Calls) {s : Stage} {v : Value} {w : World}
    (h : Reached d₀ given Beside m s region w.page) (hv : Offered given v)
    (hkind : ∀ n ∈ given, d₀.isFragment n = false) (hlt : ∀ n : Nat, n ∈ given → n < d₀.size) :
    ∃ region' d', updateContent c m region v w = some (region', { w with page := d' }) ∧
      Reached d₀ given Beside m (s.next d₀ v) region' d' := by
  have hnode {t : String} (ht : plainText? v = some t) : nodeOf? v = none := by
    cases v <;> first | rfl | cases ht
  rcases honly : onlyText? w.page region with _ | x
  · have hreplace : updateContent c m region v w = replaceContent c m region v w := by
      rw [updateContent, run_bind (run_page w), honly]
    rw [hreplace]
    refine h.replace c hv hkind hlt fun _ => Or.inl ?_
    cases hshown : s.shown with
    | none => rfl
    | some n =>
      obtain ⟨hn, rfl⟩ := h.shown n hshown
      have htext : isText d₀ n = false := by
        rw [← h.lies.isText hn, isText, ← Bool.not_eq_true, beq_iff_eq]
        intro hkind
        simp [onlyText?, hkind] at honly
      simp [Option.filter, htext]
  · rcases hplain : plainText? v with _ | t
    · have hreplace : updateContent c m region v w = replaceContent c m region v w := by
        rw [updateContent, run_bind (run_page w), honly, hplain]
      rw [hreplace]
      exact h.replace c hv hkind hlt fun _ => Or.inr hplain
    · obtain ⟨rfl, hx⟩ := of_onlyText?_eq_some honly
      refine ⟨[x], w.page.setText x t, ?_, h.overwrite hx (hnode hplain) hplain⟩
      rw [updateContent, run_bind (run_page w), honly, hplain]
      rfl

end

/-! ### From run to run -/

/-- The reader yields what `gives` says, and that depends on nothing but what it reads. -/
structure Offers (c : Calls) (r : Reader) (gives : (String → Script) → Value)
    (reads : (String → Script) → List String) (given : List NodeId)
    (stored : List (String × Value)) :
    Prop where
  resolve : ∀ w : World, w.live = true → w.stored = stored →
    ∃ w', c.resolve (.reactive r) w = some (gives w.held, w') ∧ Stirs w w' (reads w.held) ∧
      w'.page = w.page
  congr : ∀ σ τ : String → Script, (∀ x ∈ reads σ, τ x = σ x) → gives τ = gives σ ∧
    reads τ = reads σ
  offered : ∀ σ, Offered given (gives σ)

/-- The hole is effect `i`, which is not running, and has come to stage `s`. -/
structure AtStage (d₀ : Page) (given : List NodeId)
    (Beside : NodeId → List NodeId → List NodeId → Prop) (stored : List (String × Value)) (i : Nat)
    (m : NodeId) (r : Reader) (s : Stage) (w : World) : Prop where
  stored_eq : w.stored = stored
  reached : ∃ region, w.graph.effects[i]? = some ⟨.content m r region, false⟩ ∧
    Reached d₀ given Beside m s region w.page

/-- What is done elsewhere leaves the given nodes and what the hole has put before its marker as
    they are.  The marker may be moved with what stands before it. -/
structure LeavesAlone (given : List NodeId) (Beside : NodeId → List NodeId → List NodeId → Prop)
    (i : Nat) (m : NodeId) (w w' : World) : Prop where
  stored : w'.stored = w.stored
  forest : w.page.IsForest → w'.page.IsForest
  content : ∀ n ∈ given, w'.page.content? n = w.page.content? n
  children : ∀ n ∈ given, w'.page.children n = w.page.children n
  apart : ∀ n ∈ given, (∀ q, w.page.parent? n = some q → q ∉ given) →
    ∀ q, w'.page.parent? n = some q → q ∉ given
  takes : ∀ n ∈ given, Takes w.page n m → Takes w'.page n m
  place : ∀ r region running, w.graph.effects[i]? = some ⟨.content m r region, running⟩ →
    (∃ p front back, Beside p (others given front) (others given back) ∧
      w.page.children p = front ++ region ++ m :: back) →
    ∃ p front back, Beside p (others given front) (others given back) ∧
      w'.page.children p = front ++ region ++ m :: back

theorem LeavesAlone.refl (given : List NodeId) (Beside : NodeId → List NodeId → List NodeId → Prop)
    (i : Nat) (m : NodeId) (w : World) : LeavesAlone given Beside i m w w :=
  ⟨rfl, fun h => h, fun _ _ => rfl, fun _ _ => rfl, fun _ _ h => h, fun _ _ h => h,
    fun _ _ _ _ h => h⟩

section

variable {f : Factory} {d₀ : Page} {given : List NodeId} {stored : List (String × Value)}
  {i j : Nat}
  {Beside : NodeId → List NodeId → List NodeId → Prop} {m : NodeId} {r : Reader}
  {gives : (String → Script) → Value} {reads : (String → Script) → List String}

/-- Before the first run nothing stands before the marker. -/
theorem AtStage.start {w : World} {p : NodeId} {front back : List NodeId}
    (hforest : w.page.IsForest) (hplace : w.page.children p = front ++ m :: back)
    (hbeside : Beside p (others given front) (others given back))
    (hapart : ∀ n ∈ given, ∀ q, w.page.parent? n = some q → q ∉ given)
    (hout : ∀ n ∈ given, m ≠ n ∧ ¬ w.page.AncestorOrSelf n p) :
    AtStage w.page given Beside w.stored w.graph.effects.size m r ⟨none, []⟩
      { w with graph := (w.graph.register (.content m r [])).2 } := by
  have hlies : Lies w.page given Beside m [] [] w.page := by
    refine ⟨hforest, fun n _ => ?_, fun _ _ => rfl, hapart, fun n hn => ?_, p, front, back,
      hbeside, ?_⟩
    · exact (map_overwritten_nil n (w.page.content? n)).symm
    · exact ⟨(hout n hn).1, p, hforest.parent?_of_mem (by simp [hplace]), (hout n hn).2⟩
    · rw [hplace, List.append_nil]
  exact ⟨rfl, [], register_effect w _, hlies.reached_own fun _ hx => absurd hx List.not_mem_nil⟩

theorem routine_given (hoffers : Offers (machine f j) r gives reads given stored)
    (hkind : ∀ n ∈ given, d₀.isFragment n = false) (hlt : ∀ n : Nat, n ∈ given → n < d₀.size) :
    Routine (machine f (j + 1)) i reads (fun σ s => s.next d₀ (gives σ))
      (LeavesAlone given Beside i m)
      (AtStage d₀ given Beside stored i m r) where
  run s w hlive h := by
    obtain ⟨hstored, region, heffect, hreached⟩ := h
    obtain ⟨w', b', hrun, hrerun, region', rfl, hreached'⟩ :=
      runEffect_run (f := f) (c := machine f j) (reads w.held)
        (P := fun d b' => ∃ region', b' = .content m r region' ∧
          Reached d₀ given Beside m (s.next d₀ (gives w.held)) region' d)
        hlive heffect fun w₀ hpage hheld hstored₀ hlive₀ => by
        obtain ⟨w₁, hread, hstirs, hsame⟩ := hoffers.resolve w₀ hlive₀ (hstored₀.trans hstored)
        rw [hheld] at hread hstirs
        obtain ⟨region', d', hupdate, hreached'⟩ := Reached.update (machine f j)
          ((hsame.trans hpage).symm ▸ hreached) (hoffers.offered w.held) hkind hlt
        refine ⟨_, _, ?_, hstirs.onPage d', region', rfl, hreached'⟩
        have hget : (getThe World : Run World) w₀ = some (w₀, w₀) := rfl
        rw [runBinding, run_bind hget, if_neg (by simp [hlive₀])]
        rw [run_bind hread, run_bind hupdate]
        rfl
    refine ⟨w', _, hrun, hrerun, hrerun.stored.trans hstored, region', ?_, hreached'⟩
    rw [hrerun.graph.effect, if_pos rfl]
  calm s w w' h haside hcalm := by
    obtain ⟨hstored, region, heffect, hreached⟩ := h
    refine ⟨hcalm.stored.trans hstored, region, haside.effect.trans heffect, ?_, hreached.shown,
      hreached.own⟩
    obtain ⟨hforest, hcontent, hchildren, hapart, htakes, hplace⟩ := hreached.lies
    refine ⟨hcalm.forest hforest, fun n hn => ?_, fun n hn => ?_, fun n hn => ?_,
      fun n hn => ?_, ?_⟩
    · exact (hcalm.content n hn).trans (hcontent n hn)
    · exact (hcalm.children n hn).trans (hchildren n hn)
    · exact hcalm.apart n hn (hapart n hn)
    · exact hcalm.takes n hn (htakes n hn)
    · exact hcalm.place r region false heffect hplace
  write s w name code h := ⟨h.stored_eq, h.reached⟩

end

/-! ### Values one after the other -/

/-- No text comes directly after a given text node. -/
def Careful (d : Page) (vs : List Value) : Prop :=
  vs.IsChain fun v v' => ∀ n, v = .node n → isText d n = true → plainText? v' = none

theorem Stage.foldl_careful {d : Page} {vs : List Value} (h : Careful d vs) {s : Stage}
    (hfirst : ∀ v ∈ vs.head?, ∀ n, s.shown = some n → isText d n = true → plainText? v = none) :
    vs.foldl (Stage.next d) s = ⟨(vs.getLast?.map nodeOf?).getD s.shown, s.written⟩ := by
  induction vs generalizing s with
  | nil => rfl
  | cons v vs ih =>
    obtain ⟨hnext, hrest⟩ := List.isChain_cons.mp h
    have hstep : s.next d v = ⟨nodeOf? v, s.written⟩ := by
      rcases hv : nodeOf? v with _ | n
      · rcases hshown : s.shown.filter (isText d) with _ | n
        · simp [Stage.next, hv, hshown]
        · obtain ⟨hn, htext⟩ := Option.filter_eq_some_iff.mp hshown
          have hplain := hfirst v rfl n hn htext
          simp [Stage.next, hv, hshown, hplain]
      · simp [Stage.next, hv]
    rw [List.foldl_cons, hstep, ih hrest, List.getLast?_cons]
    · rcases vs.getLast? with _ | u <;> rfl
    · intro u hu n hn htext
      exact hnext u hu n (eq_of_nodeOf? hn) htext

/-- **A hole leaves alone what it is given.**  A reader is bound to the marker `m`; it yields
    scalars, lists of scalars and given nodes, which are no fragments and do not stand in one
    another.  Then anything may happen that leaves the hole alone, such as moving it to where it is
    to be shown, and then signals are written.  All that succeeds, and the page agrees with the
    account of what has been yielded at the runs: each given node holds what it held, and has the
    children that it had, except that a text node has the text that was yielded directly after it at
    last.  The given node that was yielded last, or written over, stands directly before the marker,
    and what else stands there is not of the hole.  If no text is ever yielded directly after a
    given text node, all given nodes are as they were, and a node that is yielded now is the one
    that stands there. -/
theorem newBinding_given {f : Factory} {j : Nat} {w : World} {m p : NodeId}
    {front back given : List NodeId} {r : Reader} {gives : (String → Script) → Value}
    {reads : (String → Script) → List String} {Beside : NodeId → List NodeId → List NodeId → Prop}
    {Inv : World → Prop} (htracking : f.tracking = true) (hlive : w.live = true)
    (hforest : w.page.IsForest) (hplace : w.page.children p = front ++ m :: back)
    (hbeside : Beside p (others given front) (others given back))
    (hlt : ∀ n : Nat, n ∈ given → n < w.page.size)
    (hkind : ∀ n ∈ given, w.page.isFragment n = false)
    (hapart : ∀ n ∈ given, ∀ q, w.page.parent? n = some q → q ∉ given)
    (hout : ∀ n ∈ given, m ≠ n ∧ ¬ w.page.AncestorOrSelf n p)
    (hnodup : ∀ x, (w.graph.subscribers x).Nodup)
    (hnew : ∀ x, w.graph.effects.size ∉ w.graph.subscribers x)
    (hoffers : Offers (machine f j) r gives reads given w.stored)
    (hothers : Bystanders (machine f (j + 1)) w.graph.effects.size
      (LeavesAlone given Beside w.graph.effects.size m) Inv)
    (hinv : Inv { w with graph := (w.graph.register (.content m r [])).2 }) :
    ∃ w₀, newBinding f (machine f (j + 1)) (.content m r []) w = some ((), w₀) ∧ Inv w₀ ∧
      ∀ w₁, Aside w.graph.effects.size w₀ w₁ →
        LeavesAlone given Beside w.graph.effects.size m w₀ w₁ → Inv w₁ →
        ∀ writes, ∃ w₂ s, writeAll (machine f (j + 1)) writes w₁ = some ((), w₂) ∧
          w₂.held = holdingAll w.known writes w.held ∧
          s = ((runsAt reads w.known writes w.held).map gives).foldl (Stage.next w.page)
            ⟨none, []⟩ ∧
          (∀ n ∈ given, w₂.page.content? n = (w.page.content? n).map (overwritten s.written n) ∧
            w₂.page.children n = w.page.children n) ∧
          (∀ n, s.shown = some n → ∃ p front back,
            Beside p (others given front) (others given back) ∧
              w₂.page.children p = front ++ n :: m :: back) ∧
          (Careful w.page ((runsAt reads w.known writes w.held).map gives) →
            (∀ n ∈ given, w₂.page.content? n = w.page.content? n) ∧
            ∀ n, gives w₂.held = .node n → s.shown = some n) := by
  obtain ⟨w', hw'⟩ : ∃ w' : World, w' =
    { w with graph := (w.graph.register (.content m r [])).2 } := ⟨_, rfl⟩
  have hroutine : Routine (machine f (j + 1)) w.graph.effects.size reads
      (fun σ s => s.next w.page (gives σ)) (LeavesAlone given Beside w.graph.effects.size m)
      (AtStage w.page given Beside w.stored w.graph.effects.size m r) :=
    routine_given hoffers hkind hlt
  have hstart : AtStage w.page given Beside w.stored w.graph.effects.size m r ⟨none, []⟩ w' :=
    hw' ▸ .start hforest hplace hbeside hapart hout
  obtain ⟨w₀, hbind, hrun, hheld₀, hknown₀, hgoing⟩ :=
    newBinding_going htracking hlive rfl hw' hnodup hnew hroutine hstart
  refine ⟨w₀, hbind, hothers.own w' w₀ (hw' ▸ hinv) hrun, fun w₁ haside halone hinv₁ writes => ?_⟩
  obtain ⟨w₂, hwrites, hheld₂, hstage⟩ :=
    (hgoing.calm hroutine haside halone).writeAll hroutine hothers hinv₁ writes
  rw [haside.known, haside.held, hknown₀, hheld₀] at hheld₂ hstage
  obtain ⟨s, hs⟩ : ∃ s, s =
    ((runsAt reads w.known writes w.held).map gives).foldl (Stage.next w.page) ⟨none, []⟩ :=
    ⟨_, rfl⟩
  have hfold : AtStage w.page given Beside w.stored w.graph.effects.size m r s w₂ := by
    rw [hs, runsAt, List.map_cons, List.foldl_cons, List.foldl_map]
    exact hstage
  obtain ⟨-, region, -, hreached⟩ := hfold
  refine ⟨w₂, s, hwrites, hheld₂, hs, fun n hn => ⟨?_, ?_⟩, fun n hn => ?_, fun hcareful => ?_⟩
  · exact hreached.lies.content n hn
  · exact hreached.lies.children n hn
  · obtain ⟨-, hregion⟩ := hreached.shown n hn
    obtain ⟨p', front', back', hbeside', hplace'⟩ := hreached.lies.place
    refine ⟨p', front', back', hbeside', ?_⟩
    rw [hplace', hregion, List.append_assoc]
    rfl
  · have hlast := Stage.foldl_careful hcareful (s := ⟨none, []⟩) fun _ _ _ hn => by cases hn
    rw [getLast?_runsAt hoffers.congr, ← hs, ← hheld₂] at hlast
    refine ⟨fun n hn => ?_, fun n hn => ?_⟩
    · rw [hreached.lies.content n hn, hlast]
      exact map_overwritten_nil n _
    · rw [hlast, hn]
      rfl

/-- One of the holes that share a node. -/
theorem Holes.Offers.single {H : Holes} {ids : List Nat} {c : Calls} {n : NodeId}
    {stored : List (String × Value)} (h : H.Offers ids c n stored) {id : Nat} (hid : id ∈ ids) :
    Render.Offers c (H.reader id) (fun σ => if H.gives σ id then .node n else .empty)
      (fun σ => H.reads σ id) [n] stored where
  resolve w hlive hstored := h.resolve id hid w hlive hstored
  congr σ τ hsame := by
    obtain ⟨hgives, hreads⟩ := h.congr id hid σ τ hsame
    exact ⟨by rw [hgives], hreads⟩
  offered σ := by
    split
    · exact .node List.mem_cons_self
    · exact .scalar rfl

/-- A text node that is nowhere, and a marker in a paragraph. -/
def lentPage : Page :=
  (((createText empty "x").2.createElement "p" .html).2.createComment "").2.append 1 2

def lentWorld : World :=
  { World.initial [("s", .bool true)] with page := lentPage, stored := [("n", .node 0)] }

/-- The hole yields the text node while the signal is true, and nothing otherwise. -/
def lentHole : Holes := .switched (fun _ => 2) "s" "n" fun _ => true

/-- Whatever else stands in the paragraph. -/
def lentBeside (p : NodeId) (_ _ : List NodeId) : Prop := p = 1

theorem newBinding_given_back : ∃ w₀ w₁ front back,
    newBinding plainFactory (machine plainFactory 4) (.content 2 (lentHole.reader 0) []) lentWorld =
        some ((), w₀) ∧
      writeAll (machine plainFactory 4) [("s", .bool false), ("s", .bool true)] w₀ = some ((), w₁) ∧
      w₁.page.children 1 = front ++ 0 :: 2 :: back ∧ w₁.page.content? 0 = some (.text "x") := by
  have hforest : lentPage.IsForest := by
    have h₀ : Reachable (empty : Page) := .empty
    have h₁ := h₀.step (.make (.text "x")) (by decide)
    have h₂ := h₁.step (.make (.element "p" .html)) (by decide)
    have h₃ := h₂.step (.make (.comment "")) (by decide)
    exact (h₃.step (.change 1 (.append 2)) (by decide)).isForest
  have hroot : lentPage.parent? 1 = none := by decide
  have hout : ¬ lentPage.AncestorOrSelf 0 1 := by
    rintro (heq | hanc)
    · cases heq
    · cases hanc with
      | parent h => cases hroot.symm.trans h
      | step h _ => cases hroot.symm.trans h
  have hnone (x : String) : lentWorld.graph.subscribers x = [] := by
    by_cases hx : "s" = x <;>
      simp [lentWorld, World.initial, Signal.Graph.ofValues, Signal.Graph.subscribers,
        Signal.Graph.cell?, hx]
  have hswitched : lentHole.Offers [0] (machine plainFactory 3) 0 lentWorld.stored :=
    Holes.offers_switched plainFactory 0 rfl
  have hoffers := hswitched.single List.mem_cons_self
  have hroutine : Routine (machine plainFactory 4) 0 (fun σ => lentHole.reads σ 0)
      (fun σ s => s.next lentPage (if lentHole.gives σ 0 then .node 0 else .empty))
      (LeavesAlone [0] lentBeside 0 2)
      (AtStage lentPage [0] lentBeside lentWorld.stored 0 2 (lentHole.reader 0)) :=
    routine_given hoffers (by decide) (by decide)
  have hplace : lentWorld.page.children 1 = [] ++ 2 :: [] := rfl
  have hbeside : lentBeside 1 (others [0] []) (others [0] []) := rfl
  have hlent : ∀ n ∈ [0], 2 ≠ n ∧ ¬ lentWorld.page.AncestorOrSelf n 1 :=
    List.forall_mem_singleton.mpr ⟨by decide, hout⟩
  have hstart : AtStage lentPage [0] lentBeside lentWorld.stored 0 2 (lentHole.reader 0) ⟨none, []⟩
      { lentWorld with
        graph := (lentWorld.graph.register (.content 2 (lentHole.reader 0) [])).2 } :=
    .start (w := lentWorld) hforest hplace hbeside (by decide) hlent
  obtain ⟨w₀, hbind, hinv, hgoes⟩ := newBinding_given (w := lentWorld) rfl rfl hforest hplace
    hbeside (by decide) (by decide) (by decide) hlent (fun x => by simp [hnone])
    (fun x => by simp [hnone]) hoffers (hroutine.alone fun w => .refl _ _ _ _ w)
    ⟨rfl, ⟨_, hstart⟩, rfl⟩
  obtain ⟨w₁, s, hwrites, hheld, hs, hkept, hshown, hcareful⟩ :=
    hgoes w₀ (.refl 0 w₀) (.refl _ _ _ _ w₀) hinv [("s", .bool false), ("s", .bool true)]
  have hvalues : (runsAt (fun σ => lentHole.reads σ 0) lentWorld.known
      [("s", .bool false), ("s", .bool true)] lentWorld.held).map
        (fun σ => if lentHole.gives σ 0 then Value.node 0 else .empty) =
      [.node 0, .empty, .node 0] := rfl
  obtain ⟨hcontent, hnow⟩ := hcareful (by simp [hvalues, Careful, plainText?])
  obtain ⟨q, front, back, rfl, hback⟩ := hshown 0 (hnow 0 (hheld ▸ rfl))
  exact ⟨w₀, w₁, front, back, hbind, hwrites, hback, hcontent 0 List.mem_cons_self⟩

/-! ### A text node that is written over -/

/-- A text by itself, and a paragraph with a hole. -/
def lentFactory : Factory :=
  { plainFactory with literals := [⟨"text", ["x"]⟩, ⟨"hole", ["<p>", "</p>"]⟩] }

/-- The text node is made and stored, and yielded while the signal is true, and another text
    otherwise. -/
def lentSteps (flags : List Bool) : List Step :=
  [.render "text" [] (some "n"),
    .display "hole" [.later (.choose "s" (.stored "n") (.text "y"))] "main"] ++
    flags.map fun flag => .set "s" (.bool flag)

/-- The node comes back with the text that was yielded meanwhile. -/
theorem given_text_overwritten :
    (showAfter lentFactory 30 (lentSteps []) (.initial [("s", .bool true)])).map (·.1) =
        some [("main", "<p>x<!----></p>")] ∧
      (showAfter lentFactory 30 (lentSteps [false, true]) (.initial [("s", .bool true)])).map
          (·.1) =
        some [("main", "<p>y<!----></p>")] := by
  constructor
  · decide +kernel
  · decide +kernel

end Stencil.Render
