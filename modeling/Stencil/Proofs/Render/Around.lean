/-
  Stencil/Proofs/Render/Around.lean
  =================================
  **What is bound around an attribute.**

  A container binds its points one by one, and an element its attributes one by one.  For
  one attribute of one element this falls into three parts: what comes before, the step
  that binds the attribute itself, and what comes after.  The parts around are none of
  the attribute's business if every other attribute of the element goes elsewhere
  (`AttrSpares`), and every other point has an element of its own.

  So whatever the step itself secures is true when the container has been rendered
  (`renderContainer_secures`), and after all that happens later on (`Afterwards.good`).
-/
import Stencil.Proofs.Render.Owner

namespace Stencil.Render

open Document Document.Plant Markup Setup

variable {f : Factory}

/-! ### Attributes that go elsewhere -/

/-- A spread leaves the attribute `n` alone, given the names that shadow its entries. -/
def SparesValue (f : Factory) (T : Types) (stored : List (String × Value)) (n : String)
    (shadowed : List String) : Value → Prop
  | .spread entries => SparesEntries f n shadowed entries
  | .reactive r => SparesReader f T stored n shadowed r
  | _ => True

/-- An attribute of a tag leaves the attribute `n` alone. -/
def AttrSpares (f : Factory) (T : Types) (stored : List (String × Value)) (n : String)
    (values : List Value) (later : List String) (a : Attr) : Prop :=
  targetOf f a ≠ some n ∧ ∀ i, a = .spread i → SparesValue f T stored n later (valueAt values i)

theorem isShadowed_mono {shadowed later : List String} (h : ∀ x ∈ shadowed, x ∈ later)
    {name : String} (hname : isShadowed shadowed name = true) : isShadowed later name = true := by
  obtain ⟨x, hx, hsame⟩ := List.any_eq_true.mp hname
  exact List.any_eq_true.mpr ⟨x, h x hx, hsame⟩

/-- The more names shadow the entries, the better. -/
theorem SparesValue.mono {T : Types} {stored : List (String × Value)} {n : String}
    {shadowed later : List String} {v : Value} (hv : SparesValue f T stored n shadowed v)
    (h : ∀ x ∈ shadowed, x ∈ later) : SparesValue f T stored n later v := by
  cases v with
  | spread entries => exact fun e he => (hv e he).imp_left (isShadowed_mono h)
  | reactive r =>
    exact fun m w w' entries hheld hstored hrun e he =>
      (hv m w w' entries hheld hstored hrun e he).imp_left (isShadowed_mono h)
  | _ => trivial

theorem markPrebound_append (p : Policy) (afterSpread : Bool) (as bs : List Attr) :
    markPrebound p afterSpread (as ++ bs) =
      markPrebound p afterSpread as ++ markPrebound p (afterSpread || as.any Attr.isSpread) bs := by
  induction as generalizing afterSpread with
  | nil => simp [markPrebound]
  | cons a as ih =>
    rw [List.cons_append, markPrebound, ih, markPrebound, List.any_cons, Bool.or_assoc,
      List.cons_append]

/-! ### Parts of an element and of a container -/

theorem bindPoints_append_eq (c : Calls) (source : Compiled) (values : List Value)
    (front back : List (Point × NodeId)) : bindPoints f c source values (front ++ back) =
      bindPoints f c source values front >>= fun _ => bindPoints f c source values back := by
  induction front with
  | nil => simp [bindPoints]
  | cons p front ih =>
    obtain ⟨point, id⟩ := p
    rw [List.cons_append, bindPoints, ih, bindPoints, bind_assoc]

section

variable {G : Regime} {c : Calls} {k : G.Kind} {s : G.State} {values : List Value} {w' : World}

/-- The attributes in front bound, with those behind left. -/
theorem Regime.bindAttrs_front (law : G.Lawful f) (c' : Calls) {id : NodeId}
    {front back : List (Attr × Bool)} (hfront : ∀ pre a post,
      front = pre ++ (a, false) :: post → ∀ s', G.Next k s s' →
      G.Does k s' (bindAttr f c values id ((post ++ back).filterMap fun r => r.1.name?) a)
        (bindAttr f c' values id ((post ++ back).filterMap fun r => r.1.name?) a) fun _ _ => True)
    (hrun : bindAttrs f c values id (front ++ back) (G.world s) = some ((), w')) :
    ∃ s₁, G.Next k s s₁ ∧ bindAttrs f c values id back (G.world s₁) = some ((), w') := by
  induction front generalizing s with
  | nil => exact ⟨s, law.refl k s, hrun⟩
  | cons p front ih =>
    obtain ⟨a, prebound⟩ := p
    rw [List.cons_append, bindAttrs] at hrun
    cases prebound with
    | true =>
      exact ih (fun pre a' post h =>
        hfront ((a, true) :: pre) a' post (by rw [h, List.cons_append])) hrun
    | false =>
      obtain ⟨⟨⟨⟩, w₁⟩, hfirst, hrest⟩ := Option.bind_eq_some_iff.mp hrun
      obtain ⟨s₁, rfl, hnext, -⟩ := (hfront [] a front rfl s (law.refl k s)).exists_next hfirst
      obtain ⟨s₂, hnext', hback⟩ := ih (fun pre a' post h s' hnext' =>
        hfront ((a, false) :: pre) a' post (by rw [h, List.cons_append]) s'
          (law.trans k s s₁ s' hnext hnext')) hrest
      exact ⟨s₂, law.trans k s s₁ s₂ hnext hnext', hback⟩

end

namespace Guard

variable {g : Guard} {w w₁ w' : World} {n : Nat}

/-- What is needed of the renderer around a guard. -/
structure Around (f : Factory) (g : Guard) : Prop where
  policy : f.policy = .usual
  tracking : f.tracking = true
  registry : ∀ name body, f.registry.get? name = some body → body.Keeps g.types
  lasting : g.Lasting f

namespace Around

theorem lawful (h : g.Around f) : (g.regime f).Lawful f := Guard.lawful h.lasting h.registry

theorem serves (h : g.Around f) (n : Nat) : (g.regime f).Serves (machine f n) (machine f (n + 1)) :=
  Guard.serves h.lasting h.policy h.registry n

theorem executes (h : g.Around f) :
    ∀ n, g.Executes f (machine f n).effect (machine f (n + 1)).effect
  | 0 => ⟨fun _ _ => .failure, nofun⟩
  | n + 1 => Guard.executes h.lasting h.policy h.lawful (h.serves n)

theorem newBinding_does (h : g.Around f) {s : (g.regime f).State} {b : Binding}
    (hb : g.Admits f s.1 b) :
    (g.regime f).Does () s (newBinding f (machine f n) b) (newBinding f (machine f (n + 1)) b)
      fun _ _ => True := by
  rw [newBinding, newBinding, if_pos h.tracking, if_pos h.tracking]
  exact register_does h.lasting h.lawful (h.executes n) hb

/-- A value bound to the element under a name for another attribute. -/
theorem bindable (h : g.Around f) {s : (g.regime f).State} {name : String}
    (htarget : nameTarget f name ≠ some g.name) :
    Regime.Bindable f (g.regime f) (machine f n) (machine f (n + 1)) () s g.node name := by
  intro s' _ v hv
  have hbuiltin : (f.policy.resolve name).1.setter.isBuiltIn = true := by
    rw [h.policy]
    exact Setter.isBuiltIn_usual name
  exact Regime.bindValue_does h.lawful (h.serves n) s'.2.lt_size
    (writable_other h.lasting hbuiltin htarget)
    (fun r hr => h.newBinding_does (Or.inr ⟨rfl, hbuiltin, htarget, hr⟩)) hv

/-- An attribute that goes elsewhere bound to the element. -/
theorem bindAttr_does (h : g.Around f) {s : (g.regime f).State} {values : List Value}
    {later : List String} {a : Attr} (ha : AttrSpares f g.types g.stored g.name values later a)
    (hvalues : ∀ v ∈ values, v.Within (g.bounds s.1)) :
    (g.regime f).Does () s (bindAttr f (machine f n) values g.node later a)
      (bindAttr f (machine f (n + 1)) values g.node later a) fun _ _ => True := by
  obtain ⟨htarget, hspread⟩ := ha
  have hnamed (name : String) (hname : a.name? = some name) {v : Value}
      (hv : v.Within (g.bounds s.1)) :
      (g.regime f).Does () s (bindValue f (machine f n) g.node name v)
        (bindValue f (machine f (n + 1)) g.node name v) fun _ _ => True := by
    refine h.bindable ?_ s (h.lawful.refl () s) v hv
    rw [targetOf, hname] at htarget
    exact htarget
  cases a with
  | flag name => exact hnamed name rfl (.bool true)
  | fixed name value quote => exact hnamed name rfl (.text value)
  | dynamic name i quote => exact hnamed name rfl (within_valueAt hvalues i)
  | mixed name parts quote => exact hnamed name rfl (within_joinedValue hvalues parts)
  | spread i =>
    have hspares := hspread i rfl
    have hv := within_valueAt hvalues i
    rw [bindAttr, bindAttr]
    revert hspares hv
    generalize valueAt values i = v
    intro hspares hv
    cases hv with
    | spread hentries =>
      exact Regime.bindEntries_does h.lawful hentries fun e he =>
        (hspares e he).imp_right fun htarget => h.bindable htarget
    | reactive hr => exact h.newBinding_does (Or.inr ⟨rfl, hr, hspares⟩)
    | _ => exact .pure h.lawful trivial

/-- What another guard on the same attribute secures, everything around keeps. -/
theorem of_secures (h : g.Around f) {g' : Guard} {P : World → Prop} (hs : Secures f g g' P) :
    g'.Around f :=
  ⟨h.policy, h.tracking, hs.types ▸ h.registry, hs.lasting⟩

end Around

theorem Secures.bounds {g' : Guard} {P : World → Prop} (h : Secures f g g' P) (w : World) :
    g'.bounds w = g.bounds w := by
  rw [Guard.bounds, Guard.bounds, h.types, h.node]

/-- A step that secures something, and that it has been taken. -/
def Secured (f : Factory) (g : Guard) (P : World → Prop) (w w' : World) : Prop :=
  ∃ g', Secures f g g' P ∧ g'.Holds f w' ∧ g'.good w' ∧ w.page.size ≤ w'.page.size

/-- What comes after a step that secures something. -/
theorem Secured.next {P : World → Prop} {α : Type} {act : Run α} (act' : Run α) {a : α}
    (h : Secured f g P w w₁) (hrun : act w₁ = some (a, w'))
    (hdoes : ∀ g', Secures f g g' P → g'.Around f → ∀ s : (g'.regime f).State, s.1 = w₁ →
      (g'.regime f).Does () s act act' fun _ _ => True)
    (haround : g.Around f) : Secured f g P w w' := by
  obtain ⟨g', hsecures, hholds, hgood, hsize⟩ := h
  obtain ⟨s', rfl, hnext, -⟩ :=
    (hdoes g' hsecures (haround.of_secures hsecures) ⟨w₁, hholds⟩ rfl).exists_next hrun
  exact ⟨g', hsecures, s'.2, hnext.2 hgood, Nat.le_trans hsize hnext.1⟩

/-! ### The attributes of the element -/

/-- The attributes of the element bound, one of which is the step. -/
theorem bindAttrs_secures {P : World → Prop} (h : g.Around f) (hw : g.Holds f w) (hgood : g.good w)
    {values : List Value} (hvalues : ∀ v ∈ values, v.Within (g.bounds w)) {a : Attr}
    {pre post : List (Attr × Bool)}
    (hpre : ∀ front a' back, pre = front ++ (a', false) :: back →
      AttrSpares f g.types g.stored g.name values
        ((back ++ (a, false) :: post).filterMap fun r => r.1.name?) a')
    (hpost : ∀ front a' back, post = front ++ (a', false) :: back →
      AttrSpares f g.types g.stored g.name values (back.filterMap fun r => r.1.name?) a')
    (hstep : ∀ w₁ w₂, g.Holds f w₁ → g.good w₁ →
      bindAttr f (machine f n) values g.node (post.filterMap fun r => r.1.name?) a w₁ =
        some ((), w₂) →
      Secured f g P w₁ w₂)
    (hrun : bindAttrs f (machine f n) values g.node (pre ++ (a, false) :: post) w = some ((), w')) :
    Secured f g P w w' := by
  obtain ⟨s₁, hnext, hback⟩ := Regime.bindAttrs_front (G := g.regime f) h.lawful
    (machine f (n + 1)) (s := ⟨w, hw⟩)
    (fun front a' back heq s' hnext => h.bindAttr_does (hpre front a' back heq)
      fun v hv => (hvalues v hv).mono (g.bounds_mono hnext.1)) hrun
  obtain ⟨⟨⟨⟩, w₂⟩, hfirst, hrest⟩ := Option.bind_eq_some_iff.mp hback
  have hsecured := hstep s₁.1 w₂ s₁.2 (hnext.2 hgood) hfirst
  have hall : Secured f g P s₁.1 w' := by
    have hsize : s₁.1.page.size ≤ w₂.page.size := by
      obtain ⟨-, -, -, -, hsize⟩ := hsecured
      exact hsize
    refine hsecured.next (bindAttrs f (machine f (n + 1)) values g.node post) hrest
      (fun g' hsecures haround s hs => ?_) h
    have hle := g.bounds_mono (Nat.le_trans hnext.1 hsize)
    have hvalues' : ∀ v ∈ values, v.Within (g'.bounds s.1) := by
      rw [hs, hsecures.bounds]
      exact fun v hv => (hvalues v hv).mono hle
    refine Regime.bindAttrs_does haround.lawful hvalues' fun front a' back heq s' hnext' => ?_
    rw [← hsecures.node]
    refine haround.bindAttr_does ?_ fun v hv => (hvalues' v hv).mono (g'.bounds_mono hnext'.1)
    rw [hsecures.types, hsecures.stored, hsecures.name]
    exact hpost front a' back heq
  obtain ⟨g', hsecures, hholds, hgood', hsize⟩ := hall
  exact ⟨g', hsecures, hholds, hgood', Nat.le_trans hnext.1 hsize⟩

/-! ### The points of the container -/

/-- A guard allows every component. -/
theorem Around.point_within (h : g.Around f) (s : (g.regime f).State) (point : Point) :
    point.Within f ((g.regime f).bounds () s) := by
  cases point with
  | component tag children =>
    exact h.lawful.component () s [.element tag children] trivial (tag, children) List.mem_cons_self
  | _ => trivial

/-- The points of a container bound, one of which is the element. -/
theorem bindPoints_secures {P : World → Prop} (h : g.Around f) (hw : g.Holds f w) (hgood : g.good w)
    {source : Compiled} {values : List Value} (hvalues : ∀ v ∈ values, v.Within (g.bounds w))
    (hsource : (g.bounds w).source source) {tag : Tag} {front back : List (Point × NodeId)}
    (hothers : ∀ p ∈ front ++ back, (g.bounds w).site p.2)
    (hstep : ∀ w₁ w₂, g.Holds f w₁ → g.good w₁ → w.page.size ≤ w₁.page.size →
      bindTag f (machine f n) values g.node tag w₁ = some ((), w₂) → Secured f g P w₁ w₂)
    (hrun : bindPoints f (machine f n) source values (front ++ (.element tag, g.node) :: back) w =
      some ((), w')) : Secured f g P w w' := by
  obtain ⟨hfront, hback⟩ := List.forall_mem_append.mp hothers
  have hfirst : (g.regime f).Does () ⟨w, hw⟩ (bindPoints f (machine f n) source values front)
      (bindPoints f (machine f (n + 1)) source values front) fun _ _ => True :=
    Regime.bindPoints_does h.lawful (h.serves n) hsource hvalues
      (fun p hp => ⟨(hfront p hp).1, hfront p hp⟩) fun p _ => h.point_within _ p.1
  rw [bindPoints_append_eq] at hrun
  obtain ⟨⟨⟨⟩, w₁⟩, hrun₁, hback'⟩ := Option.bind_eq_some_iff.mp hrun
  obtain ⟨s₁, rfl, hnext, -⟩ := hfirst.exists_next hrun₁
  obtain ⟨⟨⟨⟩, w₂⟩, hpoint, hrest⟩ := Option.bind_eq_some_iff.mp hback'
  have hsecured := hstep s₁.1 w₂ s₁.2 (hnext.2 hgood) hnext.1 hpoint
  have hsize : s₁.1.page.size ≤ w₂.page.size := by
    obtain ⟨-, -, -, -, hsize⟩ := hsecured
    exact hsize
  have hall : Secured f g P s₁.1 w' := by
    refine hsecured.next (bindPoints f (machine f (n + 1)) source values back) hrest
      (fun g' hsecures haround s hs => ?_) h
    have hle := g.bounds_mono (Nat.le_trans hnext.1 hsize)
    have hbounds : (g'.regime f).bounds () s = g.bounds w₂ := by
      change g'.bounds s.1 = _
      rw [hs, hsecures.bounds]
    refine Regime.bindPoints_does (k := ()) haround.lawful (haround.serves n) ?_ ?_ (fun p hp => ?_)
      fun p _ => haround.point_within s p.1
    · rw [hbounds]
      exact hle.source _ hsource
    · rw [hbounds]
      exact fun v hv => (hvalues v hv).mono hle
    · rw [hbounds]
      exact ⟨(hle.site _ (hback p hp)).1, hle.site _ (hback p hp)⟩
  obtain ⟨g', hsecures, hholds, hgood', hsize'⟩ := hall
  exact ⟨g', hsecures, hholds, hgood', Nat.le_trans hnext.1 hsize'⟩

end Guard

/-! ### A container -/

/-- The points of a container, with the nodes that they get in a copy of its skeleton. -/
def places (f : Factory) (d : Page) (root : NodeId) (nodes : List Node) : List (Point × NodeId) :=
  (pointsOfAll f nodes).zip (stations (d.copy root).2 (d.copy root).1)

/-- Different points have different nodes. -/
theorem nodup_places {d : Page} {root : Nat} (hforest : d.IsForest) (hroot : root < d.size)
    (nodes : List Node) : ((places f d root nodes).map Prod.snd).Nodup := by
  rw [places, List.zip_eq_zip_take_min, List.map_snd_zip (by simp)]
  exact (List.take_sublist _ _).nodup (stations_copy hforest hroot).1

/-- The points other than one, before it and behind it, have other nodes of the copy. -/
theorem exists_split_places {d : Page} {root : Nat} {nodes : List Node} {point : Point}
    {id : NodeId} (hforest : d.IsForest) (hroot : root < d.size)
    (hplace : (point, id) ∈ places f d root nodes) :
    ∃ front back, places f d root nodes = front ++ (point, id) :: back ∧
      ∀ p ∈ front ++ back, (fun x : Nat => x < (d.copy root).2.size) p.2 ∧ p.2 ≠ id := by
  obtain ⟨-, hstations⟩ := stations_copy hforest hroot
  obtain ⟨front, back, hsplit⟩ := List.append_of_mem hplace
  refine ⟨front, back, hsplit, fun p hp => ?_⟩
  have hmem : p ∈ places f d root nodes := by
    rw [hsplit]
    simp only [List.mem_append, List.mem_cons] at hp ⊢
    tauto
  have hnodup := nodup_places (f := f) hforest hroot nodes
  rw [hsplit, List.map_append, List.map_cons, List.nodup_middle, ← List.map_append] at hnodup
  refine ⟨(hstations p.2 (List.of_mem_zip hmem).2).2, fun hsame => ?_⟩
  exact hnodup.notMem (List.mem_map.mpr ⟨p, hp, hsame⟩)

/-- A container with a skeleton is rendered by copying it, binding the points to the copy and
    taking the children of its root. -/
theorem run_renderContainer {c : Calls} {source : Compiled} {values : List Value} {slot root : Nat}
    {nodes : List Node} (w : World) (hskeleton : source.skeleton? slot = some root) :
    renderContainer f c source values slot nodes w =
      (bindPoints f c source values (places f w.page root nodes) >>= fun _ =>
        page >>= fun d => pure (Value.ofList ((d.children (w.page.copy root).1).map Value.node)))
        { w with page := (w.page.copy root).2 } := by
  rw [renderContainer, hskeleton]
  simp only
  rw [run_bind (run_onPage _ w), run_bind (run_page _)]
  rfl

/-- The node of an element is an element as the tag says. -/
theorem element?_place {d : Page} {root : Nat} {nodes : List Node} {tag : Tag} {id : NodeId}
    (hforest : d.IsForest) (hfurnished : Furnished f.toSetup 0 d (some root) nodes)
    (hplace : (.element tag, id) ∈ places f d root nodes) :
    (d.copy root).2.element? id = some (Sprouts.copied f.elementOf tag) := by
  obtain ⟨ss, hstand, hsprouts, -⟩ := hfurnished
  obtain ⟨d', hcopy, hforest', -, hcopied, -⟩ := copy_spec hforest hstand
  rw [Plant.root] at hcopy
  rw [places, hcopy, stations_eq hcopied hforest'] at hplace
  have hmeets := forall₂_meets (hsprouts.copyAllAt _) hcopied.below
  rw [hcopy]
  exact (List.forall₂_iff_zip.mp hmeets).2 hplace

/-- A guard at the outset: the attribute is this, and nothing is bound to it. -/
def Guard.outset (T : Types) (stored : List (String × Value)) (id : NodeId) (n : String)
    (a : Option Attribute) : Guard :=
  Guard.kept ⟨T, stored, id, n, none, fun _ => True⟩ a

section

variable {T : Types} {w w' : World} {root : Nat} {id : NodeId} {n : String} {tag : Tag}
  {nodes : List Node}

/-- In a proper world, with a skeleton just copied, nothing is bound to the nodes of the copy.  So a
    ward on one of its elements holds, if it holds of the rest of the world. -/
theorem World.Proper.holds_copied (hproper : w.Proper T) {W : Ward} (hroot : root < w.page.size)
    (hfurnished : Furnished f.toSetup 0 w.page (some root) nodes)
    (hplace : (.element tag, W.node) ∈ places f w.page root nodes)
    (hcode : ∀ c, c.Keeps T → W.code c) (hwrite : ∀ name c, T name c → c.Keeps T → W.write name c)
    (hapt : (Bounds.typed T w.page.size).Le (W.bounds { w with page := (w.page.copy root).2 }) →
      W.Apt { w with page := (w.page.copy root).2 }) :
    W.Holds { w with page := (w.page.copy root).2 } ∧
      (Bounds.typed T w.page.size).Le (W.bounds { w with page := (w.page.copy root).2 }) := by
  obtain ⟨-, -, hext, -, -⟩ := exists_copy hproper.forest hroot
  obtain ⟨-, hstations⟩ := stations_copy hproper.forest hroot
  obtain ⟨hnew, -⟩ := hstations W.node (List.of_mem_zip hplace).2
  have hle : (Bounds.typed T w.page.size).Le (W.bounds { w with page := (w.page.copy root).2 }) :=
    Bounds.typed_le_around hcode hwrite hext.size_le hnew
  refine ⟨?_, hle⟩
  exact {
    forest := hext.forest
    element := ⟨_, element?_place hproper.forest hfurnished hplace⟩
    stored := fun p hp => (hproper.stored p hp).mono hle
    containers := fun p hp => hle.node _ (hproper.containers p hp)
    cached := fun p hp source hsource => hle.source _ (hproper.cached p hp source hsource)
    apt := hapt hle }

/-- A guard on an element of a copy holds at the outset. -/
theorem Guard.holds_outset (hproper : w.Proper T) (hroot : root < w.page.size)
    (hfurnished : Furnished f.toSetup 0 w.page (some root) nodes)
    (hplace : (.element tag, id) ∈ places f w.page root nodes) (n : String) (a : Option Attribute) :
    (Guard.outset T w.stored id n a).Holds f { w with page := (w.page.copy root).2 } ∧
      (Bounds.typed T w.page.size).Le
        ((Guard.outset T w.stored id n a).bounds { w with page := (w.page.copy root).2 }) := by
  apply hproper.holds_copied (W := (Guard.outset T w.stored id n a).ward f) hroot hfurnished hplace
    (fun _ hc => hc) fun _ _ htyped hc => ⟨htyped, hc⟩
  intro hle
  exact {
    live := hproper.live
    signals := hproper.signals
    owned := fun _ _ hi => by cases hi
    effects := fun i e he => Or.inr (Or.inl (Binding.Within.mono hle (hproper.effects i e he)))
    stored := rfl }

/-- Compiling a literal leaves a world proper, and the skeletons are on its page. -/
theorem World.Proper.compile (h : w.Proper T) {l : Literal}
    {outcome : Except TemplateError Compiled} (hrun : Render.compile f l w = some (outcome, w')) :
    w'.Proper T ∧
      ∀ source, outcome = .ok source → (Bounds.typed T w'.page.size).source source := by
  rcases compile_cases hrun with ⟨-, rfl, rfl⟩ | ⟨hlookup, rfl⟩
  · obtain ⟨hext, hnew⟩ := Setup.compile_extends f.toSetup l h.forest
    have hle := Bounds.typed_mono T hext.size_le
    have hsource : ∀ source, (f.compile l w.page).1 = .ok source →
        (Bounds.typed T (f.compile l w.page).2.size).source source :=
      fun source hok slot root hroot => (hnew source hok slot root hroot).2
    refine ⟨⟨h.live, hext.forest, h.signals, fun i e he => (h.effects i e he).mono hle,
      fun p hp => (h.stored p hp).mono hle, fun p hp => hle.node _ (h.containers p hp),
      fun p hp source hok => ?_⟩, hsource⟩
    rcases List.mem_cons.mp hp with rfl | hp
    · exact hsource source hok
    · exact hle.source _ (h.cached p hp source hok)
  · obtain ⟨p, hp, hfound⟩ := Option.map_eq_some_iff.mp hlookup
    exact ⟨⟨h.live, h.forest, h.signals, h.effects, h.stored, h.containers, h.cached⟩,
      fun source hok => h.cached p (List.mem_of_find?_eq_some hp) source (hfound.trans hok)⟩

/-- What the binding of an element secures is true of the container when it is rendered. -/
theorem renderContainer_secures {P : World → Prop} {k slot : Nat} {source : Compiled}
    {values : List Value} {v : Value} {a : Option Attribute} (hpolicy : f.policy = .usual)
    (htracking : f.tracking = true)
    (hregistry : ∀ name body, f.registry.get? name = some body → body.Keeps T)
    (hproper : w.Proper T) (hvalues : ∀ v ∈ values, v.Within (Bounds.typed T w.page.size))
    (hsource : (Bounds.typed T w.page.size).source source)
    (hskeleton : source.skeleton? slot = some root)
    (hfurnished : Furnished f.toSetup 0 w.page (some root) nodes)
    (hplace : (.element tag, id) ∈ places f w.page root nodes)
    (hstart : findAttribute (Sprouts.copied f.elementOf tag).attributes n = a)
    (hstep : ∀ w₁ w₂, (Guard.outset T w.stored id n a).Holds f w₁ →
      (Guard.outset T w.stored id n a).good w₁ →
      (∀ v ∈ values, v.Within ((Guard.outset T w.stored id n a).bounds w₁)) →
      bindTag f (machine f k) values id tag w₁ = some ((), w₂) →
      Guard.Secured f (Guard.outset T w.stored id n a) P w₁ w₂)
    (hrun : renderContainer f (machine f k) source values slot nodes w = some (v, w')) :
    ∃ g', Guard.Secures f (Guard.outset T w.stored id n a) g' P ∧ g'.Holds f w' ∧ g'.good w' ∧
      v.Within (g'.bounds w') := by
  have hroot : root < w.page.size := hsource slot root hskeleton
  obtain ⟨g, hg⟩ : ∃ g, g = Guard.outset T w.stored id n a := ⟨_, rfl⟩
  obtain ⟨w₀, hw₀⟩ : ∃ w₀, w₀ = { w with page := (w.page.copy root).2 } := ⟨_, rfl⟩
  obtain ⟨hholds, hle⟩ : g.Holds f w₀ ∧ (Bounds.typed T w.page.size).Le (g.bounds w₀) := by
    rw [hg, hw₀]
    exact Guard.holds_outset hproper hroot hfurnished hplace n a
  have haround : g.Around f := by
    rw [hg]
    exact ⟨hpolicy, htracking, hregistry, Guard.lasting_kept f _ _⟩
  have hgood : g.good w₀ := by
    rw [hg, hw₀]
    change findAttribute (attributes _ id) n = a
    rw [attributes, element?_place hproper.forest hfurnished hplace]
    exact hstart
  have hid : id = g.node := by rw [hg]; rfl
  rw [← hg] at hstep ⊢
  rw [run_renderContainer w hskeleton, ← hw₀] at hrun
  obtain ⟨⟨⟨⟩, w₁⟩, hpoints, hrest⟩ := Option.bind_eq_some_iff.mp hrun
  obtain ⟨rfl, rfl⟩ : Value.ofList ((w₁.page.children (w.page.copy root).1).map Value.node) = v ∧
      w₁ = w' := by simpa using Option.some.inj hrest
  obtain ⟨front, back, hsplit, hapart⟩ := exists_split_places (f := f) hproper.forest hroot hplace
  have hothers : ∀ p ∈ front ++ back, (g.bounds w₀).site p.2 := by
    rw [hw₀]
    exact fun p hp => ⟨(hapart p hp).1, hid ▸ (hapart p hp).2⟩
  rw [hsplit, hid] at hpoints
  obtain ⟨g', hsecures, hholds', hgood', -⟩ := Guard.bindPoints_secures haround hholds hgood
    (fun v hv => (hvalues v hv).mono hle) (hle.source _ hsource) hothers
    (fun w₁ w₂ hw₁ hgood₁ hsize hrun₁ => hstep w₁ w₂ hw₁ hgood₁
      (fun v hv => ((hvalues v hv).mono hle).mono (g.bounds_mono hsize)) (hid ▸ hrun₁)) hpoints
  refine ⟨g', hsecures, hholds', hgood', Value.within_ofList fun v hv => ?_⟩
  obtain ⟨c, hc, rfl⟩ := List.mem_map.mp hv
  exact .node (lt_size_of_parent? (hholds'.forest.parent?_of_mem hc))

end

/-! ### What happens later -/

/-- The value is mounted somewhere, signals are written, and other code of the application runs. -/
inductive Afterwards (f : Factory) (T : Types) (v : Value) (w : World) : World → Prop where
  | refl : Afterwards f T v w w
  | mount {w₁ w₂ : World} {k parent : Nat} (h : Afterwards f T v w w₁)
      (hparent : parent < w₁.page.size)
      (hrun : Render.mount f (machine f k) parent v w₁ = some ((), w₂)) : Afterwards f T v w w₂
  | write {w₁ w₂ : World} {k : Nat} {name : String} {code : Script} (h : Afterwards f T v w w₁)
      (htyped : T name code) (hcode : code.Keeps T)
      (hrun : writeSignal (machine f k) name code w₁ = some ((), w₂)) : Afterwards f T v w w₂
  | build {w₁ w₂ : World} {k : Nat} {code : Script} {u : Value} (h : Afterwards f T v w w₁)
      (hcode : code.Keeps T) (hrun : (machine f k).build none code w₁ = some (u, w₂)) :
      Afterwards f T v w w₂

theorem Afterwards.writeAll {v : Value} {w w₁ w₂ : World} {k : Nat}
    {writes : List (String × Script)} (h : Afterwards f T v w w₁)
    (hwrites : ∀ p ∈ writes, T p.1 p.2 ∧ p.2.Keeps T)
    (hrun : Render.writeAll (machine f k) writes w₁ = some ((), w₂)) : Afterwards f T v w w₂ := by
  induction writes generalizing w₁ with
  | nil =>
    obtain ⟨-, rfl⟩ : () = () ∧ w₁ = w₂ := by simpa using Option.some.inj hrun
    exact h
  | cons p rest ih =>
    obtain ⟨⟨htyped, hcode⟩, hrest⟩ := List.forall_mem_cons.mp hwrites
    obtain ⟨⟨⟨⟩, w'⟩, hfirst, hrun'⟩ := Option.bind_eq_some_iff.mp hrun
    exact ih (.write h htyped hcode hfirst) hrest hrun'

/-- What is good stays good, whatever happens later. -/
theorem Afterwards.good {g : Guard} {v : Value} {w w' : World} (h : Afterwards f g.types v w w')
    (haround : g.Around f) (hholds : g.Holds f w) (hgood : g.good w) (hv : v.Within (g.bounds w)) :
    g.Holds f w' ∧ g.good w' ∧ v.Within (g.bounds w') := by
  -- one more thing done to a world in which all is good
  have hone {α : Type} {act act' : Run α} {Q : α → (g.regime f).State → Prop} {a : α}
      {w₁ w₂ : World}
      (h₁ : g.Holds f w₁ ∧ g.good w₁ ∧ v.Within (g.bounds w₁))
      (hdoes : (g.regime f).Does () ⟨w₁, h₁.1⟩ act act' Q) (hrun : act w₁ = some (a, w₂)) :
      g.Holds f w₂ ∧ g.good w₂ ∧ v.Within (g.bounds w₂) := by
    obtain ⟨s₂, rfl, hnext, -⟩ := hdoes.exists_next hrun
    exact ⟨s₂.2, hnext.2 h₁.2.1, h₁.2.2.mono (g.bounds_mono hnext.1)⟩
  induction h with
  | refl => exact ⟨hholds, hgood, hv⟩
  | @mount w₁ w₂ k parent _ hparent hrun ih =>
    exact hone ih (Regime.mount_does haround.lawful (haround.serves k) hparent ih.2.2) hrun
  | @write w₁ w₂ k name code _ htyped hcode hrun ih =>
    exact hone ih
      (Guard.write_does haround.lasting haround.lawful (haround.executes k) htyped hcode) hrun
  | @build w₁ w₂ k code u _ hcode hrun ih =>
    exact hone ih ((haround.serves k).build () _ none code (fun ps hps => by cases hps) hcode) hrun

end Stencil.Render
