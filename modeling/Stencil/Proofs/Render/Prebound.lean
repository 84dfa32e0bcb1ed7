/-
  Stencil/Proofs/Render/Prebound.lean
  ===================================
  **Applying attributes to the skeleton is as good as applying them to each copy.**

  Attributes without holes are applied once, to the element in the skeleton, and the others
  to each copy of it.  So the element gets them out of order.  Without readers, what is
  applied to a copy is a plain sequence (`bindTag_eq_giveTo`), nothing else that happens
  while its container is rendered gets at it (`Stencil.Render.Spared`), and rules that keep
  to one aspect of the element do not notice the order (`Setup.agree_prebound`).
-/
import Stencil.Proofs.Render.Precedence
import Stencil.Proofs.Render.Spared

namespace Stencil

/-- No reader, and no spread with a reader among its entries. -/
def Value.IsSteady : Value → Prop
  | .reactive _ => False
  | .spread entries => ∀ e ∈ entries, e.2.toValue.isReactive = false
  | _ => True

theorem Value.IsSteady.isReactive_eq {v : Value} (h : v.IsSteady) : v.isReactive = false := by
  cases v with
  | reactive r => exact h.elim
  | _ => rfl

namespace Render

open Document Markup Setup

variable {f : Factory} {c : Calls} {node : NodeId} {values : List Value}

/-- Values applied under names to an element, in order. -/
def giveTo (f : Factory) (c : Calls) (node : NodeId) : List (String × Value) → Run Unit
  | [] => pure ()
  | (name, v) :: rest => do
    applySetter f c node (f.policy.resolve name).1.setter (f.policy.resolve name).2 v
    giveTo f c node rest

theorem giveTo_append (ps qs : List (String × Value)) :
    giveTo f c node (ps ++ qs) = giveTo f c node ps >>= fun _ => giveTo f c node qs := by
  induction ps with
  | nil => simp [giveTo]
  | cons p ps ih =>
    obtain ⟨name, v⟩ := p
    rw [List.cons_append, giveTo, giveTo, ih, bind_assoc]

/-! ### Binding what is no reader -/

theorem steady_valueAt (h : ∀ v ∈ values, v.IsSteady) (i : Nat) : (valueAt values i).IsSteady := by
  rw [valueAt, List.getD_eq_getElem?_getD]
  rcases hi : values[i]? with _ | v
  · exact trivial
  · exact h v (List.mem_of_getElem? hi)

theorem steady_joinedValue (h : ∀ v ∈ values, v.IsSteady) (parts : List AttrPart) :
    (joinedValue values parts).IsSteady := by
  have hpieces : (parts.map (partValue values)).any Value.isReactive = false := by
    rw [List.any_eq_false]
    intro v hv
    obtain ⟨part, -, rfl⟩ := List.mem_map.mp hv
    cases part with
    | text s => simp [partValue, Value.isReactive]
    | hole i => simpa [partValue] using (steady_valueAt h i).isReactive_eq
  rw [joinedValue]
  simp only [hpieces]
  exact trivial

theorem bindValue_steady (name : String) {v : Value} (h : v.isReactive = false) :
    bindValue f c node name v = giveTo f c node [(name, v)] := by
  rw [bindValue, giveTo, giveTo, bind_pure_unit]
  cases v <;> first
    | rfl
    | cases h

theorem bindEntries_steady (shadowed : List String) {entries : Props}
    (h : ∀ e ∈ entries, e.2.toValue.isReactive = false) :
    bindEntries f c node shadowed entries = giveTo f c node
      ((entries.filter fun e => !isShadowed shadowed e.1).map fun e => (e.1, e.2.toValue)) := by
  induction entries with
  | nil => rfl
  | cons e entries ih =>
    obtain ⟨name, entry⟩ := e
    obtain ⟨hentry, hrest⟩ := List.forall_mem_cons.mp h
    rw [bindEntries, ih hrest]
    by_cases hshadowed : isShadowed shadowed name = true
    · rw [List.filter_cons_of_neg (by simp [hshadowed]), if_pos hshadowed]
    · rw [List.filter_cons_of_pos (by simpa using hshadowed), List.map_cons,
        ← List.singleton_append, giveTo_append, if_neg hshadowed, bindValue_steady name hentry]

theorem bindAttr_steady (h : ∀ v ∈ values, v.IsSteady) (later : List String) (a : Attr) :
    bindAttr f c values node later a = giveTo f c node (a.gives values later) := by
  cases a with
  | flag name => exact bindValue_steady name (v := .bool true) rfl
  | fixed name value quote => exact bindValue_steady name (v := .text value) rfl
  | dynamic name i quote => exact bindValue_steady name (steady_valueAt h i).isReactive_eq
  | mixed name parts quote => exact bindValue_steady name (steady_joinedValue h parts).isReactive_eq
  | spread i =>
    have hsteady := steady_valueAt h i
    rw [bindAttr, Attr.gives]
    revert hsteady
    generalize valueAt values i = v
    intro hsteady
    cases v with
    | reactive r => exact hsteady.elim
    | spread entries => exact bindEntries_steady later hsteady
    | _ => rfl

/-- To a copy is applied what is not prebound, in order. -/
theorem bindTag_eq_giveTo (h : ∀ v ∈ values, v.IsSteady) (t : Tag) :
    bindTag f c values node t = giveTo f c node (f.givenLater values t) := by
  rw [bindTag, givenLater]
  induction markPrebound f.policy false t.attrs with
  | nil => rfl
  | cons r as ih =>
    obtain ⟨a, prebound⟩ := r
    rw [bindAttrs, ih, gives, List.filter_append, List.map_append, giveTo_append]
    cases prebound with
    | true =>
      have hnone :
          ((a.gives values (as.filterMap fun r => r.1.name?)).map (·, true)).filter (!·.2) =
          [] := by
        simp [List.filter_eq_nil_iff]
      rw [hnone]
      rfl
    | false =>
      have hall :
          ((a.gives values (as.filterMap fun r => r.1.name?)).map (·, false)).filter (!·.2) =
          (a.gives values (as.filterMap fun r => r.1.name?)).map (·, false) := by
        simp [List.filter_eq_self]
      rw [hall, List.map_map, if_neg (by simp), bindAttr_steady h]
      simp [Function.comp_def]

theorem within_attrGives {b : Bounds} (h : ∀ v ∈ values, v.Within b) (later : List String)
    (a : Attr) :
    ∀ p ∈ a.gives values later, p.2.Within b := by
  cases a with
  | flag name => exact List.forall_mem_singleton.mpr (.bool true)
  | fixed name value quote => exact List.forall_mem_singleton.mpr (.text value)
  | dynamic name i quote => exact List.forall_mem_singleton.mpr (within_valueAt h i)
  | mixed name parts quote => exact List.forall_mem_singleton.mpr (within_joinedValue h parts)
  | spread i =>
    have hv := within_valueAt h i
    rw [Attr.gives]
    revert hv
    generalize valueAt values i = v
    intro hv
    cases hv with
    | spread hentries =>
      intro p hp
      obtain ⟨e, he, rfl⟩ := List.mem_map.mp hp
      exact (hentries e (List.mem_of_mem_filter he)).toValue
    | _ => exact fun p hp => absurd hp List.not_mem_nil

theorem within_givenLater {b : Bounds} (h : ∀ v ∈ values, v.Within b) {t : Tag} :
    ∀ p ∈ f.givenLater values t, p.2.Within b := by
  intro p hp
  obtain ⟨x, hx, rfl⟩ := List.mem_map.mp hp
  obtain ⟨a, -, -, later, hgives⟩ := mem_gives (List.mem_of_mem_filter hx)
  exact within_attrGives h later a.1 _ hgives

/-! ### What happens to the copy -/

/-- An element that nothing is bound to gets what it is given, in order, and nothing else. -/
theorem giveTo_spared {id : NodeId} {w w' : World} {n : Nat} {e : ElementState}
    {ps : List (String × Value)} (hw : w.Spares id) (he : w.page.element? id = some e)
    (hps : ∀ p ∈ ps, p.2.Within (Bounds.sparing id w.page.size))
    (hrun : giveTo f (machine f n) id ps w = some ((), w')) :
    w'.Spares id ∧ w.page.size ≤ w'.page.size ∧ w'.page.element? id = some (f.giveAll ps e) := by
  induction ps generalizing w e with
  | nil =>
    obtain ⟨-, rfl⟩ : () = () ∧ w = w' := by simpa using Option.some.inj hrun
    exact ⟨hw, Nat.le_refl _, he⟩
  | cons p ps ih =>
    obtain ⟨name, v⟩ := p
    obtain ⟨hv, hrest⟩ := List.forall_mem_cons.mp hps
    obtain ⟨⟨⟨⟩, w₁⟩, happly, hrun'⟩ := Option.bind_eq_some_iff.mp hrun
    -- the element is written to
    obtain ⟨⟨⟩, w₀, hwrite, hcall⟩ := run_of_bind happly
    obtain ⟨-, rfl⟩ := by simpa using (run_changePage _ w).symm.trans hwrite
    have helement := element?_updateElement he
      ((f.policy.resolve name).1.setter.write f.config (f.policy.resolve name).2 v)
    have hsize (op : ElementState → ElementState) :
        w.page.size ≤ (w.page.updateElement id op).size :=
      Nat.le_of_eq (size_updateElement _ _ _).symm
    have hw₀ := hw.onPage (hw.forest.updateElement id _) (hsize _) ⟨_, helement⟩ fun i e he =>
      (hw.apt i e he).mono (Bounds.sparing_mono id (hsize _))
    -- and then the value may be called with it
    have hcalled : ∃ s, (sparedRegime id).world s = w₁ ∧ (sparedRegime id).Next () ⟨_, hw₀⟩ s := by
      rcases hcallback : (f.policy.resolve name).1.setter.callback? v with _ | callback
      · simp only [hcallback] at hcall
        exact ⟨⟨_, hw₀⟩, (Prod.mk.inj (Option.some.inj hcall)).2, (Spared.lawful f id).refl () _⟩
      · simp only [hcallback] at hcall
        have hid : ((sparedRegime id).bounds () ⟨_, hw₀⟩).node id := hw₀.lt_size
        have hwithin (fn : Func) (hfn : callback = .func fn) :
            fn.Within ((sparedRegime id).bounds () ⟨_, hw₀⟩) :=
          Regime.within_callback? (hv.mono (Bounds.sparing_mono id (hsize _)))
            (hfn ▸ hcallback)
        have hdoes := Regime.callBack_does (Spared.lawful f id) (Spared.serves f id n) hid hwithin
        obtain ⟨s, hworld, hnext, -⟩ := hdoes.exists_next hcall
        exact ⟨s, hworld, hnext⟩
    obtain ⟨s, rfl, hgrown, hsame⟩ := hcalled
    have hle : w.page.size ≤ s.1.page.size := Nat.le_trans (hsize _) hgrown
    obtain ⟨hw', hgrown', he'⟩ := ih s.2 (hsame.trans helement)
      (fun p hp => (hrest p hp).mono (Bounds.sparing_mono id hle)) hrun'
    exact ⟨hw', Nat.le_trans hle hgrown', he'⟩

section

variable {T : Types} {w w' : World} {root : Nat} {id : NodeId} {tag : Tag} {nodes : List Node}

/-- In a proper world, with a skeleton just copied, an element of the copy is spared. -/
theorem World.Proper.spares (hproper : w.Proper T) (hroot : root < w.page.size)
    (hfurnished : Furnished f.toSetup 0 w.page (some root) nodes)
    (hplace : (.element tag, id) ∈ places f w.page root nodes) :
    World.Spares id { w with page := (w.page.copy root).2 } ∧
      (Bounds.typed T w.page.size).Le (Bounds.sparing id (w.page.copy root).2.size) := by
  apply hproper.holds_copied (W := spared id) hroot hfurnished hplace (fun _ _ => trivial)
    fun _ _ _ _ => trivial
  intro hle i e he
  exact Binding.Within.mono hle (hproper.effects i e he)

/-- Points other than the element leave it as it is. -/
theorem bindPoints_spared {n : Nat} {source : Compiled} {ps : List (Point × NodeId)}
    (hw : w.Spares id) (hvalues : ∀ v ∈ values, v.Within (Bounds.sparing id w.page.size))
    (hsource : (Bounds.sparing id w.page.size).source source)
    (hothers : ∀ p ∈ ps, (Bounds.sparing id w.page.size).site p.2)
    (hrun : bindPoints f (machine f n) source values ps w = some ((), w')) :
    w'.Spares id ∧ w.page.size ≤ w'.page.size ∧ w'.page.element? id = w.page.element? id := by
  have hdoes : (sparedRegime id).Does () ⟨w, hw⟩ (bindPoints f (machine f n) source values ps)
      (bindPoints f (machine f (n + 1)) source values ps) fun _ _ => True := by
    refine Regime.bindPoints_does (Spared.lawful f id) (Spared.serves f id n) hsource hvalues
      (fun p hp => ⟨(hothers p hp).1, hothers p hp⟩) fun p _ => ?_
    cases p.1 with
    | component tag children => exact ⟨trivial, fun _ _ => trivial⟩
    | _ => trivial
  obtain ⟨s, rfl, hnext, -⟩ := hdoes.exists_next hrun
  exact ⟨s.2, hnext⟩

/-- When its container is rendered, the copy of an element gets what is not prebound, and
    nothing else. -/
theorem renderContainer_giveTo {k slot : Nat} {source : Compiled} {v : Value} (hproper : w.Proper T)
    (hvalues : ∀ v ∈ values, v.Within (Bounds.typed T w.page.size))
    (hsteady : ∀ v ∈ values, v.IsSteady) (hsource : (Bounds.typed T w.page.size).source source)
    (hskeleton : source.skeleton? slot = some root)
    (hfurnished : Furnished f.toSetup 0 w.page (some root) nodes)
    (hplace : (.element tag, id) ∈ places f w.page root nodes)
    (hrun : renderContainer f (machine f k) source values slot nodes w = some (v, w')) :
    w'.page.element? id =
      some (f.giveAll (f.givenLater values tag) (Sprouts.copied f.elementOf tag)) := by
  have hroot : root < w.page.size := hsource slot root hskeleton
  obtain ⟨w₀, hw₀⟩ : ∃ w₀, w₀ = { w with page := (w.page.copy root).2 } := ⟨_, rfl⟩
  obtain ⟨hspares, hle⟩ : w₀.Spares id ∧
      (Bounds.typed T w.page.size).Le (Bounds.sparing id w₀.page.size) := by
    rw [hw₀]
    exact hproper.spares hroot hfurnished hplace
  have helement : w₀.page.element? id = some (Sprouts.copied f.elementOf tag) := by
    rw [hw₀]
    exact element?_place hproper.forest hfurnished hplace
  rw [run_renderContainer w hskeleton, ← hw₀] at hrun
  obtain ⟨⟨⟩, w₁, hpoints, hrest⟩ := run_of_bind hrun
  obtain ⟨-, rfl⟩ : Value.ofList ((w₁.page.children (w.page.copy root).1).map Value.node) = v ∧
      w₁ = w' := by simpa using Option.some.inj hrest
  obtain ⟨front, back, hsplit, hapart⟩ := exists_split_places (f := f) hproper.forest hroot hplace
  have hothers : ∀ p ∈ front ++ back, (Bounds.sparing id w₀.page.size).site p.2 := by
    rw [hw₀]
    exact hapart
  obtain ⟨hfront, hback⟩ := List.forall_mem_append.mp hothers
  -- the points before the element, the element itself, and the points behind it
  rw [hsplit, bindPoints_append_eq] at hpoints
  obtain ⟨⟨⟩, w₂, hbefore, hpoints⟩ := run_of_bind hpoints
  obtain ⟨⟨⟩, w₃, htag, hbehind⟩ := run_of_bind hpoints
  obtain ⟨hspares₂, hsize₂, hsame₂⟩ :=
    bindPoints_spared hspares (fun v hv => (hvalues v hv).mono hle)
    (hle.source _ hsource) hfront hbefore
  have hle₂ := Bounds.sparing_mono id hsize₂
  have hgiven : ∀ p ∈ f.givenLater values tag, p.2.Within (Bounds.sparing id w₂.page.size) :=
    fun p hp => ((within_givenLater hvalues p hp).mono hle).mono hle₂
  have htag' : giveTo f (machine f k) id (f.givenLater values tag) w₂ = some ((), w₃) := by
    rw [← bindTag_eq_giveTo hsteady]
    exact htag
  obtain ⟨hspares₃, hsize₃, he₃⟩ := giveTo_spared hspares₂ (hsame₂.trans helement) hgiven htag'
  have hle₃ := Bounds.sparing_mono id hsize₃
  obtain ⟨-, -, hsame₁⟩ := bindPoints_spared hspares₃
    (fun v hv => (((hvalues v hv).mono hle).mono hle₂).mono hle₃)
    (hle₃.source _ (hle₂.source _ (hle.source _ hsource)))
    (fun p hp => hle₃.site _ (hle₂.site _ (hback p hp))) hbehind
  exact hsame₁.trans he₃

/-- Under rules of the application that keep to one aspect each, and then the usual ones, the
    first rule counts that a name passes.  All that a tag gives is applied once, to the element in
    the skeleton or to each copy of it.  If no attribute that is applied to each copy stands before
    a prebound one that affects the same attribute, then the rendered element is what a fresh
    element is with everything applied in the order of the source. -/
theorem renderContainer_prebound {k slot : Nat} {source : Compiled} {v : Value}
    (rules : List TidyRule) (hpolicy : f.policy = .withRules (rules.map (·.rule)) .usual)
    (hproper : w.Proper T) (hvalues : ∀ v ∈ values, v.Within (Bounds.typed T w.page.size))
    (hsteady : ∀ v ∈ values, v.IsSteady)
    (hsource : (Bounds.typed T w.page.size).source source)
    (hskeleton : source.skeleton? slot = some root)
    (hfurnished : Furnished f.toSetup 0 w.page (some root) nodes)
    (hplace : (.element tag, id) ∈ places f w.page root nodes)
    (horder : Sequenced (TidyRule.aspectOf · (rules ++ TidyRule.usual))
      (markPrebound f.policy false tag.attrs))
    (hrun : renderContainer f (machine f k) source values slot nodes w = some (v, w')) :
    (∀ name, Policy.Chooses (rules.map (·.rule) ++ Policy.usual.rules ++ [Policy.fallback]) name
      (f.policy.resolve name).1 (f.policy.resolve name).2) ∧
    (f.givenFirst values tag ++ f.givenLater values tag).Perm (f.given values tag) ∧
    f.elementOf tag = f.giveAll (f.givenFirst values tag) (Setup.fresh tag) ∧
    bindTag f (machine f k) values id tag = giveTo f (machine f k) id (f.givenLater values tag) ∧
    ∃ e e', w'.page.element? id = some e ∧ e' = f.giveAll (f.given values tag) (Setup.fresh tag) ∧
      e.name = e'.name ∧ e.space = e'.space ∧
      (∀ n, findAttribute e.attributes n = findAttribute e'.attributes n) ∧
      e.properties = e'.properties ∧ e.listeners = e'.listeners := by
  have hrules : f.policy = ⟨(rules ++ TidyRule.usual).map (·.rule)⟩ := by
    rw [hpolicy, Policy.withRules, List.map_append, TidyRule.map_rule_usual]
  have hcovers (p : String × Value) :
      (TidyRule.aspectOf p.1 (rules ++ TidyRule.usual)).Covers (f.give p) := by
    have hp := TidyRule.covers_aspectOf (rules ++ TidyRule.usual) f.config p.1 p.2
    rwa [← hrules] at hp
  have hcloneable (name : String) (h : (f.policy.resolve name).1.cloneable = true) :
      ∃ n, TidyRule.aspectOf name (rules ++ TidyRule.usual) = .attr n := by
    rw [hrules] at h
    exact TidyRule.aspectOf_of_cloneable _ name h
  refine ⟨?_, perm_given f.toSetup values tag, elementOf_eq_giveAll f.toSetup values tag,
    bindTag_eq_giveTo hsteady tag, _, _,
    renderContainer_giveTo hproper hvalues hsteady hsource hskeleton hfurnished hplace hrun,
    rfl, ?_⟩
  · rw [hpolicy]
    exact Policy.chooses_withRules _ _
  · have hagree := agree_prebound hcovers hcloneable horder values
    have hkeeps (ps : List (String × Value)) (e : ElementState) :
        (f.giveAll ps e).name = e.name ∧ (f.giveAll ps e).space = e.space :=
      giveAll_keeps (TidyRule.aspectOf · (rules ++ TidyRule.usual)) hcovers ps e
    obtain ⟨hname, hspace⟩ := hkeeps (f.givenLater values tag) (Sprouts.copied f.elementOf tag)
    obtain ⟨hname', hspace'⟩ := hkeeps (f.givenFirst values tag) (Setup.fresh tag)
    obtain ⟨hname'', hspace''⟩ := hkeeps (f.given values tag) (Setup.fresh tag)
    rw [← elementOf_eq_giveAll] at hname' hspace'
    exact ⟨(hname.trans hname').trans hname''.symm, (hspace.trans hspace').trans hspace''.symm,
      fun n => hagree (.attr n), hagree .properties, hagree .listeners⟩

end

/-! ### A paragraph with a rule of its own -/

/-- Names that begin with `up:` set an attribute in upper case. -/
def upperRule : TidyRule where
  rule := ⟨.starts "up:", .upperCase, true, true⟩
  aspect := .attr
  covers _ name v := ⟨_, local_set none name (Text.upper v.toText), fun _ => rfl⟩
  cloneable _ name := ⟨name, rfl⟩

def dressFactory : Factory := { tallyFactory with policy := .withRules [upperRule.rule] .usual }

def dressLiteral : Literal :=
  ⟨"dress", ["<p up:lang=en class:wide class:tall=", " @click=", " .value=", " ...",
    " title=front></p>"]⟩

def dressTag : Tag :=
  ⟨"p", [.fixed "up:lang" "en" none, .flag "class:wide", .dynamic "class:tall" 0 none,
    .dynamic "@click" 1 none, .dynamic ".value" 2 none, .spread 3, .fixed "title" "front" none],
    false, none⟩

def dressValues : List Value :=
  [.bool true, .handler ⟨"press", none⟩, .text "three",
    .spread [("title", .immediate (.text "back")), ("style:color", .immediate (.text "red"))]]

theorem trial_dress :
    trial dressFactory 3 dressLiteral [] dressValues [] (fun w => w.page.attributes 3) =
    some (⟨[.element dressTag []], 1⟩, [3], [⟨"lang", "EN", none⟩, ⟨"class", "wide tall", none⟩,
      ⟨"style", "color: red", none⟩, ⟨"title", "front", none⟩]) := by
  decide +kernel

theorem sequenced_dress : Sequenced (TidyRule.aspectOf · ([upperRule] ++ TidyRule.usual))
    (markPrebound dressFactory.policy false dressTag.attrs) := by
  rw [Sequenced]
  decide +kernel

/-- The language and one of the classes are prebound, the rest is bound to the copy. -/
theorem renderContainer_prebound_dress :
    ∃ source w₀ v w₁, compile dressFactory dressLiteral (.initial []) = some (.ok source, w₀) ∧
      renderContainer dressFactory (machine dressFactory 3) source dressValues rootSlot
        source.tree.children w₀ = some (v, w₁) ∧
      w₁.page.attributes 3 = [⟨"lang", "EN", none⟩, ⟨"class", "wide tall", none⟩,
        ⟨"style", "color: red", none⟩, ⟨"title", "front", none⟩] ∧
      ∃ e, w₁.page.element? 3 = some e ∧ ∀ n, findAttribute e.attributes n =
        findAttribute (dressFactory.giveAll (dressFactory.given dressValues dressTag)
          (Setup.fresh dressTag)).attributes n := by
  have hinitial : (World.initial []).Proper textual := proper_textual (by simp)
  obtain ⟨source, w₀, root, v, w₁, w₂, hcompile, hskeleton, hrender, hwrites, hattributes, hproper,
    hsource, hfurnished, hplace, -⟩ :=
    exists_trial hinitial (by decide +kernel) trial_dress
  obtain rfl : w₁ = w₂ := by simpa [writeAll] using Option.some.inj hwrites
  refine ⟨source, w₀, v, w₁, hcompile, hrender, hattributes, ?_⟩
  have hwithin : ∀ v ∈ dressValues, v.Within (Bounds.typed textual w₀.page.size) :=
    List.forall_mem_cons.mpr ⟨.bool true, List.forall_mem_cons.mpr
      ⟨.handler (fun _ h => by cases h), List.forall_mem_cons.mpr
        ⟨.text "three", List.forall_mem_singleton.mpr (.spread (List.forall_mem_cons.mpr
          ⟨.immediate (.text "back"), List.forall_mem_singleton.mpr
            (.immediate (.text "red"))⟩))⟩⟩⟩
  have hsteady : ∀ v ∈ dressValues, v.IsSteady :=
    List.forall_mem_cons.mpr ⟨trivial, List.forall_mem_cons.mpr ⟨trivial,
      List.forall_mem_cons.mpr ⟨trivial, List.forall_mem_singleton.mpr
        (List.forall_mem_cons.mpr ⟨rfl, List.forall_mem_singleton.mpr rfl⟩)⟩⟩⟩
  obtain ⟨-, -, -, -, e, e', he, rfl, -, -, hsame, -, -⟩ := renderContainer_prebound [upperRule] rfl
    hproper hwithin hsteady hsource hskeleton hfurnished hplace sequenced_dress hrender
  exact ⟨e, he, hsame⟩

end Render
end Stencil
