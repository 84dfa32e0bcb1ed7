/-
  Stencil/Proofs/Render/Precedence.lean
  =====================================
  **What is written behind a spread is not touched by it.**

  An attribute with the name of a plain attribute, behind every spread of its element,
  always holds what its own value comes to (`renderContainer_explicit_last`).  Whatever the
  spreads bring, whether their entries are values or readers and whether a spread is a
  reader itself, they leave out the name, and so do all runs of their effects later on.

  The attribute may be in the skeleton already, if it has no hole and no spread stands
  before it; then nothing is ever bound to it.
-/
import Stencil.Proofs.Render.Around

namespace Stencil.Render

open Document Markup Setup

variable {f : Factory} {n : String}

/-! ### Attributes in the skeleton -/

/-- Attributes that go elsewhere leave an attribute alone. -/
theorem applyAttrs_spares (hpolicy : f.policy = .usual) {value : Attr → Value} {as : List Attr}
    (h : ∀ a ∈ as, targetOf f a ≠ some n) (e : ElementState) :
    findAttribute (f.applyAttrs value as e).attributes n = findAttribute e.attributes n := by
  induction as generalizing e with
  | nil => rfl
  | cons a as ih =>
    obtain ⟨ha, hrest⟩ := List.forall_mem_cons.mp h
    have hstep : f.applyAttrs value (a :: as) e = f.applyAttrs value as (f.applyAttr value a e) :=
      rfl
    rw [hstep, ih hrest, applyAttr]
    rcases hname : a.name? with _ | name
    · rfl
    · rw [targetOf, hname] at ha
      have hbuiltin : (f.policy.resolve name).1.setter.isBuiltIn = true := by
        rw [hpolicy]
        exact Setter.isBuiltIn_usual name
      exact Write.apply_other (w := ⟨_, _, value a⟩) hbuiltin ha

/-- A plain attribute without holes, before every spread, is in the skeleton. -/
theorem findAttribute_elementOf (hpolicy : f.policy = .usual)
    (hplain : f.policy.resolve n = (Policy.fallback, n)) {tag : Tag} {a : Attr}
    {pre post : List Attr} (hattrs : tag.attrs = pre ++ a :: post) (hname : a.name? = some n)
    (hothers : ∀ b ∈ pre ++ post, targetOf f b ≠ some n)
    (hprebound : a.isPrebound f.policy (pre.any Attr.isSpread) = true)
    (hvalue : Setter.content a.fixedValue ≠ .unusable) :
    findAttribute (f.elementOf tag).attributes n = (writeOf f n a.fixedValue).entry f.config n := by
  obtain ⟨hpre, hpost⟩ := List.forall_mem_append.mp hothers
  have hpart (afterSpread : Bool) (as : List Attr) (h : ∀ b ∈ as, targetOf f b ≠ some n) :
      ∀ b ∈ ((markPrebound f.policy afterSpread as).filter (·.2)).map (·.1),
        targetOf f b ≠ some n := by
    intro b hb
    refine h b ?_
    have hsub :=
      (List.filter_sublist (p := (·.2)) (l := markPrebound f.policy afterSpread as)).map (·.1)
    rw [map_markPrebound] at hsub
    exact hsub.subset hb
  have hall : f.preboundAttrs tag =
      ((markPrebound f.policy false pre).filter (·.2)).map (·.1) ++ a ::
        ((markPrebound f.policy (pre.any Attr.isSpread || a.isSpread) post).filter (·.2)).map
          (·.1) := by
    rw [preboundAttrs, hattrs, markPrebound_append, Bool.false_or, markPrebound, hprebound,
      List.filter_append, List.filter_cons_of_pos rfl, List.map_append, List.map_cons]
  have hone (e : ElementState) : f.applyAttr Attr.fixedValue a e =
      Setter.plain.write f.config n a.fixedValue e := by
    rw [applyAttr, hname]
    simp only [hplain]
    rfl
  have hwrite : writeOf f n a.fixedValue = ⟨.plain, n, a.fixedValue⟩ := by rw [writeOf, hplain]; rfl
  rw [elementOf_eq, hall, applyAttrs, List.foldl_append, List.foldl_cons, hone, ← applyAttrs,
    ← applyAttrs, applyAttrs_spares hpolicy (hpart _ post hpost), hwrite]
  exact Write.apply_whole (w := ⟨.plain, n, a.fixedValue⟩) rfl rfl hvalue

/-! ### Behind every spread -/

section

variable {T : Types} {w w₁ w₂ : World} {source : Compiled} {values : List Value}
  {slot root k d : Nat}
  {nodes : List Node} {tag : Tag} {id : NodeId} {a : Attr} {pre post : List Attr} {v : Value}

/-- The attributes before one that stands behind every spread go elsewhere or leave out its name. -/
theorem attrSpares_before {stored : List (String × Value)} (hname : a.name? = some n)
    (hothers : ∀ b ∈ pre, targetOf f b ≠ some n)
    (hspreads : ∀ i, Attr.spread i ∈ pre → SparesValue f T stored n [n] (valueAt values i))
    {afterSpread prebound : Bool} {rest front back : List (Attr × Bool)} {b : Attr}
    (h : markPrebound f.policy afterSpread pre = front ++ (b, false) :: back) :
    AttrSpares f T stored n values
      ((back ++ (a, prebound) :: rest).filterMap fun r => r.1.name?) b := by
  have hmem : b ∈ pre := by
    rw [← map_markPrebound f.policy afterSpread pre, h]
    simp
  refine ⟨hothers b hmem, fun i hi => (hspreads i (hi ▸ hmem)).mono fun x hx => ?_⟩
  obtain rfl := List.mem_singleton.mp hx
  exact List.mem_filterMap.mpr ⟨(a, prebound), by simp, hname⟩

/-- The attributes behind it go elsewhere and are no spreads. -/
theorem attrSpares_behind {stored : List (String × Value)}
    (hothers : ∀ b ∈ post, targetOf f b ≠ some n) (hlast : ∀ i, Attr.spread i ∉ post)
    {afterSpread : Bool} {front back : List (Attr × Bool)} {b : Attr}
    (h : markPrebound f.policy afterSpread post = front ++ (b, false) :: back)
    (later : List String) :
    AttrSpares f T stored n values later b := by
  have hmem : b ∈ post := by
    rw [← map_markPrebound f.policy afterSpread post, h]
    simp
  refine ⟨hothers b hmem, fun i hi => ?_⟩
  exact absurd (hi ▸ hmem) (hlast i)

/-- A prebound attribute has no hole, and no spread stands before it. -/
theorem of_isPrebound (values : List Value) {p : Policy} {afterSpread : Bool}
    (h : a.isPrebound p afterSpread = true) :
    attrValue values a = a.fixedValue ∧ a.fixedValue.isReactive = false ∧ afterSpread = false := by
  cases a with
  | flag name => simp_all [Attr.isPrebound, attrValue, Attr.fixedValue, Attr.name?, Attr.isFixed,
      Value.isReactive]
  | fixed name value quote => simp_all [Attr.isPrebound, attrValue, Attr.fixedValue, Attr.name?,
      Attr.isFixed, Value.isReactive]
  | _ => simp [Attr.isPrebound, Attr.name?, Attr.isFixed] at h

/-- An attribute that is bound to the copy: when all attributes of its element are bound, it holds
    for good what its value comes to. -/
theorem bindTag_bound {g : Guard} (haround : g.Around f) (hholds : g.Holds f w) (hgood : g.good w)
    (howner : g.owner = none) (hvalues : ∀ v ∈ values, v.Within (g.bounds w))
    (hattrs : tag.attrs = pre ++ a :: post) (hname : a.name? = some g.name)
    (hplain : f.policy.resolve g.name = (Policy.fallback, g.name))
    (hothers : ∀ b ∈ pre ++ post, targetOf f b ≠ some g.name) (hlast : ∀ i, Attr.spread i ∉ post)
    (hspreads : ∀ i, Attr.spread i ∈ pre →
      SparesValue f g.types g.stored g.name [g.name] (valueAt values i))
    (hstill : (attrValue values a).isReactive = false →
      Setter.content (attrValue values a) ≠ .unusable)
    (hscalar : ∀ σ, (∀ x, g.types x (σ x)) → ∃ u, currently σ d (attrValue values a) = some u)
    (hbound : a.isPrebound f.policy (pre.any Attr.isSpread) = false)
    (hrun : bindTag f (machine f k) values g.node tag w = some ((), w₁)) :
    Guard.Secured f g (g.Shows f d (attrValue values a)) w w₁ := by
  obtain ⟨hpre, hpost⟩ := List.forall_mem_append.mp hothers
  rw [bindTag, hattrs, markPrebound_append, Bool.false_or, markPrebound, hbound] at hrun
  refine Guard.bindAttrs_secures haround hholds hgood hvalues
    (fun front b back h => attrSpares_before hname hpre hspreads h)
    (fun front b back h => attrSpares_behind hpost hlast h _) (fun w₂ w₃ hholds₂ _ hone => ?_) hrun
  rw [bindAttr_eq (machine f k) values _ _ hname] at hone
  refine Guard.bindValue_secures haround.tracking hplain hholds₂ howner hstill
    (fun r hr σ hσ => ?_) hone
  obtain ⟨u, hu⟩ := hscalar σ hσ
  rw [hr] at hu
  obtain ⟨x, hx, -⟩ := Option.bind_eq_some_iff.mp hu
  exact ⟨x, hx⟩

/-- An attribute that is in the skeleton: when all attributes of its element are bound, it is what
    it was. -/
theorem bindTag_prebound {g : Guard} (haround : g.Around f) (hholds : g.Holds f w)
    (hgood : g.good w) (hvalues : ∀ v ∈ values, v.Within (g.bounds w))
    (hattrs : tag.attrs = pre ++ a :: post)
    (hothers : ∀ b ∈ pre ++ post, targetOf f b ≠ some g.name) (hlast : ∀ i, Attr.spread i ∉ post)
    (hprebound : a.isPrebound f.policy (pre.any Attr.isSpread) = true)
    (hrun : bindTag f (machine f k) values g.node tag w = some ((), w₁)) :
    g.Holds f w₁ ∧ g.good w₁ ∧ w.page.size ≤ w₁.page.size := by
  obtain ⟨-, -, hnone⟩ := of_isPrebound values hprebound
  have hmarks : markPrebound f.policy false tag.attrs = markPrebound f.policy false pre ++
      (a, true) :: markPrebound f.policy (pre.any Attr.isSpread || a.isSpread) post := by
    rw [hattrs, markPrebound_append, Bool.false_or, markPrebound, hprebound]
  have hspares (b : Attr) (hb : (b, false) ∈ markPrebound f.policy false tag.attrs)
      (later : List String) : AttrSpares f g.types g.stored g.name values later b := by
    have hmem : b ∈ pre ++ post := by
      rw [hmarks, List.mem_append, List.mem_cons] at hb
      rw [List.mem_append]
      rcases hb with hb | hb | hb
      · exact Or.inl (map_markPrebound f.policy false pre ▸ List.mem_map_of_mem hb)
      · cases hb
      · exact Or.inr (map_markPrebound f.policy _ post ▸ List.mem_map_of_mem hb)
    refine ⟨hothers b hmem, fun i hi => ?_⟩
    subst hi
    rcases List.mem_append.mp hmem with hpre | hpost
    · exact absurd (List.any_eq_true.mpr ⟨_, hpre, rfl⟩) (Bool.eq_false_iff.mp hnone)
    · exact absurd hpost (hlast i)
  have hdoes : (g.regime f).Does () ⟨w, hholds⟩ (bindTag f (machine f k) values g.node tag)
      (bindTag f (machine f (k + 1)) values g.node tag) fun _ _ => True := by
    refine Regime.bindAttrs_does haround.lawful hvalues fun front b back h s' hnext => ?_
    refine haround.bindAttr_does (hspares b (by rw [h]; simp) _) fun v hv => ?_
    exact (hvalues v hv).mono (g.bounds_mono hnext.1)
  obtain ⟨s₁, rfl, hnext, -⟩ := hdoes.exists_next hrun
  exact ⟨s₁.2, hnext.2 hgood, hnext.1⟩

/-- An attribute behind every spread always holds what its value comes to. -/
theorem renderContainer_explicit_last (hpolicy : f.policy = .usual) (htracking : f.tracking = true)
    (hregistry : ∀ name body, f.registry.get? name = some body → body.Keeps T)
    (hproper : w.Proper T) (hvalues : ∀ v ∈ values, v.Within (Bounds.typed T w.page.size))
    (hsource : (Bounds.typed T w.page.size).source source)
    (hskeleton : source.skeleton? slot = some root)
    (hfurnished : Furnished f.toSetup 0 w.page (some root) nodes)
    (hplace : (.element tag, id) ∈ places f w.page root nodes)
    (hattrs : tag.attrs = pre ++ a :: post) (hname : a.name? = some n)
    (hplain : f.policy.resolve n = (Policy.fallback, n))
    (hothers : ∀ b ∈ pre ++ post, targetOf f b ≠ some n) (hlast : ∀ i, Attr.spread i ∉ post)
    (hspreads : ∀ i, Attr.spread i ∈ pre → SparesValue f T w.stored n [n] (valueAt values i))
    (hscalar : ∀ σ, (∀ x, T x (σ x)) → ∃ u, currently σ d (attrValue values a) = some u)
    (hrun : renderContainer f (machine f k) source values slot nodes w = some (v, w₁))
    (hlater : Afterwards f T v w₁ w₂) :
    ∃ u, currently w₂.held d (attrValue values a) = some u ∧
      findAttribute (w₂.page.attributes id) n = (writeOf f n u).entry f.config n := by
  obtain ⟨start, hstart⟩ : ∃ start,
      findAttribute (Sprouts.copied f.elementOf tag).attributes n = start := ⟨_, rfl⟩
  have haround : (Guard.outset T w.stored id n start).Around f :=
    ⟨hpolicy, htracking, hregistry, Guard.lasting_kept f _ _⟩
  have hstill (hv : (attrValue values a).isReactive = false) :
      Setter.content (attrValue values a) ≠ .unusable := by
    obtain ⟨u, hu⟩ := hscalar w.held fun x => (hproper.signals x).1
    exact (eq_of_currently hv hu).2
  obtain ⟨g', hsecures, hholds, hgood, hv⟩ := renderContainer_secures
    (P := (Guard.outset T w.stored id n start).Shows f d (attrValue values a)) hpolicy htracking
    hregistry hproper hvalues hsource hskeleton hfurnished hplace hstart
    (fun w₃ w₄ hholds hgood hvalues hbind => by
      rcases hprebound : a.isPrebound f.policy (pre.any Attr.isSpread) with _ | _
      · exact bindTag_bound haround hholds hgood rfl hvalues hattrs hname hplain hothers hlast
          hspreads
          hstill hscalar hprebound hbind
      · obtain ⟨hfixed, hreactive, -⟩ := of_isPrebound values hprebound
        have hentry : (writeOf f n (attrValue values a)).entry f.config n = start := by
          rw [← hstart, hfixed]
          exact (findAttribute_elementOf hpolicy hplain hattrs hname hothers hprebound
            (hfixed ▸ hstill (hfixed ▸ hreactive))).symm
        obtain ⟨hholds', hgood', hsize⟩ :=
          bindTag_prebound haround hholds hgood hvalues hattrs hothers
          hlast hprebound hbind
        refine ⟨_, ?_, hholds', hgood', hsize⟩
        have hkept := Guard.secures_kept (f := f) (g := Guard.outset T w.stored id n start) (n := d)
          (v := attrValue values a) (hfixed ▸ hreactive)
        have hsame : (Guard.outset T w.stored id n start).kept
            ((writeOf f n (attrValue values a)).entry f.config n) =
              Guard.outset T w.stored id n start := by rw [hentry]; rfl
        exact hsame ▸ hkept) hrun
  have htypes : g'.types = T := hsecures.types
  obtain ⟨hholds₂, hgood₂, -⟩ := Afterwards.good (g := g') (htypes ▸ hlater)
    (haround.of_secures hsecures) hholds hgood hv
  obtain ⟨u, hu⟩ := hscalar w₂.held fun x => htypes ▸ (hholds₂.apt.signals x).1
  exact ⟨u, hu, hsecures.shows w₂ hholds₂ hgood₂ u hu⟩

end

/-! ### Readers that yield spreads -/

/-- A script comes to a scalar, or to a spread whose names are all of this kind. -/
def SpreadsOnly (ok : String → Prop) : Script → Prop
  | .spread entries => ∀ e ∈ entries, ok e.1
  | .choose _ yes no => SpreadsOnly ok yes ∧ SpreadsOnly ok no
  | .note _ next => SpreadsOnly ok next
  | .write _ _ next => SpreadsOnly ok next
  | .empty => True
  | .bool _ => True
  | .number _ => True
  | .text _ => True
  | _ => False

section

variable {c : Calls} {env : Option Props} {ok : String → Prop} {w w' : World}

theorem names_set {ps : Props} (hps : ∀ e ∈ ps, ok e.1) {name : String} (hname : ok name)
    (e : Entry) :
    ∀ e' ∈ ps.set name e, ok e'.1 := by
  induction ps with
  | nil => exact List.forall_mem_singleton.mpr hname
  | cons p rest ih =>
    obtain ⟨hp, hrest⟩ := List.forall_mem_cons.mp hps
    rw [Props.set]
    split
    · exact List.forall_mem_cons.mpr ⟨hname, hrest⟩
    · exact List.forall_mem_cons.mpr ⟨hp, ih hrest⟩

theorem buildEntries_names {entries : List (String × Bool × Script)} {ps ps' : Props}
    (hps : ∀ e ∈ ps, ok e.1) (hentries : ∀ e ∈ entries, ok e.1)
    (hrun : buildEntries f c env ps entries w = some (ps', w')) : ∀ e ∈ ps', ok e.1 := by
  induction entries generalizing ps w with
  | nil =>
    obtain ⟨rfl, -⟩ : ps = ps' ∧ w = w' := by simpa [buildEntries] using Option.some.inj hrun
    exact hps
  | cons e rest ih =>
    obtain ⟨name, moving, code⟩ := e
    obtain ⟨hname, hrest⟩ := List.forall_mem_cons.mp hentries
    rw [buildEntries.eq_def] at hrun
    cases moving with
    | true => exact ih (names_set hps hname _) hrest hrun
    | false =>
      obtain ⟨⟨v, w₁⟩, -, hrun'⟩ := Option.bind_eq_some_iff.mp hrun
      exact ih (names_set hps hname _) hrest hrun'

/-- A value that is no reader, and with names of this kind only if it is a spread. -/
def HasNames (ok : String → Prop) (v : Value) : Prop :=
  v.isReactive = false ∧ ∀ entries, v = .spread entries → ∀ e ∈ entries, ok e.1

theorem hasNames_pure {u v : Value} (hu : HasNames ok u)
    (hrun : (pure u : Run Value) w = some (v, w')) : HasNames ok v := by
  obtain ⟨rfl, -⟩ : u = v ∧ w = w' := by simpa using Option.some.inj hrun
  exact hu

theorem hasNames_plain {u : Value} (hu : u.isReactive = false)
    (h : ∀ entries, u ≠ .spread entries) :
    HasNames ok u :=
  ⟨hu, fun entries heq => absurd heq (h entries)⟩

theorem buildScript_names : ∀ {code : Script} {w w' : World} {v : Value}, SpreadsOnly ok code →
    buildScript f c env code w = some (v, w') → HasNames ok v
  | .empty, _, _, _, _, hrun =>
    hasNames_pure (u := .empty) (hasNames_plain rfl nofun) (by rwa [buildScript] at hrun)
  | .bool b, _, _, _, _, hrun =>
    hasNames_pure (u := .bool b) (hasNames_plain rfl nofun) (by rwa [buildScript] at hrun)
  | .number n, _, _, _, _, hrun =>
    hasNames_pure (u := .number n) (hasNames_plain rfl nofun) (by rwa [buildScript] at hrun)
  | .text s, _, _, _, _, hrun =>
    hasNames_pure (u := .text s) (hasNames_plain rfl nofun) (by rwa [buildScript] at hrun)
  | .choose name yes no, w, w', v, h, hrun => by
    rw [buildScript] at hrun
    obtain ⟨code, w₁, -, hrest⟩ := run_of_bind hrun
    split at hrest
    · exact buildScript_names h.1 hrest
    · exact buildScript_names h.2 hrest
  | .note line next, w, w', v, h, hrun => by
    rw [buildScript] at hrun
    obtain ⟨-, w₁, -, hrest⟩ := run_of_bind hrun
    have hnext : SpreadsOnly ok next := h
    exact buildScript_names hnext hrest
  | .write name value next, w, w', v, h, hrun => by
    rw [buildScript] at hrun
    obtain ⟨-, w₁, -, hrest⟩ := run_of_bind hrun
    have hnext : SpreadsOnly ok next := h
    exact buildScript_names hnext hrest
  | .spread entries, w, w', v, h, hrun => by
    rw [buildScript] at hrun
    obtain ⟨ps, w₁, hbuild, hrest⟩ := run_of_bind hrun
    refine hasNames_pure ⟨rfl, fun entries' heq => ?_⟩ hrest
    obtain rfl : ps = entries' := Value.spread.inj heq
    exact buildEntries_names (fun e he => absurd he List.not_mem_nil) h hbuild

/-- A reader whose script has no other names than those leaves the attribute alone. -/
theorem sparesReader_script {T : Types} {stored : List (String × Value)} {shadowed : List String}
    {code : Script} (h : SpreadsOnly (fun name => isShadowed shadowed name = true ∨
      nameTarget f name ≠ some n) code) :
        SparesReader f T stored n shadowed (.script env code) := by
  intro m w w' entries _ _ hrun
  match m with
  | 0 => cases hrun
  | 1 => cases hrun
  | 2 => cases hrun
  | m + 3 =>
    have hrun' : ((machine f (m + 2)).read (.script env code) >>= (machine f (m + 2)).resolve) w =
        some (.spread entries, w') := hrun
    obtain ⟨v, w₁, hbuild, hresolve⟩ := run_of_bind hrun'
    obtain ⟨hstill, hnames⟩ := buildScript_names (c := machine f m) h hbuild
    -- what is no reader is resolved as it is
    have hsame : v = .spread entries := by
      have hplain : (machine f (m + 2)).resolve v w₁ = some (v, w₁) := by
        cases v <;> first
          | rfl
          | cases hstill
      have heq := hplain.symm.trans hresolve
      simpa using congrArg Prod.fst (Option.some.inj heq)
    exact hnames entries hsame

end

/-! ### Signals that hold texts -/

/-- All signals hold texts, or nothing. -/
def textual : Types := fun _ code => code = .empty ∨ ∃ s, code = .text s

theorem keeps_textual {name : String} {code : Script} (h : textual name code) :
    code.Keeps textual := by
  rcases h with rfl | ⟨s, rfl⟩
  · exact Script.keeps_empty textual
  · exact .intro nofun nofun nofun

theorem proper_textual {signals : List (String × Script)} (h : ∀ p ∈ signals, textual p.1 p.2) :
    (World.initial signals).Proper textual := by
  have hheld (name : String) : textual name ((World.initial signals).held name) := by
    rw [World.held_initial]
    rcases hfind : signals.find? (·.1 == name) with _ | p
    · rw [hfind]
      exact Or.inl rfl
    · rw [hfind]
      exact h p (List.mem_of_find?_eq_some hfind)
  exact World.proper_initial fun name => ⟨hheld name, keeps_textual (hheld name)⟩

/-! ### Trials -/

/-- A literal rendered where nothing has happened yet, and then signals written: its tree, its
    stations, and what is seen of the world in the end. -/
def trial {γ : Type} (f : Factory) (k : Nat) (l : Literal) (signals : List (String × Script))
    (values : List Value) (writes : List (String × Script)) (see : World → γ) :
    Option (Template × List NodeId × γ) :=
  (compile f l (.initial signals)).bind fun r =>
    r.1.toOption.bind fun source => (source.skeleton? rootSlot).bind fun root =>
      (renderContainer f (machine f k) source values rootSlot source.tree.children r.2).bind
        fun p => (writeAll (machine f k) writes p.2).map fun q =>
          (source.tree, stations (r.2.page.copy root).2 (r.2.page.copy root).1, see q.2)

/-- The runs of which a trial is made up.  If the literal has one element, that is bound where the
    only station is. -/
theorem exists_trial {T : Types} {γ : Type} {k : Nat} {l : Literal}
    {signals : List (String × Script)} {values : List Value} {writes : List (String × Script)}
    {see : World → γ} {tag : Tag} {m : Nat} {id : NodeId} {c : γ}
    (hproper : (World.initial signals).Proper T) (hcomponent : f.registry.isComponent tag = false)
    (htrial : trial f k l signals values writes see = some (⟨[.element tag []], m⟩, [id], c)) :
    ∃ source w₀ root v w₁ w₂, compile f l (.initial signals) = some (.ok source, w₀) ∧
      source.skeleton? rootSlot = some root ∧
      renderContainer f (machine f k) source values rootSlot source.tree.children w₀ =
        some (v, w₁) ∧
      writeAll (machine f k) writes w₁ = some ((), w₂) ∧ see w₂ = c ∧ w₀.Proper T ∧
      (Bounds.typed T w₀.page.size).source source ∧
      Furnished f.toSetup 0 w₀.page (some root) source.tree.children ∧
      (.element tag, id) ∈ places f w₀.page root source.tree.children ∧ w₀.stored = [] := by
  rw [trial] at htrial
  obtain ⟨⟨outcome, w₀⟩, hcompile, htrial⟩ := Option.bind_eq_some_iff.mp htrial
  obtain ⟨source, houtcome, htrial⟩ := Option.bind_eq_some_iff.mp htrial
  obtain ⟨root, hskeleton, htrial⟩ := Option.bind_eq_some_iff.mp htrial
  obtain ⟨⟨v, w₁⟩, hrender, htrial⟩ := Option.bind_eq_some_iff.mp htrial
  obtain ⟨⟨⟨⟩, w₂⟩, hwrites, htrial⟩ := Option.map_eq_some_iff.mp htrial
  obtain rfl : outcome = .ok source := by
    cases outcome with
    | error e => cases houtcome
    | ok s => exact congrArg Except.ok (Option.some.inj houtcome)
  obtain ⟨htree, htrial⟩ := Prod.mk.inj htrial
  obtain ⟨hstations, hsee⟩ := Prod.mk.inj htrial
  obtain ⟨hproper₀, hsource⟩ := hproper.compile hcompile
  obtain ⟨-, hstocked, -, -, cache, hw₀⟩ := compile_sound (sound_initial f l signals) hcompile
  have hfurnished := hstocked.furnished
  rw [hskeleton] at hfurnished
  refine ⟨source, w₀, root, v, w₁, w₂, hcompile, hskeleton, hrender, hwrites, hsee, hproper₀,
    hsource source rfl, hfurnished, ?_, by rw [hw₀]; rfl⟩
  rw [places, hstations, htree]
  simp [pointsOfAll, pointsOf, hcomponent]

/-! ### A title behind two spreads -/

def behindLiteral : Literal := ⟨"behind", ["<p ...", " ...", " title=", "></p>"]⟩

def behindTag : Tag := ⟨"p", [.spread 0, .spread 1, .dynamic "title" 2 none], false, none⟩

/-- A spread with a reader among its entries. -/
def behindEntries : Props := [("title", .reactive (.signal "s")), ("lang", .immediate (.text "en"))]

/-- One spread or another. -/
def behindScript : Script :=
  .choose "s" (.spread [("title", false, .peek "s")])
    (.spread [("title", true, .peek "s"), ("lang", false, .empty)])

def behindValues : List Value :=
  [.spread behindEntries, .reactive (.script none behindScript), .reactive (.signal "n")]

/-- The spreads change, then the title itself, then the spreads again. -/
def behindWrites : List (String × Script) :=
  [("s", .empty), ("n", .text "two"), ("s", .text "again")]

theorem keeps_behind : behindScript.Keeps textual := by
  have hpeek (name : String) : (Script.peek name).Keeps textual := .intro nofun nofun nofun
  have hspread (entries : List (String × Bool × Script)) (h : ∀ e ∈ entries, e.2.2.Keeps textual) :
      (Script.spread entries).Keeps textual :=
    .intro (fun part hpart => by
      obtain ⟨e, he, rfl⟩ := List.mem_map.mp hpart
      exact h e he) nofun nofun
  refine .intro (List.forall_mem_cons.mpr ⟨hspread _ (List.forall_mem_singleton.mpr (hpeek "s")),
    List.forall_mem_singleton.mpr (hspread _ (List.forall_mem_cons.mpr ⟨hpeek "s",
      List.forall_mem_singleton.mpr (Script.keeps_empty textual)⟩))⟩) nofun nofun

theorem resolve_title : tallyFactory.policy.resolve "title" = (Policy.fallback, "title") := by
  have hmarks : ruleMarks.all (fun c => !"title".toList.contains c) = true := by decide
  refine resolve_usual_plain (fun c hc hmem => ?_) (by decide)
  have hnot := List.all_eq_true.mp hmarks c hc
  rw [List.contains_iff_mem.mpr hmem] at hnot
  cases hnot

theorem isShadowed_title : isShadowed ["title"] "title" = true := by
  simp [isShadowed, Text.sameName_refl]

theorem nameTarget_lang : nameTarget tallyFactory "lang" ≠ some "title" := by decide

theorem sparesValue_behind (i : Nat) (hi : Attr.spread i ∈ [Attr.spread 0, .spread 1]) :
    SparesValue tallyFactory textual [] "title" ["title"] (valueAt behindValues i) := by
  rcases List.mem_cons.mp hi with h | h
  · obtain rfl := Attr.spread.inj h
    have hentries : SparesEntries tallyFactory "title" ["title"] behindEntries :=
      List.forall_mem_cons.mpr ⟨Or.inl isShadowed_title,
        List.forall_mem_singleton.mpr (Or.inr nameTarget_lang)⟩
    exact hentries
  · obtain rfl := Attr.spread.inj (List.mem_singleton.mp h)
    have hscript : SpreadsOnly (fun name => isShadowed ["title"] name = true ∨
        nameTarget tallyFactory name ≠ some "title") behindScript := by
      rw [behindScript, SpreadsOnly, SpreadsOnly, SpreadsOnly]
      exact ⟨List.forall_mem_singleton.mpr (Or.inl isShadowed_title),
        List.forall_mem_cons.mpr ⟨Or.inl isShadowed_title,
          List.forall_mem_singleton.mpr (Or.inr nameTarget_lang)⟩⟩
    exact sparesReader_script hscript

theorem trial_behind :
    trial tallyFactory 9 behindLiteral [("s", .text "on"), ("n", .text "one")] behindValues
      behindWrites (fun w => findAttribute (w.page.attributes 3) "title") =
    some (⟨[.element behindTag []], 1⟩, [3], some ⟨"title", "two", none⟩) := by
  decide +kernel

/-- The title follows its own reader through all of that. -/
theorem renderContainer_explicit_last_title :
    ∃ source w₀ v w₁ w₂, compile tallyFactory behindLiteral
        (.initial [("s", .text "on"), ("n", .text "one")]) = some (.ok source, w₀) ∧
      renderContainer tallyFactory (machine tallyFactory 9) source behindValues rootSlot
        source.tree.children w₀ = some (v, w₁) ∧
      writeAll (machine tallyFactory 9) behindWrites w₁ = some ((), w₂) ∧
      findAttribute (w₂.page.attributes 3) "title" = some ⟨"title", "two", none⟩ ∧
      ∃ u, currently w₂.held 2 (.reactive (.signal "n")) = some u ∧
        findAttribute (w₂.page.attributes 3) "title" =
          (writeOf tallyFactory "title" u).entry tallyFactory.config "title" := by
  have hinitial : (World.initial [("s", .text "on"), ("n", .text "one")]).Proper textual :=
    proper_textual (by simp [textual])
  obtain ⟨source, w₀, root, v, w₁, w₂, hcompile, hskeleton, hrender, hwrites, htitle, hproper,
    hsource, hfurnished, hplace, hstored⟩ :=
    exists_trial hinitial (by decide +kernel) trial_behind
  refine ⟨source, w₀, v, w₁, w₂, hcompile, hrender, hwrites, htitle, ?_⟩
  have hwithin : ∀ v ∈ behindValues, v.Within (Bounds.typed textual w₀.page.size) :=
    List.forall_mem_cons.mpr ⟨.spread (List.forall_mem_cons.mpr ⟨.reactive (.signal trivial),
        List.forall_mem_singleton.mpr (.immediate (.text "en"))⟩),
      List.forall_mem_cons.mpr ⟨.reactive (.script (fun ps hps => by cases hps) keeps_behind),
        List.forall_mem_singleton.mpr (.reactive (.signal trivial))⟩⟩
  have hattrs : behindTag.attrs = [.spread 0, .spread 1] ++ .dynamic "title" 2 none :: [] := rfl
  refine renderContainer_explicit_last (T := textual) (d := 2) rfl rfl (fun _ _ h => by cases h)
    hproper hwithin hsource hskeleton hfurnished hplace hattrs rfl resolve_title (by decide +kernel)
    (fun _ => List.not_mem_nil) (hstored ▸ sparesValue_behind) (fun σ hσ => ?_) hrender
    (Afterwards.refl.writeAll ?_ hwrites)
  · rcases hσ "n" with h | ⟨s, h⟩ <;>
      simp [attrValue, behindValues, valueAt, currently, showReader, showScript, h, Shown.after,
        Yield.scalar?]
  · have htyped : ∀ p ∈ behindWrites, textual p.1 p.2 := by simp [behindWrites, textual]
    exact fun p hp => ⟨htyped p hp, keeps_textual (htyped p hp)⟩

end Stencil.Render
