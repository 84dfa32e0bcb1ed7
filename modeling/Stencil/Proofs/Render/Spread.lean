/-
  Stencil/Proofs/Render/Spread.lean
  =================================
  **A spread behind the attributes of an element.**

  The entries of a spread are applied over what is written before it.  If the spread is a
  reader, they are applied again by each run of its effect; if it is not, an entry that is
  a reader has an effect of its own.  Either way the attribute that an entry goes to holds
  what the entry comes to, as long as nothing else is bound to it
  (`Guard.bindSpread_secures`).
-/
import Stencil.Proofs.Render.Replace
import Stencil.Proofs.Render.Precedence
import Stencil.Proofs.Render.Told

namespace Stencil.Render

open Document Markup

variable {f : Factory} {n : Nat}

/-! ### Entries -/

/-- The only entry of a spread that goes to the attribute `name`, and it does so as a plain one. -/
def Sole (f : Factory) (name : String) (ps : Props) (e : Entry) : Prop :=
  ∃ front back, ps = front ++ (name, e) :: back ∧ ∀ p ∈ front ++ back, nameTarget f p.1 ≠ some name

theorem nameTarget_plain {name : String}
    (hplain : f.policy.resolve name = (Policy.fallback, name)) :
    nameTarget f name = some name := by
  rw [nameTarget, hplain]
  rfl

/-- The only entry is the first one, or it is among the others. -/
theorem sole_cons {name : String} {p : String × Entry} {ps : Props} {e : Entry}
    (h : Sole f name (p :: ps) e) :
    (p = (name, e) ∧ ∀ q ∈ ps, nameTarget f q.1 ≠ some name) ∨
      (nameTarget f p.1 ≠ some name ∧ Sole f name ps e) := by
  obtain ⟨front, back, hsplit, hothers⟩ := h
  cases front with
  | nil =>
    obtain ⟨rfl, rfl⟩ := List.cons.inj hsplit
    exact Or.inl ⟨rfl, hothers⟩
  | cons q front =>
    obtain ⟨rfl, rfl⟩ := List.cons.inj hsplit
    obtain ⟨hself, hrest⟩ := List.forall_mem_cons.mp hothers
    exact Or.inr ⟨hself, front, back, rfl, hrest⟩

theorem Sole.unique {name : String} (hplain : f.policy.resolve name = (Policy.fallback, name))
    {ps : Props} {e e' : Entry} (h : Sole f name ps e) (h' : Sole f name ps e') : e = e' := by
  have htarget := nameTarget_plain hplain
  induction ps with
  | nil =>
    obtain ⟨front, back, hsplit, -⟩ := h
    simp at hsplit
  | cons p ps ih =>
    rcases sole_cons h with ⟨rfl, hothers⟩ | ⟨hp, hrest⟩ <;>
      rcases sole_cons h' with ⟨heq, hothers'⟩ | ⟨hp', hrest'⟩
    · exact (Prod.mk.inj heq).2
    · exact absurd htarget hp'
    · exact absurd (heq ▸ htarget) hp
    · exact ih hrest hrest'

/-- What the entry comes to depends on what is read for it. -/
theorem currently_congr {σ τ : String → Script} {name : String} {e : Entry} {reads : List String}
    (h : tellEntry f σ n name e = some reads) (hreads : ∀ name ∈ reads, τ name = σ name) :
    currently τ n e.toValue = currently σ n e.toValue := by
  rw [tellEntry] at h
  generalize e.toValue = v at h ⊢
  cases v with
  | reactive r =>
    obtain ⟨x, hx, rfl⟩ := Option.map_eq_some_iff.mp h
    rw [currently, currently, hx, showReader_congr hx (Nat.le_refl _) hreads]
  | _ => rfl

/-- What a value comes to can be written. -/
theorem usable_of_currently {σ : String → Script} {v u : Value} (h : currently σ n v = some u) :
    Setter.content u ≠ .unusable := by
  by_cases hv : v.isReactive = true
  · cases v with
    | reactive r =>
      obtain ⟨x, -, hx⟩ := Option.bind_eq_some_iff.mp h
      exact content_scalar hx
    | _ => cases hv
  · obtain ⟨rfl, hcontent⟩ := eq_of_currently (Bool.eq_false_iff.mpr hv) h
    exact hcontent

/-- Nothing is read for an entry that is no reader. -/
theorem of_tellEntry_still {σ : String → Script} {name : String} {e : Entry} {reads : List String}
    (hv : e.toValue.isReactive = false) (h : tellEntry f σ n name e = some reads) :
    reads = [] ∧ ∀ fn, (f.policy.resolve name).1.setter.callback? e.toValue ≠ some (.func fn) := by
  rw [tellEntry] at h
  generalize e.toValue = v at h hv ⊢
  constructor
  · cases v <;> first
      | (simp only at h
         split at h
         · cases h
         · exact (Option.some.inj h).symm)
      | cases hv
  · intro fn hfn
    cases v <;> first
      | (simp only [hfn] at h
         cases h)
      | cases hv

/-- What is read for one of the entries is read for all. -/
theorem tellApplied_mem {σ : String → Script} {ps : Props} {reads : List String}
    (h : tellApplied f σ n ps = some reads) {p : String × Entry} (hp : p ∈ ps) :
    ∃ part, tellEntry f σ n p.1 p.2 = some part ∧ ∀ x ∈ part, x ∈ reads := by
  induction ps generalizing reads with
  | nil => cases hp
  | cons q ps ih =>
    rw [tellApplied] at h
    obtain ⟨first, hfirst, h⟩ := Option.bind_eq_some_iff.mp h
    obtain ⟨more, hmore, h⟩ := Option.bind_eq_some_iff.mp h
    obtain rfl := Option.some.inj h
    rcases List.mem_cons.mp hp with rfl | hp
    · exact ⟨first, hfirst, fun x hx => List.mem_append_left _ hx⟩
    · obtain ⟨part, hpart, hsub⟩ := ih hmore hp
      exact ⟨part, hpart, fun x hx => List.mem_append_right _ (hsub x hx)⟩

/-! ### Entries applied -/

/-- Signals have been read, and an element has changed to `e'`. -/
structure Applied (w w' : World) (id : NodeId) (e' : ElementState) (reads : List String) :
    Prop where
  stirs : Stirs w w' reads
  forest : w'.page.IsForest
  size : w.page.size ≤ w'.page.size
  element : w'.page.element? id = some e'

theorem callback?_of_fits {y : Yield} {v : Value} (h : y.Fits v) (setter : Setter) :
    setter.callback? v = none := by
  cases y with
  | element t =>
    obtain ⟨id, rfl⟩ := h
    cases setter <;> rfl
  | list items =>
    obtain ⟨vs, rfl⟩ := h
    cases setter <;> rfl
  | _ => exact callback?_scalar h setter

/-- What is shown cannot be run. -/
theorem action?_of_fits {y : Yield} {v : Value} (h : y.Fits v) : Setter.action? v = none := by
  cases y with
  | element t =>
    obtain ⟨id, rfl⟩ := h
    rfl
  | list items =>
    obtain ⟨vs, rfl⟩ := h
    rfl
  | _ =>
    obtain rfl := Option.some.inj h
    rfl

/-- A setter applied, which calls no code of the application but a `ref`. -/
theorem applySetter_applied (c : Calls) (setter : Setter) (name : String) {w : World} {id : NodeId}
    {v : Value} {e : ElementState} (hforest : w.page.IsForest)
    (helement : w.page.element? id = some e) (hquiet : ∀ fn, setter.callback? v ≠ some (.func fn)) :
    ∃ w', applySetter f c id setter name v w = some ((), w') ∧
      Applied w w' id (setter.write f.config name v e) [] := by
  have happlied :
      Applied w { w with page := w.page.updateElement id (setter.write f.config name v) } id
      (setter.write f.config name v e) [] :=
    ⟨(Stirs.refl w).onPage _, hforest.updateElement _ _,
      Nat.le_of_eq (size_updateElement _ _ _).symm,
      element?_updateElement helement _⟩
  rcases hcallback : setter.callback? v with _ | (label | fn)
  · refine ⟨_, ?_, happlied⟩
    rw [applySetter, hcallback, run_bind (run_changePage _ w)]
    rfl
  · obtain ⟨w₁, hw₁⟩ : ∃ w₁ : World, w₁ = { w with
        page := w.page.updateElement id (setter.write f.config name v) } := ⟨_, rfl⟩
    rw [← hw₁] at happlied
    have hcall : callBack c id (.ref label) w₁ =
        some ((), { w₁ with log := w₁.log.push (.referred label (w₁.page.toHtml id)) }) := rfl
    obtain ⟨hstirs, hforest', hsize, hnew⟩ := happlied
    refine ⟨{ w₁ with log := w₁.log.push (.referred label (w₁.page.toHtml id)) }, ?_,
      ⟨⟨hstirs.graph, hstirs.cache, hstirs.stored, hstirs.containers, hstirs.live⟩, hforest', hsize,
        hnew⟩⟩
    rw [applySetter, hcallback, run_bind (run_changePage _ w), ← hw₁]
    exact hcall
  · exact absurd hcallback (hquiet fn)

/-- One entry applied. -/
theorem applyEntry_applied {m : Nat} (hm : 3 * n + 2 ≤ m) {w : World} {id : NodeId} {name : String}
    {e : Entry} {reads : List String} {el : ElementState}
    (h : tellEntry f w.held n name e = some reads) (hforest : w.page.IsForest)
    (helement : w.page.element? id = some el) :
    ∃ w₁ w' v, (machine f m).resolve e.toValue w = some (v, w₁) ∧
      applySetter f (machine f m) id (f.policy.resolve name).1.setter
        (f.policy.resolve name).2 v w₁ =
        some ((), w') ∧
      Applied w w' id ((writeOf f name v).apply f.config el) reads ∧
      (∀ u, currently w.held n e.toValue = some u → v = u) ∧
      (e.toValue.isReactive = false → v = e.toValue) ∧
      (e.toValue.isReactive = true → Setter.action? v = none) := by
  by_cases hv : e.toValue.isReactive = true
  · obtain ⟨r, hr⟩ := exists_reader hv
    rw [tellEntry, hr] at h
    rw [hr]
    obtain ⟨x, hx, rfl⟩ := Option.map_eq_some_iff.mp h
    obtain ⟨w₁, v, ss, hrun, hstirs, hbrings⟩ := resolveReader_comes f hx hm w hforest rfl
    obtain ⟨hfits, -⟩ := List.forall₂_cons.mp hbrings.fits
    have hold : w₁.page.element? id = some el :=
      (element?_extends hbrings.ext ⟨el, helement⟩).trans helement
    obtain ⟨w', happly, happlied⟩ := applySetter_applied (f := f) (machine f m)
      (f.policy.resolve name).1.setter (f.policy.resolve name).2
        (v := v) hbrings.ext.forest hold fun fn hfn => by
        rw [callback?_of_fits hfits] at hfn
        cases hfn
    have hall := hstirs.trans happlied.stirs
    rw [List.append_nil] at hall
    refine ⟨w₁, w', v, hrun, happly, ⟨hall, happlied.forest,
      Nat.le_trans hbrings.ext.size_le happlied.size, happlied.element⟩, fun u hu => ?_,
      fun hno => ?_, fun _ => action?_of_fits hfits⟩
    · rw [currently, hx] at hu
      exact eq_of_fits hfits hu
    · cases hno
  · rw [Bool.not_eq_true] at hv
    have hplain := resolve_plain f (n := m) (by omega) hv w
    obtain ⟨hnone, hquiet⟩ := of_tellEntry_still hv h
    obtain ⟨w', happly, happlied⟩ := applySetter_applied (f := f) (machine f m)
      (f.policy.resolve name).1.setter (f.policy.resolve name).2 hforest helement hquiet
    refine ⟨w, w', e.toValue, hplain, happly, hnone ▸ happlied, fun u hu => ?_, fun _ => rfl,
      fun hyes => ?_⟩
    · exact (eq_of_currently hv hu).1.symm
    · rw [hv] at hyes
      cases hyes

/-- All entries applied: the attribute that only one of them goes to holds what that comes to. -/
theorem applyEntries_applied (hpolicy : f.policy = .usual) {m : Nat} (hm : 3 * n + 2 ≤ m)
    {w : World} {id : NodeId} {name : String}
    (hplain : f.policy.resolve name = (Policy.fallback, name)) {ps : Props} {reads : List String}
    {el : ElementState} (h : tellApplied f w.held n ps = some reads) (hforest : w.page.IsForest)
    (helement : w.page.element? id = some el) :
    ∃ w' el', applyEntries f (machine f m) id [] ps w = some ((), w') ∧ Applied w w' id el' reads ∧
      ((∀ p ∈ ps, nameTarget f p.1 ≠ some name) →
        findAttribute el'.attributes name = findAttribute el.attributes name) ∧
      ∀ e u, Sole f name ps e → currently w.held n e.toValue = some u →
        findAttribute el'.attributes name = (writeOf f name u).entry f.config name := by
  induction ps generalizing w reads el with
  | nil =>
    obtain rfl := Option.some.inj h
    refine ⟨w, el, rfl, ⟨Stirs.refl w, hforest, Nat.le_refl _, helement⟩, fun _ => rfl, ?_⟩
    rintro e u ⟨front, back, hsplit, -⟩
    simp at hsplit
  | cons p ps ih =>
    obtain ⟨key, e₀⟩ := p
    rw [tellApplied] at h
    obtain ⟨first, hfirst, h⟩ := Option.bind_eq_some_iff.mp h
    obtain ⟨more, hmore, h⟩ := Option.bind_eq_some_iff.mp h
    obtain rfl := Option.some.inj h
    obtain ⟨w₁, w₂, v, hresolve, happly, happlied, hvalue, -⟩ :=
      applyEntry_applied hm hfirst hforest helement
    have hheld := happlied.stirs.held
    obtain ⟨w', el', hrest, happlied', hother, hsole⟩ :=
      ih (hheld.symm ▸ hmore) happlied.forest happlied.element
    have hstep (htarget : nameTarget f key ≠ some name) :
        findAttribute ((writeOf f key v).apply f.config el).attributes name =
          findAttribute el.attributes name := by
      refine Write.apply_other (w := writeOf f key v) ?_ htarget
      rw [writeOf, hpolicy]
      exact Setter.isBuiltIn_usual key
    refine ⟨w', el', ?_, ⟨happlied.stirs.trans happlied'.stirs, happlied'.forest,
      Nat.le_trans happlied.size happlied'.size, happlied'.element⟩, fun hall => ?_,
      fun e u hself hu => ?_⟩
    · rw [applyEntries, if_neg (by simp [isShadowed]), run_bind hresolve]
      exact (run_bind happly _).trans hrest
    · obtain ⟨hkey, hall⟩ := List.forall_mem_cons.mp hall
      rw [hother hall, hstep hkey]
    · rcases sole_cons hself with ⟨heq, hrest'⟩ | ⟨hkey, hself'⟩
      · obtain ⟨rfl, rfl⟩ := Prod.mk.inj heq
        obtain rfl := hvalue u hu
        have hcontent : Setter.content v ≠ .unusable := usable_of_currently hu
        rw [hother hrest']
        have hwrite : writeOf f key v = ⟨.plain, key, v⟩ := by rw [writeOf, hplain]; rfl
        rw [hwrite]
        exact Write.apply_whole (w := ⟨.plain, key, v⟩) rfl rfl hcontent
      · exact hsole e u hself' (hheld.symm ▸ hu)

/-! ### Runs of a spread -/

/-- Shadowed entries might as well not be there. -/
theorem applyEntries_unshadowed (c : Calls) (id : NodeId) (shadowed : List String) (ps : Props) :
    applyEntries f c id shadowed ps = applyEntries f c id [] (unshadowed shadowed ps) := by
  induction ps with
  | nil => rfl
  | cons p ps ih =>
    obtain ⟨name, e⟩ := p
    rw [applyEntries, ih]
    by_cases hname : isShadowed shadowed name = true
    · have hleft : unshadowed shadowed ((name, e) :: ps) = unshadowed shadowed ps :=
        List.filter_cons_of_neg (by simp [hname])
      rw [if_pos hname, hleft]
    · have hleft : unshadowed shadowed ((name, e) :: ps) = (name, e) :: unshadowed shadowed ps :=
        List.filter_cons_of_pos (by simpa using hname)
      rw [if_neg hname, hleft, applyEntries]
      rfl

/-- The run of a spread that is a reader: the element becomes what applying the entries makes of
    it. -/
theorem effect_applied {P : ElementState → Prop} {j : Nat} (hj : 3 * n + 2 ≤ j) {w : World}
    {i id : Nat} {shadowed : List String} {r : Reader} {x : Props × List String} {el : ElementState}
    (hlive : w.live = true) (heffect : w.graph.effects[i]? = some ⟨.spread id shadowed r, false⟩)
    (hspread : spreadPast f w.held n shadowed r = some x) (hforest : w.page.IsForest)
    (helement : w.page.element? id = some el)
    (happly : ∀ w₁ reads, w₁.held = w.held → tellApplied f w₁.held n x.1 = some reads →
      w₁.page.IsForest → w₁.page.element? id = some el →
      ∃ w₂ el', applyEntries f (machine f j) id [] x.1 w₁ = some ((), w₂) ∧
        Applied w₁ w₂ id el' reads ∧ P el') :
    ∃ w' el', (machine f (j + 1)).effect i w = some ((), w') ∧
      Rerun w w' i (.spread id shadowed r) x.2 ∧ w'.page.IsForest ∧
      w.page.size ≤ w'.page.size ∧ w'.page.element? id = some el' ∧ P el' := by
  obtain ⟨entries, front, back, htell, htold, rfl⟩ := of_spreadPast hspread
  obtain ⟨w', b', hrun, hrerun, rfl, hforest', hsize, el', hnew, hP⟩ :=
    runEffect_run (f := f) (c := machine f j) (front ++ back)
      (P := fun d b' => b' = .spread id shadowed r ∧ d.IsForest ∧ w.page.size ≤ d.size ∧
        ∃ el', d.element? id = some el' ∧ P el')
      hlive heffect fun w₀ hpage hheld _ hlive₀ => by
      obtain ⟨w₁, hread, hstirs, hpage₁⟩ := resolve_tells f (m := j) hj htell rfl w₀ hheld
      have hpage' : w₁.page = w.page := hpage₁.trans hpage
      have hheld₁ : w₁.held = w.held := hstirs.held.trans hheld
      obtain ⟨w₂, el', hentries, happlied, hP⟩ := happly w₁ back hheld₁ (hheld₁.symm ▸ htold)
        (hpage'.symm ▸ hforest) (hpage'.symm ▸ helement)
      refine ⟨w₂, _, ?_, hstirs.trans happlied.stirs, rfl, happlied.forest,
        hpage' ▸ happlied.size, el', happlied.element, hP⟩
      have hget : (getThe World : Run World) w₀ = some (w₀, w₀) := rfl
      rw [runBinding, run_bind hget, hlive₀]
      simp only [Bool.not_true, Bool.false_eq_true, if_false]
      rw [run_bind hread]
      simp only
      rw [applyEntries_unshadowed]
      exact (run_bind hentries _).trans rfl
  exact ⟨w', el', hrun, hrerun, hforest', hsize, hnew, hP⟩

/-- The same for the attribute that only one of the entries goes to. -/
theorem effect_spread (hpolicy : f.policy = .usual) {k : Nat} (hk : 3 * n + 3 ≤ k) {w : World}
    {i id : Nat} {name : String} {r : Reader} {x : Props × List String} {el : ElementState}
    (hplain : f.policy.resolve name = (Policy.fallback, name)) (hlive : w.live = true)
    (heffect : w.graph.effects[i]? = some ⟨.spread id [] r, false⟩)
    (hspread : spreadNow f w.held n r = some x) (hforest : w.page.IsForest)
    (helement : w.page.element? id = some el) :
    ∃ w' el', (machine f k).effect i w = some ((), w') ∧ Rerun w w' i (.spread id [] r) x.2 ∧
      w'.page.IsForest ∧ w.page.size ≤ w'.page.size ∧ w'.page.element? id = some el' ∧
      ∀ e u, Sole f name x.1 e → currently w.held n e.toValue = some u →
        findAttribute el'.attributes name = (writeOf f name u).entry f.config name := by
  obtain ⟨j, rfl⟩ : ∃ j, k = j + 1 := ⟨k - 1, by omega⟩
  have hj : 3 * n + 2 ≤ j := by omega
  rw [← spreadPast_nil] at hspread
  refine effect_applied hj hlive heffect hspread hforest helement
    fun w₁ reads hheld htold hforest₁ helement₁ => ?_
  obtain ⟨w₂, el', hentries, happlied, -, hsole⟩ :=
    applyEntries_applied hpolicy hj hplain htold hforest₁ helement₁
  exact ⟨w₂, el', hentries, happlied, hheld ▸ hsole⟩

/-! ### Spreads for good -/

/-- The entries of a spread now. -/
def entriesNow (f : Factory) (σ : String → Script) (n : Nat) : Value → Option Props
  | .spread entries => some entries
  | .reactive r => (spreadNow f σ n r).map (·.1)
  | _ => none

/-- Whenever it is asked for, the spread has entries, and an entry for the attribute that is there
    for good comes to a scalar. -/
def Settles (f : Factory) (T : Types) (n : Nat) (name : String) : Value → Prop
  | .spread entries => ∃ e, Sole f name entries e ∧
      ∀ σ, (∀ x, T x (σ x)) → ∃ u, currently σ n e.toValue = some u
  | .reactive r => ∀ σ, (∀ x, T x (σ x)) → ∃ x, spreadNow f σ n r = some x
  | _ => False

namespace Guard

variable {g : Guard} {w w' : World}

/-- The attribute holds what the only entry for it comes to now. -/
def Brings (f : Factory) (g : Guard) (n : Nat) (v : Value) (w : World) : Prop :=
  ∀ ps e u, entriesNow f w.held n v = some ps → Sole f g.name ps e →
    currently w.held n e.toValue = some u →
    g.value w = (writeOf f g.name u).entry f.config g.name

/-- The owner of the attribute is effect `i`, which applies the entries that `r` yields. -/
def spreading (f : Factory) (g : Guard) (n i : Nat) (r : Reader) : Guard :=
  { g with
    owner := some (i, .spread g.node [] r)
    good := fun w => ∃ x, spreadNow f w.held n r = some x ∧ Watches w.graph i x.2 ∧
      ∀ e u, Sole f g.name x.1 e → currently w.held n e.toValue = some u →
        g.value w = (writeOf f g.name u).entry f.config g.name }

/-- All that an entry comes to was read when the entries were applied. -/
theorem currently_of_spreadNow {σ τ : String → Script} {r : Reader} {x : Props × List String}
    (h : spreadNow f σ n r = some x) (hreads : ∀ name ∈ x.2, τ name = σ name) {name : String}
    {e : Entry} (he : Sole f name x.1 e) : currently τ n e.toValue = currently σ n e.toValue := by
  obtain ⟨front, back, -, happlied, hx⟩ := of_spreadNow h
  obtain ⟨pre, post, hsplit, -⟩ := he
  have hmem : (name, e) ∈ x.1 := by
    rw [hsplit]
    simp
  obtain ⟨part, hpart, hsub⟩ := tellApplied_mem happlied hmem
  rw [hx] at hreads
  exact currently_congr hpart fun y hy => hreads y (List.mem_append_right _ (hsub y hy))

theorem lasting_spreading (hpolicy : f.policy = .usual) {r : Reader} (i : Nat)
    (hplain : f.policy.resolve g.name = (Policy.fallback, g.name))
    (hspreads : ∀ σ, (∀ x, g.types x (σ x)) → ∃ x, spreadNow f σ n r = some x) :
    (g.spreading f n i r).Lasting f where
  alike w w' h hgood := by
    obtain ⟨x, hx, hwatches, hvalue⟩ := hgood
    have hsame : g.value w' = g.value w := h.value
    refine ⟨x, h.held ▸ hx, h.watches hwatches, fun e u he hu => ?_⟩
    rw [h.held] at hu
    exact hsame.trans (hvalue e u he hu)
  unread w name code hunread hgood := by
    obtain ⟨x, hx, hwatches, hvalue⟩ := hgood
    have hheld := held_write_unread code hwatches (hunread _ _ rfl)
    refine ⟨x, spreadNow_congr hx hheld, watches_write code hwatches, fun e u he hu => ?_⟩
    rw [currently_of_spreadNow hx hheld he] at hu
    exact hvalue e u he hu
  reruns j b m w w' howner h hrun := by
    obtain ⟨rfl, rfl⟩ : i = j ∧ Binding.spread g.node [] r = b := by
      simpa [spreading] using howner
    obtain ⟨x, hx⟩ := hspreads w.held fun x => (h.apt.signals x).1
    obtain ⟨el, helement⟩ := h.element
    -- a renderer that is deep enough comes to the same
    have hdeep := effect_le (Nat.le_max_left m (3 * n + 3)) hrun
    obtain ⟨w₁, el', hrun', hrerun, hforest, hsize, hnew, hsole⟩ := effect_spread hpolicy
      (Nat.le_max_right m (3 * n + 3)) hplain h.apt.live (h.apt.owned _ _ rfl) hx h.forest helement
    obtain rfl : w' = w₁ := by simpa using hdeep.symm.trans hrun'
    refine ⟨h.rerun rfl hrerun hforest hsize ⟨_, hnew⟩, hsize, x, hrerun.held ▸ hx,
      hrerun.watches.1, fun e u he hu => ?_⟩
    rw [hrerun.held] at hu
    rw [value, attributes]
    have hentry := hsole e u he hu
    change w'.page.element? g.node = some el' at hnew
    rw [hnew]
    exact hentry

theorem secures_spreading (hpolicy : f.policy = .usual) {r : Reader} (i : Nat)
    (hplain : f.policy.resolve g.name = (Policy.fallback, g.name))
    (hspreads : ∀ σ, (∀ x, g.types x (σ x)) → ∃ x, spreadNow f σ n r = some x) :
    Secures f g (g.spreading f n i r) (g.Brings f n (.reactive r)) where
  types := rfl
  stored := rfl
  node := rfl
  name := rfl
  lasting := lasting_spreading hpolicy i hplain hspreads
  shows w _ hgood ps e u hps he hu := by
    obtain ⟨x, hx, -, hvalue⟩ := hgood
    rw [entriesNow, hx] at hps
    obtain rfl := Option.some.inj hps
    exact hvalue e u he hu

theorem bindEntries_append_eq (c : Calls) (id : NodeId) (front back : Props) :
    bindEntries f c id [] (front ++ back) =
      bindEntries f c id [] front >>= fun _ => bindEntries f c id [] back := by
  induction front with
  | nil => simp [bindEntries]
  | cons p front ih =>
    obtain ⟨name, e⟩ := p
    have hshown : ¬ isShadowed [] name = true := by simp [isShadowed]
    rw [List.cons_append, bindEntries, bindEntries, if_neg hshown, if_neg hshown, ih, bind_assoc]

/-- A spread bound to the element, where nothing was bound to the attribute before. -/
theorem bindSpread_secures (haround : g.Around f) (hholds : g.Holds f w)
    (howner : g.owner = none) (hplain : f.policy.resolve g.name = (Policy.fallback, g.name))
    {k : Nat} {v : Value} (hv : v.Within (g.bounds w)) (hsettles : Settles f g.types n g.name v)
    (hrun : bindSpread f (machine f k) g.node [] v w = some ((), w')) :
    Secured f g (g.Brings f n v) w w' := by
  cases v with
  | spread entries =>
    obtain ⟨e, he, hscalar⟩ := hsettles
    have hentries : Props.Within (g.bounds w) entries := by
      cases hv with
      | spread h => exact h
    obtain ⟨front, back, rfl, hothers⟩ := id he
    obtain ⟨hfront, hback⟩ := List.forall_mem_append.mp hothers
    have hpart (p : String × Entry) (hp : p ∈ front ++ (g.name, e) :: back) := hentries p hp
    rw [bindSpread, bindEntries_append_eq] at hrun
    obtain ⟨⟨⟨⟩, w₁⟩, hrun₁, hrest⟩ := Option.bind_eq_some_iff.mp hrun
    -- the entries in front
    have hdoes : (g.regime f).Does () ⟨w, hholds⟩ (bindEntries f (machine f k) g.node [] front)
        (bindEntries f (machine f (k + 1)) g.node [] front) fun _ _ => True :=
      Regime.bindEntries_does haround.lawful (fun p hp => hpart p (List.mem_append_left _ hp))
        fun p hp => Or.inr (haround.bindable (hfront p hp))
    obtain ⟨s₁, rfl, hnext, -⟩ := hdoes.exists_next hrun₁
    rw [bindEntries, if_neg (by simp [isShadowed])] at hrest
    obtain ⟨⟨⟨⟩, w₂⟩, hself, hlast⟩ := Option.bind_eq_some_iff.mp hrest
    -- the entry itself
    have hstill (hv : e.toValue.isReactive = false) : Setter.content e.toValue ≠ .unusable := by
      obtain ⟨u, hu⟩ := hscalar w.held fun x => (hholds.apt.signals x).1
      exact (eq_of_currently hv hu).2
    obtain ⟨g', hsecures, hholds', hgood', hsize⟩ :=
      bindValue_secures haround.tracking hplain s₁.2 howner
      hstill (fun r hr σ hσ => by
        obtain ⟨u, hu⟩ := hscalar σ hσ
        rw [hr] at hu
        obtain ⟨x, hx, -⟩ := Option.bind_eq_some_iff.mp hu
        exact ⟨x, hx⟩) hself
    have hbrings : Secures f g g' (g.Brings f n (.spread (front ++ (g.name, e) :: back))) :=
      ⟨hsecures.types, hsecures.stored, hsecures.node, hsecures.name, hsecures.lasting,
        fun w hw hgood ps e' u hps he' hu => by
          obtain rfl := Option.some.inj hps
          obtain rfl := he.unique hplain he'
          exact hsecures.shows w hw hgood u hu⟩
    have hall : Secured f g (g.Brings f n (.spread (front ++ (g.name, e) :: back))) s₁.1 w₂ :=
      ⟨g', hbrings, hholds', hgood', hsize⟩
    -- the entries behind
    obtain ⟨g₂, hsecures₂, hholds₂, hgood₂, hsize₂⟩ := hall.next
      (bindEntries f (machine f (k + 1)) g.node [] back) hlast
      (fun g₁ hsecures₁ haround₁ s hs => by
        have hle := g.bounds_mono (Nat.le_trans hnext.1 hsize)
        refine Regime.bindEntries_does haround₁.lawful (fun p hp => ?_) fun p hp => Or.inr ?_
        · change p.2.Within (g₁.bounds s.1)
          rw [hsecures₁.bounds, hs]
          exact (hpart p (List.mem_append_right _ (List.mem_cons_of_mem _ hp))).mono hle
        · rw [← hsecures₁.node]
          refine haround₁.bindable ?_
          rw [hsecures₁.name]
          exact hback p hp) haround
    exact ⟨g₂, hsecures₂, hholds₂, hgood₂, Nat.le_trans hnext.1 hsize₂⟩
  | reactive r =>
    have hnew : bindSpread f (machine f k) g.node [] (.reactive r) w =
        newBinding f (machine f k) (.spread g.node [] r) w := rfl
    rw [hnew, newBinding_eq haround.tracking] at hrun
    have hsecures := secures_spreading (n := n) haround.policy w.graph.effects.size hplain hsettles
    obtain ⟨hholds', hsize, hgood'⟩ := hsecures.lasting.reruns _ _ k _ w' rfl
      (hholds.toOwned howner _ _) hrun
    exact ⟨_, hsecures, hholds', hgood', hsize⟩
  | _ => exact hsettles.elim

/-! ### The attributes of the element -/

/-- Nothing is known of the attribute, and nothing is bound to it. -/
def loose (g : Guard) : Guard := { g with owner := none, good := fun _ => True }

theorem lasting_loose (f : Factory) (g : Guard) : g.loose.Lasting f where
  alike _ _ _ _ := trivial
  unread _ _ _ _ _ := trivial
  reruns _ _ _ _ _ howner := by cases howner

/-- As long as nothing is known of the attribute, any value that is no reader may be bound to it. -/
theorem loose_bindAttr_does (haround : g.loose.Around f) {k : Nat} {s : (g.loose.regime f).State}
    {values : List Value} (hvalues : ∀ v ∈ values, v.Within (g.loose.bounds s.1)) {a : Attr}
    (hspread : a.isSpread = false)
    (hstill : targetOf f a = some g.name → (attrValue values a).isReactive = false)
    (later : List String) :
    (g.loose.regime f).Does () s (bindAttr f (machine f k) values g.node later a)
      (bindAttr f (machine f (k + 1)) values g.node later a) fun _ _ => True := by
  by_cases htarget : targetOf f a = some g.name
  · rcases hname : a.name? with _ | name
    · rw [targetOf, hname] at htarget
      cases htarget
    · rw [bindAttr_eq _ _ _ _ hname, bindAttr_eq _ _ _ _ hname]
      have hplain := hstill htarget
      have hwithin : (attrValue values a).Within (g.loose.bounds s.1) := by
        cases a with
        | dynamic name i quote => exact within_valueAt hvalues i
        | mixed name parts quote => exact within_joinedValue hvalues parts
        | flag name => exact .bool true
        | fixed name value quote => exact .text value
        | spread i => exact .empty
      have hone (c : Calls) : bindValue f c g.node name (attrValue values a) =
          applySetter f c g.node (f.policy.resolve name).1.setter (f.policy.resolve name).2
            (attrValue values a) := by
        rw [bindValue]
        generalize attrValue values a = v at hplain
        cases v <;> first
          | rfl
          | cases hplain
      rw [hone, hone]
      have hnode : (g.loose.bounds s.1).node g.node := s.2.lt_size
      exact Regime.applySetter_does haround.lawful (haround.serves k) hnode
        (writable_of_good fun _ _ _ => trivial) hwithin
  · refine haround.bindAttr_does ⟨htarget, fun i hi => ?_⟩ hvalues
    rw [hi] at hspread
    cases hspread

/-- All attributes of an element bound, the last of which is a spread. -/
theorem bindTag_spread (haround : g.Around f) (hholds : g.Holds f w) (howner : g.owner = none)
    {k : Nat} {values : List Value} (hvalues : ∀ v ∈ values, v.Within (g.bounds w)) {tag : Tag}
    {pre : List Attr} {i : Nat} (hattrs : tag.attrs = pre ++ [.spread i])
    (hpre : ∀ a ∈ pre, a.isSpread = false)
    (hstill : ∀ a ∈ pre, targetOf f a = some g.name → (attrValue values a).isReactive = false)
    (hplain : f.policy.resolve g.name = (Policy.fallback, g.name))
    (hsettles : Settles f g.types n g.name (valueAt values i))
    (hrun : bindTag f (machine f k) values g.node tag w = some ((), w')) :
    Secured f g (g.Brings f n (valueAt values i)) w w' := by
  have hloose : g.loose.Around f :=
    ⟨haround.policy, haround.tracking, haround.registry, lasting_loose f g⟩
  have hmarks : markPrebound f.policy false tag.attrs =
      markPrebound f.policy false pre ++ [(.spread i, false)] := by
    rw [hattrs, markPrebound_append]
    rfl
  rw [bindTag, hmarks] at hrun
  obtain ⟨s₁, hnext, hback⟩ := Regime.bindAttrs_front (G := g.loose.regime f) hloose.lawful
    (machine f (k + 1)) (s := ⟨w, hholds.toUnowned howner _⟩) (fun front a back heq s' hnext => by
      have hmem : a ∈ pre := by
        rw [← map_markPrebound f.policy false pre, heq]
        simp
      exact loose_bindAttr_does hloose (fun v hv => (hvalues v hv).mono (g.bounds_mono hnext.1))
        (hpre a hmem) (hstill a hmem) _) hrun
  rw [bindAttrs, if_neg (by simp)] at hback
  obtain ⟨⟨⟨⟩, w₂⟩, hspread, hend⟩ := Option.bind_eq_some_iff.mp hback
  obtain rfl : w₂ = w' := by simpa [bindAttrs] using Option.some.inj hend
  obtain ⟨g', hsecures, hholds', hgood', hsize⟩ := bindSpread_secures hloose s₁.2 rfl hplain
    ((within_valueAt hvalues i).mono (g.bounds_mono hnext.1)) hsettles hspread
  refine ⟨g', ⟨hsecures.types, hsecures.stored, hsecures.node, hsecures.name, hsecures.lasting,
    hsecures.shows⟩, hholds', hgood', Nat.le_trans hnext.1 hsize⟩

end Guard

/-- The last attribute of an element is a spread, and no reader is bound in front of it to the
    attribute `name`: whenever the spread has an entry that comes to a scalar there, the attribute
    holds that. -/
theorem renderContainer_spread_last {T : Types} {w w₁ w₂ : World} {source : Compiled}
    {values : List Value} {slot root k : Nat} {nodes : List Node} {tag : Tag} {id i : Nat}
    {name : String} {pre : List Attr} {v : Value} (hpolicy : f.policy = .usual)
    (htracking : f.tracking = true)
    (hregistry : ∀ name body, f.registry.get? name = some body → body.Keeps T)
    (hproper : w.Proper T) (hvalues : ∀ v ∈ values, v.Within (Bounds.typed T w.page.size))
    (hsource : (Bounds.typed T w.page.size).source source)
    (hskeleton : source.skeleton? slot = some root)
    (hfurnished : Furnished f.toSetup 0 w.page (some root) nodes)
    (hplace : (.element tag, id) ∈ places f w.page root nodes)
    (hattrs : tag.attrs = pre ++ [.spread i]) (hpre : ∀ a ∈ pre, a.isSpread = false)
    (hplain : f.policy.resolve name = (Policy.fallback, name))
    (hstill : ∀ a ∈ pre, targetOf f a = some name → (attrValue values a).isReactive = false)
    (hsettles : Settles f T n name (valueAt values i))
    (hrun : renderContainer f (machine f k) source values slot nodes w = some (v, w₁))
    (hlater : Afterwards f T v w₁ w₂) {ps : Props} {e : Entry} {u : Value}
    (hps : entriesNow f w₂.held n (valueAt values i) = some ps) (he : Sole f name ps e)
    (hu : currently w₂.held n e.toValue = some u) :
    findAttribute (w₂.page.attributes id) name = (writeOf f name u).entry f.config name := by
  obtain ⟨start, hstart⟩ : ∃ start,
      findAttribute (Sprouts.copied f.elementOf tag).attributes name = start := ⟨_, rfl⟩
  have haround : (Guard.outset T w.stored id name start).Around f :=
    ⟨hpolicy, htracking, hregistry, Guard.lasting_kept f _ _⟩
  obtain ⟨g', hsecures, hholds, hgood, hv⟩ := renderContainer_secures
    (P := (Guard.outset T w.stored id name start).Brings f n (valueAt values i)) hpolicy htracking
    hregistry hproper hvalues hsource hskeleton hfurnished hplace hstart
    (fun w₃ w₄ hholds _ hvalues hbind => Guard.bindTag_spread haround hholds rfl hvalues hattrs hpre
      hstill hplain hsettles hbind) hrun
  have htypes : g'.types = T := hsecures.types
  obtain ⟨hholds₂, hgood₂, -⟩ := Afterwards.good (g := g') (htypes ▸ hlater)
    (haround.of_secures hsecures) hholds hgood hv
  exact hsecures.shows w₂ hholds₂ hgood₂ ps e u hps he hu

/-! ### A spread over a title -/

def overLiteral : Literal := ⟨"over", ["<p title='x' lang=", " ...", "></p>"]⟩

def overTag : Tag :=
  ⟨"p", [.fixed "title" "x" (some .single), .dynamic "lang" 0 none, .spread 1], false, none⟩

/-- One title or another. -/
def overScript : Script :=
  .choose "s" (.spread [("title", false, .peek "s")]) (.spread [("title", true, .text "off")])

def overValues : List Value := [.reactive (.signal "n"), .reactive (.script none overScript)]

/-- The spread changes, then the other attribute, then the spread again. -/
def overWrites : List (String × Script) := [("s", .empty), ("n", .text "de"), ("s", .text "again")]

/-- The text that the signal holds. -/
def overSeen (w : World) : Option String :=
  match w.held "s" with
  | .text t => some t
  | _ => none

theorem held_of_overSeen {w : World} {t : String} (h : overSeen w = some t) :
    w.held "s" = .text t := by
  rw [overSeen] at h
  split at h
  · rename_i u hu
    rw [hu, Option.some.inj h]
  · cases h

theorem trial_over :
    trial tallyFactory 9 overLiteral [("s", .text "on"), ("n", .text "en")] overValues overWrites
      overSeen =
    some (⟨[.element overTag []], 1⟩, [3], some "again") := by
  decide +kernel

theorem keeps_over : overScript.Keeps textual := by
  have hpeek (name : String) : (Script.peek name).Keeps textual := .intro nofun nofun nofun
  have htext (s : String) : (Script.text s).Keeps textual := .intro nofun nofun nofun
  have hspread (name : String) (moving : Bool) (code : Script) (h : code.Keeps textual) :
      (Script.spread [(name, moving, code)]).Keeps textual :=
    .intro (List.forall_mem_singleton.mpr h) nofun nofun
  exact .intro (List.forall_mem_cons.mpr ⟨hspread _ _ _ (hpeek "s"),
    List.forall_mem_singleton.mpr (hspread _ _ _ (htext "off"))⟩) nofun nofun

/-- What the spread is while the signal holds a text that is true. -/
theorem spreadNow_over {σ : String → Script} {t : String} (h : σ "s" = .text t) (ht : t ≠ "") :
    spreadNow tallyFactory σ 3 (.script none overScript) =
      some ([("title", .immediate (.text t))], ["s", "s"]) := by
  have hquiet : (tallyFactory.policy.resolve "title").1.setter.callback? (.text t) = none := by
    cases (tallyFactory.policy.resolve "title").1.setter <;> rfl
  simp [spreadNow, overScript, tellReader, tell, tellEntries, tellApplied, tellEntry, h,
    Script.isTruthy, ht, Told.after, Props.set, Entry.toValue, hquiet]

/-- What it is otherwise. -/
theorem spreadNow_over_else {σ : String → Script} (h : (σ "s").isTruthy = false) :
    spreadNow tallyFactory σ 3 (.script none overScript) =
      some ([("title", .reactive (.script none (.text "off")))], ["s"]) := by
  simp [spreadNow, overScript, tellReader, tell, tellEntries, tellApplied, tellEntry, h, Told.after,
    Props.set, Entry.toValue, showReader, showScript]

/-- The title follows the spread through all of that. -/
theorem renderContainer_spread_last_title :
    ∃ source w₀ v w₁ w₂, compile tallyFactory overLiteral
        (.initial [("s", .text "on"), ("n", .text "en")]) = some (.ok source, w₀) ∧
      renderContainer tallyFactory (machine tallyFactory 9) source overValues rootSlot
        source.tree.children w₀ = some (v, w₁) ∧
      writeAll (machine tallyFactory 9) overWrites w₁ = some ((), w₂) ∧
      findAttribute (w₂.page.attributes 3) "title" =
        (writeOf tallyFactory "title" (.text "again")).entry tallyFactory.config "title" := by
  have hinitial : (World.initial [("s", .text "on"), ("n", .text "en")]).Proper textual :=
    proper_textual (by simp [textual])
  obtain ⟨source, w₀, root, v, w₁, w₂, hcompile, hskeleton, hrender, hwrites, hseen, hproper,
    hsource, hfurnished, hplace, -⟩ :=
    exists_trial hinitial (by decide +kernel) trial_over
  refine ⟨source, w₀, v, w₁, w₂, hcompile, hrender, hwrites, ?_⟩
  have hwithin : ∀ v ∈ overValues, v.Within (Bounds.typed textual w₀.page.size) :=
    List.forall_mem_cons.mpr ⟨.reactive (.signal trivial),
      List.forall_mem_singleton.mpr (.reactive (.script (fun ps hps => by cases hps) keeps_over))⟩
  have htyped : ∀ p ∈ overWrites, textual p.1 p.2 := by simp [overWrites, textual]
  have hattrs : overTag.attrs =
      [.fixed "title" "x" (some .single), .dynamic "lang" 0 none] ++ [.spread 1] := rfl
  have hsole : Sole tallyFactory "title" [("title", .immediate (.text "again"))]
      (.immediate (.text "again")) := ⟨[], [], rfl, fun p hp => absurd hp List.not_mem_nil⟩
  refine renderContainer_spread_last (T := textual) (n := 3) rfl rfl
    (fun _ _ h => by cases h) hproper hwithin hsource hskeleton hfurnished hplace hattrs
    (by decide) resolve_title ?_ ?_ hrender
    (Afterwards.refl.writeAll (fun p hp => ⟨htyped p hp, keeps_textual (htyped p hp)⟩) hwrites)
    ?_ hsole rfl
  · exact List.forall_mem_cons.mpr ⟨fun _ => rfl,
      List.forall_mem_singleton.mpr fun h => absurd h (by decide +kernel)⟩
  · intro σ hσ
    rcases htrue : (σ "s").isTruthy with _ | _
    · exact ⟨_, spreadNow_over_else htrue⟩
    · rcases hσ "s" with h | ⟨t, h⟩
      · rw [h] at htrue
        cases htrue
      · rw [h] at htrue
        exact ⟨_, spreadNow_over h (by simpa [Script.isTruthy] using htrue)⟩
  · have hnow := spreadNow_over (held_of_overSeen hseen) (by decide)
    have hvalue : valueAt overValues 1 = .reactive (.script none overScript) := rfl
    rw [hvalue, entriesNow, hnow]
    rfl

/-! ### Readers in front of a spread -/

/-- A title, and a spread behind it that has one too. -/
def frontFactory : Factory :=
  { plainFactory with literals := [⟨"front", ["<p title=", " ...", "></p>"]⟩] }

/-- The title in front is a reader, and the spread is none. -/
def frontShow : Step :=
  .display "front" [.signal "s", .spread [("title", false, .text "spread")]] "main"

/-- The spread is written once, and the reader in front again whenever its signal is written. -/
theorem spread_overwritten :
    (showAfter frontFactory 20 [frontShow] (.initial [("s", .text "explicit")])).map (·.1) =
        some [("main", "<p title=\"spread\"></p>")] ∧
      (showAfter frontFactory 20 [frontShow, .set "s" (.text "later")]
          (.initial [("s", .text "explicit")])).map (·.1) =
        some [("main", "<p title=\"later\"></p>")] := by
  decide +kernel

end Stencil.Render
