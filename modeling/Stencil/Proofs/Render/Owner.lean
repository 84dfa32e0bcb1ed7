/-
  Stencil/Proofs/Render/Owner.lean
  ================================
  **Attributes that show a value for good.**

  A value bound to the name of a plain attribute is written once, or it is a reader, and
  then the attribute has an owner: an effect that writes it again whenever a signal that
  it has read is written.  Either way the attribute holds what the value comes to now
  (`currently`), and what is known of it lasts (`Guard.lasting_kept`,
  `Guard.lasting_following`).
-/
import Stencil.Proofs.Render.Guard
import Stencil.Proofs.Render.Shared

namespace Stencil.Render

open Document Markup

/-- What a value comes to while the signals hold `σ`, if that is a scalar. -/
def currently (σ : String → Script) (n : Nat) : Value → Option Value
  | .reactive r => (showReader σ n r).bind fun x => x.yield.scalar?
  | v => (Yield.ofScalar? v).bind Yield.scalar?

/-- A value that is no reader comes to itself. -/
theorem eq_of_currently {σ : String → Script} {n : Nat} {v u : Value} (hv : v.isReactive = false)
    (h : currently σ n v = some u) : u = v ∧ Setter.content v ≠ .unusable := by
  have hstill : (Yield.ofScalar? v).bind Yield.scalar? = some u := by
    cases v <;> first
      | exact h
      | cases hv
  obtain ⟨y, hy, hscalar⟩ := Option.bind_eq_some_iff.mp hstill
  have hsame : y.scalar? = some v := by
    cases v <;> first
      | (obtain rfl := Option.some.inj hy; rfl)
      | cases hy
  exact ⟨Option.some.inj (hscalar.symm.trans hsame), content_scalar hsame⟩

namespace Guard

variable {f : Factory} {g : Guard} {w w' : World}

theorem Alike.watches (h : g.Alike w w') {i : Nat} {reads : List String}
    (hwatches : Watches w.graph i reads) : Watches w'.graph i reads := by
  intro x hx hsome
  rw [h.cell] at hsome
  exact h.subscribers x i (hwatches x hx hsome)

/-! ### Values that stay -/

/-- The attribute is this, and nothing is bound to it. -/
def kept (g : Guard) (a : Option Attribute) : Guard :=
  { g with owner := none, good := fun w => g.value w = a }

theorem lasting_kept (f : Factory) (g : Guard) (a : Option Attribute) : (g.kept a).Lasting f where
  alike w w' h hgood := by
    have hsame : g.value w' = g.value w := h.value
    exact hsame.trans hgood
  unread w name code _ hgood := hgood
  reruns _ _ _ _ _ howner := by cases howner

/-! ### Runs of the owner -/

/-- The owner has run, and the element is still one. -/
theorem Holds.rerun (h : g.Holds f w) {i : Nat} {b : Binding} {reads : List String}
    (howner : g.owner = some (i, b)) (hrerun : Rerun w w' i b reads) (hforest : w'.page.IsForest)
    (hsize : w.page.size ≤ w'.page.size) (helement : ∃ e, w'.page.element? g.node = some e) :
    g.Holds f w' where
  forest := hforest
  element := helement
  stored p hp := (h.stored p (hrerun.stored ▸ hp)).mono (g.bounds_mono hsize)
  containers p hp := Nat.lt_of_lt_of_le (h.containers p (hrerun.containers ▸ hp)) hsize
  cached p hp source hsource :=
    (g.bounds_mono hsize).source source (h.cached p (hrerun.cache ▸ hp) source hsource)
  apt := {
    live := hrerun.live.trans h.apt.live
    signals := hrerun.held ▸ h.apt.signals
    owned := fun j b' hj => by
      obtain ⟨rfl, rfl⟩ := by simpa using howner.symm.trans hj
      rw [hrerun.graph.effect, if_pos rfl]
    effects := fun j e he => by
      by_cases hj : j = i
      · exact Or.inl ⟨b, hj ▸ howner⟩
      · rw [hrerun.graph.effect, if_neg hj] at he
        exact (h.apt.effects j e he).imp_right fun hb => hb.mono hsize
    stored := hrerun.stored.trans h.apt.stored }

/-! ### Taking over where nothing is bound -/

/-- Where nothing is bound to the attribute, all effects are harmless. -/
theorem Apt.admits (h : g.Apt f w) (howner : g.owner = none) {i : Nat}
    {e : Signal.Effect Binding} (he : w.graph.effects[i]? = some e) : g.Admits f w e.body := by
  refine (h.effects i e he).resolve_left ?_
  rw [howner]
  rintro ⟨b, hb⟩
  cases hb

/-- Where nothing is bound to the attribute, anything may be said of it. -/
theorem Holds.toUnowned (h : g.Holds f w) (howner : g.owner = none) (good : World → Prop) :
    Holds f { g with owner := none, good := good } w :=
  ⟨h.forest, h.element, h.stored, h.containers, h.cached, h.apt.live, h.apt.signals,
    fun _ _ hi => (by cases hi), fun _ _ he => Or.inr (h.apt.admits howner he), h.apt.stored⟩

/-- Where nothing is bound to the attribute, a binding to it may be registered. -/
theorem Holds.toOwned (h : g.Holds f w) (howner : g.owner = none) (b : Binding)
    (good : World → Prop) :
    Holds f { g with owner := some (w.graph.effects.size, b), good := good }
      { w with graph := (w.graph.register b).2 } := by
  refine ⟨h.forest, h.element, h.stored, h.containers, h.cached, h.apt.live, h.apt.signals, ?_, ?_,
    h.apt.stored⟩
  · intro i b' hi
    obtain ⟨rfl, rfl⟩ : w.graph.effects.size = i ∧ b = b' := by simpa using hi
    exact register_effect w b
  · intro i e he
    rw [Signal.Graph.effects_register] at he
    split at he
    · rename_i hi
      exact Or.inl ⟨b, by rw [hi]⟩
    · exact Or.inr (h.apt.admits howner he)

/-! ### Values that follow a reader -/

/-- The owner of the attribute is effect `i`, which writes what `r` yields. -/
def following (f : Factory) (g : Guard) (n i : Nat) (r : Reader) : Guard :=
  { g with
    owner := some (i, .attribute g.node .plain g.name r)
    good := fun w => ∃ x, showReader w.held n r = some x ∧ Watches w.graph i x.reads ∧
      ∀ v, x.yield.scalar? = some v → g.value w = (writeOf f g.name v).entry f.config g.name }

theorem entry_plain (hplain : f.policy.resolve g.name = (Policy.fallback, g.name)) {v : Value}
    (hcontent : Setter.content v ≠ .unusable) (e : ElementState) :
    findAttribute (Setter.plain.write f.config g.name v e).attributes g.name =
      (writeOf f g.name v).entry f.config g.name := by
  have hwrite : writeOf f g.name v = ⟨.plain, g.name, v⟩ := by rw [writeOf, hplain]; rfl
  rw [hwrite]
  exact Write.apply_whole (w := ⟨.plain, g.name, v⟩) rfl rfl hcontent

theorem lasting_following {n : Nat} {r : Reader} (i : Nat)
    (hplain : f.policy.resolve g.name = (Policy.fallback, g.name))
    (hshows : ∀ σ, (∀ x, g.types x (σ x)) → ∃ x, showReader σ n r = some x) :
    (g.following f n i r).Lasting f where
  alike w w' h hgood := by
    obtain ⟨x, hshow, hwatches, hvalue⟩ := hgood
    have hsame : g.value w' = g.value w := h.value
    exact ⟨x, h.held ▸ hshow, h.watches hwatches, fun v hv => hsame.trans (hvalue v hv)⟩
  unread w name code hunread hgood := by
    obtain ⟨x, hshow, hwatches, hvalue⟩ := hgood
    have hheld := held_write_unread code hwatches (hunread _ _ rfl)
    exact ⟨x, showReader_congr hshow (Nat.le_refl _) hheld, watches_write code hwatches, hvalue⟩
  reruns j b m w w' howner h hrun := by
    obtain ⟨rfl, rfl⟩ : i = j ∧ Binding.attribute g.node .plain g.name r = b := by
      simpa [following] using howner
    obtain ⟨x, hshow⟩ := hshows w.held fun x => (h.apt.signals x).1
    obtain ⟨e, he⟩ := h.element
    obtain ⟨⟨c, q, cs⟩, hnode, hcontent⟩ := Option.map_eq_some_iff.mp (element?_eq_some.mp he)
    obtain rfl : c = .element e := hcontent
    -- a renderer that is deep enough comes to the same
    have hdeep := effect_le (Nat.le_max_left m (3 * n + 3)) hrun
    obtain ⟨w₁, v, hfits, hrun', hrerun, hforest, hsize, hnode', -⟩ :=
      effect_attribute_fits f (Nat.le_max_right m (3 * n + 3)) h.apt.live (h.apt.owned _ _ rfl)
        hshow
        (fun _ _ => rfl) h.forest hnode
    obtain rfl : w' = w₁ := by simpa using hdeep.symm.trans hrun'
    have helement : w'.page.element? g.node = some (Setter.plain.write f.config g.name v e) :=
      element?_eq_some.mpr (by rw [content?, hnode']; rfl)
    refine ⟨h.rerun rfl hrerun hforest hsize ⟨_, helement⟩, hsize, x, hrerun.held ▸ hshow,
      hrerun.watches.1, fun u hu => ?_⟩
    obtain rfl := eq_of_fits hfits hu
    rw [value, attributes, helement]
    exact entry_plain hplain (content_scalar hu) e

/-! ### Binding a value -/

/-- The guard `g'` is on the same attribute as `g`, what it knows lasts and makes `P` true. -/
structure Secures (f : Factory) (g g' : Guard) (P : World → Prop) : Prop where
  types : g'.types = g.types
  stored : g'.stored = g.stored
  node : g'.node = g.node
  name : g'.name = g.name
  lasting : g'.Lasting f
  shows : ∀ w, g'.Holds f w → g'.good w → P w

/-- The attribute holds what the value comes to now. -/
def Shows (f : Factory) (g : Guard) (n : Nat) (v : Value) (w : World) : Prop :=
  ∀ u, currently w.held n v = some u → g.value w = (writeOf f g.name u).entry f.config g.name

theorem secures_kept {n : Nat} {v : Value} (hv : v.isReactive = false) :
    Secures f g (g.kept ((writeOf f g.name v).entry f.config g.name)) (g.Shows f n v) where
  types := rfl
  stored := rfl
  node := rfl
  name := rfl
  lasting := lasting_kept f g _
  shows w _ hgood u hu := by
    obtain ⟨rfl, -⟩ := eq_of_currently hv hu
    exact hgood

theorem secures_following {n : Nat} {r : Reader} (i : Nat)
    (hplain : f.policy.resolve g.name = (Policy.fallback, g.name))
    (hshows : ∀ σ, (∀ x, g.types x (σ x)) → ∃ x, showReader σ n r = some x) :
    Secures f g (g.following f n i r) (g.Shows f n (.reactive r)) where
  types := rfl
  stored := rfl
  node := rfl
  name := rfl
  lasting := lasting_following i hplain hshows
  shows w _ hgood u hu := by
    obtain ⟨x, hshow, -, hvalue⟩ := hgood
    rw [currently, hshow] at hu
    exact hvalue u hu

/-- A scalar or a reader bound to the name of the attribute, to which nothing was bound before. -/
theorem bindValue_secures (htracking : f.tracking = true)
    (hplain : f.policy.resolve g.name = (Policy.fallback, g.name)) (h : g.Holds f w)
    (howner : g.owner = none) {n k : Nat} {v : Value}
    (hstill : v.isReactive = false → Setter.content v ≠ .unusable)
    (hshows : ∀ r, v = .reactive r → ∀ σ, (∀ x, g.types x (σ x)) → ∃ x, showReader σ n r = some x)
    (hrun : bindValue f (machine f k) g.node g.name v w = some ((), w')) :
    ∃ g', Secures f g g' (g.Shows f n v) ∧ g'.Holds f w' ∧ g'.good w' ∧
      w.page.size ≤ w'.page.size := by
  by_cases hv : v.isReactive = true
  · obtain ⟨r, rfl⟩ := exists_reader hv
    have hnew : bindValue f (machine f k) g.node g.name (.reactive r) w =
        newBinding f (machine f k) (.attribute g.node .plain g.name r) w := by
      rw [bindValue, hplain]
      rfl
    rw [hnew, newBinding_eq htracking] at hrun
    have hsecures := secures_following (n := n) w.graph.effects.size hplain (hshows r rfl)
    obtain ⟨hholds, hsize, hgood⟩ :=
      hsecures.lasting.reruns _ _ k _ w' rfl (h.toOwned howner _ _) hrun
    exact ⟨_, hsecures, hholds, hgood, hsize⟩
  · rw [Bool.not_eq_true] at hv
    have happly : bindValue f (machine f k) g.node g.name v w = some ((), { w with
        page := w.page.updateElement g.node (Setter.plain.write f.config g.name v) }) := by
      have hsetter : bindValue f (machine f k) g.node g.name v w =
          applySetter f (machine f k) g.node .plain g.name v w := by
        rw [bindValue, hplain]
        cases v <;> first
          | rfl
          | cases hv
      have hquiet : Setter.plain.callback? v = none := by cases v <;> rfl
      rw [hsetter, applySetter, hquiet, run_bind (run_changePage _ w)]
      rfl
    obtain rfl :
      { w with page := w.page.updateElement g.node (Setter.plain.write f.config g.name v) } =
        w' := by simpa using happly.symm.trans hrun
    obtain ⟨e, he⟩ := h.element
    have hnew := element?_updateElement he (Setter.plain.write f.config g.name v)
    have hsize : w.page.size ≤
        (w.page.updateElement g.node (Setter.plain.write f.config g.name v)).size :=
      Nat.le_of_eq (size_updateElement _ _ _).symm
    have hkept := h.toUnowned howner (g.kept ((writeOf f g.name v).entry f.config g.name)).good
    refine ⟨_, secures_kept hv, ?_, ?_, hsize⟩
    · exact hkept.onPage (h.forest.updateElement _ _) hsize ⟨_, hnew⟩ (hkept.apt.onPage hsize)
    · change findAttribute (attributes _ g.node) g.name = _
      rw [attributes, hnew]
      exact entry_plain hplain (hstill hv) e

end Guard
end Stencil.Render
