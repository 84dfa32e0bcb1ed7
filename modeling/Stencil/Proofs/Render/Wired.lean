/-
  Stencil/Proofs/Render/Wired.lean
  ================================
  **Rendering a container with readers.**

  Every reader becomes a binding, and every binding an effect that runs at once.
  `Wires w w' bs` says what making the bindings `bs` does to the signals: they are the
  last effects, each shows what its reader yields, and each is a subscriber of what was
  read for that.  This relation is what the bindings of a container have to keep for
  `renderContainer_copy`, one by one: `fills_content` for a hole and `dresses_tag` for an
  element.
-/
import Stencil.Proofs.Render.Bound
import Stencil.Proofs.Render.Rerun

namespace Stencil.Render

open Document Document.Plant Markup

/-! ### New effects -/

/-- The effect is a subscriber of all these signals, as far as they are there. -/
def Watches (g : SignalGraph) (id : Nat) (reads : List String) : Prop :=
  ∀ name ∈ reads, (g.cell? name).isSome = true → id ∈ g.subscribers name

/-- The bindings have become the last effects, each is up to date, and nothing else about the
    signals has changed. -/
structure Wires (n : Nat) (w w' : World) (bs : List Bound) : Prop where
  size : w'.graph.effects.size = w.graph.effects.size + bs.length
  old : ∀ j : Nat, j < w.graph.effects.size → w'.graph.effects[j]? = w.graph.effects[j]?
  new : ∀ (i : Nat) b, bs[i]? = some b →
    w'.graph.effects[w.graph.effects.size + i]? = some ⟨b.1, false⟩
  held : w'.held = w.held
  cell : ∀ name, (w'.graph.cell? name).isSome = (w.graph.cell? name).isSome
  kept : ∀ name (j : Nat), j ∈ w.graph.subscribers name → j ∈ w'.graph.subscribers name
  added : ∀ name (j : Nat), j ∈ w'.graph.subscribers name → j ∈ w.graph.subscribers name ∨
    w.graph.effects.size ≤ j ∧ j < w'.graph.effects.size
  current : ∀ (i : Nat) b, bs[i]? = some b → ∃ reads, Current w.held n b reads ∧
    Watches w'.graph (w.graph.effects.size + i) reads
  cache : w'.cache = w.cache
  live : w'.live = w.live

namespace Wires

variable {n : Nat} {w w₁ w' : World} {as bs : List Bound}

/-- Nothing about the signals has changed. -/
theorem of_quiet (h : Quiet w w') : Wires n w w' [] := by
  exact ⟨by rw [h.graph]; rfl, fun _ _ => by rw [h.graph], fun i b hb => by simp at hb,
    World.held_congr h.graph,
    fun _ => by rw [h.graph], fun _ _ hj => h.graph.symm ▸ hj, fun _ _ hj => Or.inl (h.graph ▸ hj),
    fun i b hb => by simp at hb, h.cache, h.live⟩

theorem trans (h : Wires n w w₁ as) (h' : Wires n w₁ w' bs) : Wires n w w' (as ++ bs) := by
  have hsize : w'.graph.effects.size = w.graph.effects.size + (as ++ bs).length := by
    rw [h'.size, h.size, List.length_append]
    omega
  -- an entry is one of the first or one of the others
  have hcases (i : Nat) (b : Bound) (hb : (as ++ bs)[i]? = some b) :
      i < as.length ∧ as[i]? = some b ∨
        ∃ k, i = as.length + k ∧ bs[k]? = some b := by
    by_cases hi : i < as.length
    · exact Or.inl ⟨hi, by rwa [List.getElem?_append_left hi] at hb⟩
    · rw [List.getElem?_append_right (by omega)] at hb
      exact Or.inr ⟨i - as.length, by omega, hb⟩
  refine ⟨hsize, fun j hj => ?_, fun i b hb => ?_, h'.held.trans h.held,
    fun name => (h'.cell name).trans (h.cell name),
      fun name j hj => h'.kept name j (h.kept name j hj),
    fun name j hj => ?_, fun i b hb => ?_, h'.cache.trans h.cache, h'.live.trans h.live⟩
  · rw [h'.old j (by rw [h.size]; omega), h.old j hj]
  · rcases hcases i b hb with ⟨hi, hfirst⟩ | ⟨k, rfl, hsecond⟩
    · rw [h'.old _ (by rw [h.size]; omega), h.new i b hfirst]
    · have hnew := h'.new k b hsecond
      rwa [h.size, Nat.add_assoc] at hnew
  · rcases h'.added name j hj with hj | ⟨hlow, hhigh⟩
    · rcases h.added name j hj with hj | ⟨hlow, hhigh⟩
      · exact Or.inl hj
      · exact Or.inr ⟨hlow, by rw [h'.size]; omega⟩
    · exact Or.inr ⟨by rw [h.size] at hlow; omega, hhigh⟩
  · rcases hcases i b hb with ⟨hi, hfirst⟩ | ⟨k, rfl, hsecond⟩
    · obtain ⟨reads, hcurrent, hwatches⟩ := h.current i b hfirst
      refine ⟨reads, hcurrent, fun name hname hsome => h'.kept name _ (hwatches name hname ?_)⟩
      rw [← h'.cell]
      exact hsome
    · obtain ⟨reads, hcurrent, hwatches⟩ := h'.current k b hsecond
      rw [h.held] at hcurrent
      rw [h.size, Nat.add_assoc] at hwatches
      exact ⟨reads, hcurrent, hwatches⟩

theorem all_current (h : Wires n w w' bs) : ∀ b ∈ bs, ∃ reads, Current w.held n b reads := by
  intro b hb
  obtain ⟨i, hi⟩ := List.getElem?_of_mem hb
  obtain ⟨reads, hcurrent, -⟩ := h.current i b hi
  exact ⟨reads, hcurrent⟩

/-- A binding made and run for the first time. -/
theorem of_rerun {b b' : Binding} {y : Yield} {reads : List String}
    (h : Rerun { w with graph := (w.graph.register b).2 } w' w.graph.effects.size b' reads)
    (hcurrent : Current w.held n (b', y) reads) : Wires n w w' [(b', y)] := by
  have hsize : w'.graph.effects.size = w.graph.effects.size + 1 := by
    rw [h.graph.size]
    simp [Signal.Graph.register]
  refine ⟨hsize, fun j hj => ?_, fun i x hx => ?_, h.held, fun name => h.graph.isSome_cell? name,
    fun name j hj => h.graph.mem_subscribers.mpr (Or.inl hj), fun name j hj => ?_, fun i x hx => ?_,
    h.cache, h.live⟩
  · rw [h.graph.effect, if_neg (Nat.ne_of_lt hj)]
    exact Array.getElem?_push_lt hj ▸ (Array.getElem?_eq_getElem hj).symm
  · rw [List.getElem?_singleton] at hx
    split at hx
    · rename_i hi
      obtain rfl := Option.some.inj hx
      rw [hi, h.graph.effect, if_pos (Nat.add_zero _)]
    · cases hx
  · rcases h.graph.mem_subscribers.mp hj with hj | ⟨rfl, -, -⟩
    · exact Or.inl hj
    · exact Or.inr ⟨Nat.le_refl _, by rw [hsize]; exact Nat.lt_succ_self _⟩
  · rw [List.getElem?_singleton] at hx
    split at hx
    · rename_i hi
      obtain rfl := Option.some.inj hx
      refine ⟨reads, hcurrent, fun name hname hsome => ?_⟩
      rw [hi, Nat.add_zero]
      refine h.graph.mem_subscribers.mpr (Or.inr ⟨rfl, hname, ?_⟩)
      rwa [h.graph.isSome_cell?] at hsome
    · cases hx

end Wires

/-- Where effects are kept, a new binding is an effect that runs at once. -/
theorem newBinding_eq {f : Factory} (htracking : f.tracking = true) (c : Calls) (b : Binding)
    (w : World) : newBinding f c b w =
      c.effect w.graph.effects.size { w with graph := (w.graph.register b).2 } := by
  rw [newBinding, if_pos htracking]
  rfl

theorem register_effect (w : World) (b : Binding) :
    (w.graph.register b).2.effects[w.graph.effects.size]? = some ⟨b, false⟩ := by
  simp [Signal.Graph.register]

/-! ### What is asked of a container -/

/-- An attribute is no spread, and it is fixed or goes by a rule that sets or removes its
    attribute. -/
def AttrSuits (f : Factory) (a : Attr) : Prop :=
  a.isSpread = false ∧ (a.isFixed = false →
    ∀ name, a.name? = some name → (f.policy.resolve name).1.setter.isWhole = true)

/-- The value of an attribute is a scalar, or yields one while the signals hold `σ`. -/
def AttrAnswers (values : List Value) (σ : String → Script) (n : Nat) (a : Attr) : Prop :=
  match attrValue values a with
  | .reactive r => ∃ x v, showReader σ n r = some x ∧ x.yield.scalar? = some v
  | v => v.isImmediate = true

/-- There is no component, and no two attributes of an element write the same one. -/
def Suits (f : Factory) : Point → Prop
  | .hole _ => True
  | .element tag => (∀ a ∈ tag.attrs, AttrSuits f a) ∧ (tag.attrs.filterMap (targetOf f)).Nodup
  | .component _ _ => False

/-- The values of a point can be shown while the signals hold `σ`. -/
def Answers (values : List Value) (σ : String → Script) (n : Nat) : Point → Prop
  | .hole i =>
    match valueAt values i with
    | .reactive r => ∃ x, showReader σ n r = some x
    | v => v.isImmediate = true
  | .element tag => ∀ a ∈ tag.attrs, AttrAnswers values σ n a
  | .component _ _ => True

/-! ### Holes -/

section

variable {f : Factory} {n k : Nat} {σ : String → Script} {base : Page}

/-- The renderer is at work, and the signals hold `σ`. -/
def Holds (σ : String → Script) (w : World) : Prop := w.live = true ∧ w.held = σ

theorem Holds.of_wires {w w' : World} {bs : List Bound} (h : Holds σ w) (hw : Wires n w w' bs) :
    Holds σ w' := ⟨hw.live.trans h.1, hw.held.trans h.2⟩

/-- A reader in the place of a marker: what it yields stands before the marker. -/
theorem fills_content (htracking : f.tracking = true) (hk : 3 * n + 3 ≤ k) {r : Reader} {x : Shown}
    (hshow : showReader σ n r = some x) :
    Fills base (Holds σ) (Wires n) (fun m => insertValue f (machine f k) m (.reactive r))
      fun ts bs => ∃ m cur y, ts = cur ++ [leaf m (.comment "")] ∧
        bs = [(.content m r (roots cur), y)] ∧ Plant.trees cur = y.trees := by
  intro w p m front back hw hext _ _ hm hplace
  obtain ⟨c, q, hnode⟩ := hplace
  have hheld :
      ({ w with graph := (w.graph.register (Binding.content m r [])).2 } : World).held = σ :=
    hw.2
  have heffect : (w.graph.register (Binding.content m r [])).2.effects[w.graph.effects.size]? =
      some ⟨.content m r (roots ([] : List (Plant Value Action))), false⟩ := register_effect w _
  obtain ⟨w', cur, hrun, hrerun, hgrown, htrees⟩ := effect_content f hk
    (w := { w with graph := (w.graph.register (.content m r [])).2 }) hw.1 heffect
    (hheld ▸ hshow) hext.forest ⟨hm, trivial⟩ ⟨c, q, hnode⟩
  have hwires : Wires n w w' [(.content m r (roots cur), x.yield)] :=
    Wires.of_rerun hrerun (hw.2 ▸ hshow)
  refine ⟨w', _, _, ?_, hw.of_wires hwires, hwires, ⟨m, cur, x.yield, rfl, rfl, htrees⟩, hgrown⟩
  change newBinding f (machine f k) (.content m r []) w = _
  rw [newBinding_eq htracking]
  exact hrun

/-! ### Elements -/

theorem reactive_of_isWhole (name : String)
    (h : (Policy.usual.resolve name).1.setter.isWhole = true) :
    (Policy.usual.resolve name).1.reactive = true := by
  rcases resolve_usual name with hmem | heq
  · have hall : ∀ r ∈ Policy.usual.rules, r.setter.isWhole = true → r.reactive = true := by
      simp [Policy.usual, Setter.isWhole]
    exact hall _ hmem h
  · rw [heq]
    rfl

theorem content_scalar {y : Yield} {v : Value} (h : y.scalar? = some v) :
    Setter.content v ≠ .unusable := by
  cases y with
  | bool b =>
    obtain rfl := Option.some.inj h
    cases b <;> simp [Setter.content]
  | element t => cases h
  | list items => cases h
  | _ =>
    obtain rfl := Option.some.inj h
    simp [Setter.content]

/-- A named attribute is bound as its value is. -/
theorem bindAttr_eq (c : Calls) (values : List Value) (id : NodeId) (later : List String) {a : Attr}
    {name : String} (h : a.name? = some name) :
    bindAttr f c values id later a = bindValue f c id name (attrValue values a) := by
  cases a with
  | spread i => cases h
  | _ =>
    obtain rfl := Option.some.inj h
    rfl

/-- The attributes that are yet to be written and those that are have different targets. -/
def Distinct (f : Factory) (as : List Attr) (done : List Write) : Prop :=
  (as.filterMap (targetOf f) ++ done.filterMap Write.target?).Nodup

theorem Distinct.new {a : Attr} {as : List Attr} {done : List Write}
    (h : Distinct f (a :: as) done) (t : String) (ht : targetOf f a = some t) (u : Write)
    (hu : u ∈ done) : u.target? ≠ some t := by
  intro hut
  rw [Distinct, List.filterMap_cons_some ht, List.cons_append, List.nodup_cons] at h
  exact h.1 (List.mem_append_right _ (List.mem_filterMap.mpr ⟨u, hu, hut⟩))

theorem Distinct.next {a : Attr} {as : List Attr} {ws done : List Write}
    (h : Distinct f (a :: as) done)
    (hws : ws.filterMap Write.target? = [a].filterMap (targetOf f)) :
    Distinct f as (ws ++ done) := by
  have hperm : (as.filterMap (targetOf f) ++
      ([a].filterMap (targetOf f) ++ done.filterMap Write.target?)).Perm
      ([a].filterMap (targetOf f) ++ as.filterMap (targetOf f) ++
        done.filterMap Write.target?) := by
    rw [← List.append_assoc]
    exact List.perm_append_comm.append_right _
  rw [Distinct, List.filterMap_append, hws]
  refine hperm.nodup_iff.mpr ?_
  rw [← List.filterMap_append]
  exact h

/-- What binding attributes makes of an element that wears what `done` writes. -/
structure Dressed (f : Factory) (n : Nat) (values : List Value) (id : NodeId) (as : List Attr)
    (ws done : List Write) (w w' : World) (e e' : ElementState) (bs : List Bound) : Prop where
  wires : Wires n w w' bs
  forest : w'.page.IsForest
  size_le : w.page.size ≤ w'.page.size
  frame : ∀ x : Nat, x < w.page.size → x ≠ id → w'.page.node? x = w.page.node? x
  name : e'.name = e.name
  space : e'.space = e.space
  worn : Worn f values id as bs ws
  wears : Wears f.config (ws ++ done) e'.attributes

theorem Dressed.trans {values : List Value} {id : NodeId} {as as' : List Attr}
    {ws ws' done : List Write} {w w₁ w' : World} {e e₁ e' : ElementState} {bs bs' : List Bound}
    (h : Dressed f n values id as ws done w w₁ e e₁ bs)
    (h' : Dressed f n values id as' ws' (ws ++ done) w₁ w' e₁ e' bs') :
    Dressed f n values id (as ++ as') (ws ++ ws') done w w' e e' (bs ++ bs') where
  wires := h.wires.trans h'.wires
  forest := h'.forest
  size_le := Nat.le_trans h.size_le h'.size_le
  frame x hx hne := by
    rw [h'.frame x (Nat.lt_of_lt_of_le hx h.size_le) hne, h.frame x hx hne]
  name := h'.name.trans h.name
  space := h'.space.trans h.space
  worn := worn_append h.worn h'.worn
  wears := h'.wears.congr fun w => by
    simp only [List.mem_append]
    tauto

/-- One attribute bound. -/
theorem bindAttr_dresses (hpolicy : f.policy = .usual) (htracking : f.tracking = true)
    (hk : 3 * n + 3 ≤ k) {values : List Value} {id : Nat} (later : List String) {a : Attr}
    (hsuits : AttrSuits f a) (hanswers : AttrAnswers values σ n a) {w : World} {e : ElementState}
    {q : Option NodeId} {cs : List NodeId} {done : List Write} (hw : Holds σ w)
    (hforest : w.page.IsForest) (hnode : w.page.node? id = some ⟨.element e, q, cs⟩)
    (hwears : Wears f.config done e.attributes)
    (hnew : ∀ t, targetOf f a = some t → ∀ u ∈ done, u.target? ≠ some t) :
    ∃ w' e' ws bs, bindAttr f (machine f k) values id later a w = some ((), w') ∧
      Dressed f n values id [a] ws done w w' e e' bs ∧
      w'.page.node? id = some ⟨.element e', q, cs⟩ := by
  obtain ⟨hspread, hwhole⟩ := hsuits
  obtain ⟨name, hname⟩ : ∃ name, a.name? = some name := by
    cases a with
    | spread i => cases hspread
    | _ => exact ⟨_, rfl⟩
  have hbuiltin : (f.policy.resolve name).1.setter.isBuiltIn = true :=
    hpolicy ▸ Setter.isBuiltIn_usual name
  have hadd (v : Value) : Wears f.config ([writeOf f name v] ++ done)
      ((writeOf f name v).apply f.config e).attributes := by
    refine hwears.add (w := writeOf f name v) hbuiltin fun t ht => hnew t ?_
    rw [targetOf, hname]
    exact ht
  have hkeeps (v : Value) := Setter.write_keeps hbuiltin f.config (f.policy.resolve name).2 v e
  rw [AttrAnswers] at hanswers
  by_cases hreader : (attrValue values a).isReactive = true
  · obtain ⟨r, hr⟩ := exists_reader hreader
    rw [hr] at hanswers
    obtain ⟨x, v, hshow, hscalar⟩ := hanswers
    have hfixed : a.isFixed = false := by
      cases a with
      | flag name => cases hr
      | fixed name value quote => cases hr
      | _ => rfl
    have hrule : (f.policy.resolve name).1.reactive = true := by
      have hset := hwhole hfixed name hname
      rw [hpolicy] at hset ⊢
      exact reactive_of_isWhole name hset
    obtain ⟨b, hb⟩ : ∃ b : Binding,
        b = .attribute id (writeOf f name v).setter (writeOf f name v).name r := ⟨_, rfl⟩
    have hheld : ({ w with graph := (w.graph.register b).2 } : World).held = σ := hw.2
    have heffect : (w.graph.register b).2.effects[w.graph.effects.size]? =
        some ⟨.attribute id (writeOf f name v).setter (writeOf f name v).name r, false⟩ := by
      rw [← hb]
      exact register_effect w b
    obtain ⟨w', hrun, hrerun, hforest', hsize, hnode', hframe⟩ := effect_attribute f hk
      (w := { w with graph := (w.graph.register b).2 }) hw.1 heffect
      (hheld ▸ hshow) hscalar hforest hnode
    have hwires : Wires n w w' [(b, x.yield)] := by
      rw [← hb] at hrerun
      refine Wires.of_rerun hrerun ?_
      rw [Current, hw.2, hb]
      exact hshow
    refine ⟨w', _, [writeOf f name v], _, ?_, ⟨hwires, hforest', hsize, hframe, (hkeeps v).1,
      (hkeeps v).2, hb ▸ .moving hname hr hscalar .nil, hadd v⟩, hnode'⟩
    have hsame : Binding.attribute id (f.policy.resolve name).1.setter (f.policy.resolve name).2 r =
        b := hb.symm
    rw [bindAttr_eq _ _ _ _ hname, hr, bindValue]
    simp only [hrule]
    rw [hsame, newBinding_eq htracking]
    exact hrun
  · have hplain : (attrValue values a).isReactive = false := by simpa using hreader
    have himmediate : (attrValue values a).isImmediate = true := by
      cases hv : attrValue values a <;> rw [hv] at hanswers hplain <;>
        first | exact hanswers | cases hplain
    obtain ⟨d, hd⟩ : ∃ d, d = w.page.updateElement id
      ((writeOf f name (attrValue values a)).apply f.config) := ⟨_, rfl⟩
    have hquiet : Quiet w { w with page := d } := ⟨rfl, rfl, rfl, rfl, rfl⟩
    have hrun : bindAttr f (machine f k) values id later a w = some ((), { w with page := d }) := by
      rw [bindAttr_eq _ _ _ _ hname, hd]
      exact bindValue_immediate f _ id name himmediate w
    refine ⟨_, _, [writeOf f name (attrValue values a)], [], hrun, ⟨Wires.of_quiet hquiet, ?_, ?_,
      fun x _ hx => ?_, (hkeeps _).1, (hkeeps _).2, .still hname hplain .nil, hadd _⟩, ?_⟩
    · exact hd ▸ hforest.updateElement id _
    · rw [hd, size_updateElement]
    · rw [hd, node?_updateElement]
      rcases w.page.node? x with _ | ⟨c, q, us⟩
      · rfl
      · cases c <;> simp [Ne.symm hx]
    · rw [hd, node?_updateElement, hnode]
      simp [writeOf, Write.apply]

/-- Attributes bound one after the other. -/
theorem bindAttrs_dresses (hpolicy : f.policy = .usual) (htracking : f.tracking = true)
    (hk : 3 * n + 3 ≤ k) {values : List Value} {id : Nat} {as : List (Attr × Bool)}
    (hsuits : ∀ a ∈ as, AttrSuits f a.1) (hanswers : ∀ a ∈ as, AttrAnswers values σ n a.1)
    {w : World} {e : ElementState} {q : Option NodeId} {cs : List NodeId} {done : List Write}
    (hw : Holds σ w) (hforest : w.page.IsForest)
    (hnode : w.page.node? id = some ⟨.element e, q, cs⟩)
    (hwears : Wears f.config done e.attributes)
    (hdistinct : Distinct f ((as.filter (!·.2)).map (·.1)) done) :
    ∃ w' e' ws bs, bindAttrs f (machine f k) values id as w = some ((), w') ∧
      Dressed f n values id ((as.filter (!·.2)).map (·.1)) ws done w w' e e' bs ∧
      w'.page.node? id = some ⟨.element e', q, cs⟩ := by
  induction as generalizing w e done with
  | nil =>
    exact ⟨w, e, [], [], rfl, ⟨Wires.of_quiet (Quiet.refl w), hforest, Nat.le_refl _,
      fun _ _ _ => rfl, rfl, rfl, .nil, hwears⟩, hnode⟩
  | cons a as ih =>
    obtain ⟨a, prebound⟩ := a
    obtain ⟨hsuits₁, hsuits₂⟩ := List.forall_mem_cons.mp hsuits
    obtain ⟨hanswers₁, hanswers₂⟩ := List.forall_mem_cons.mp hanswers
    cases prebound with
    | true =>
      obtain ⟨w', e', ws, bs, hrun, hrest⟩ := ih hsuits₂ hanswers₂ hw hforest hnode hwears hdistinct
      refine ⟨w', e', ws, bs, ?_, hrest⟩
      rw [bindAttrs]
      exact hrun
    | false =>
      have hall : Distinct f (a :: (as.filter (!·.2)).map (·.1)) done := hdistinct
      obtain ⟨w₁, e₁, ws, bs, hrun₁, hdressed, hnode₁⟩ := bindAttr_dresses hpolicy htracking hk
        (as.filterMap fun r => r.1.name?) hsuits₁ hanswers₁ hw hforest hnode hwears hall.new
      have hdistinct₁ := hall.next (targets_worn hdressed.worn)
      obtain ⟨w', e', ws', bs', hrun', hdressed', hnode'⟩ := ih hsuits₂ hanswers₂
        (hw.of_wires hdressed.wires) hdressed.forest hnode₁ hdressed.wears hdistinct₁
      refine ⟨w', e', ws ++ ws', bs ++ bs', ?_, hdressed.trans hdressed', hnode'⟩
      rw [bindAttrs, if_neg (by simp), run_bind hrun₁]
      exact hrun'

/-- The fixed attributes of an element that are written at once. -/
theorem applyAttrs_wears (hpolicy : f.policy = .usual) {as : List Attr} {e : ElementState}
    {done : List Write} (hwears : Wears f.config done e.attributes)
    (hdistinct : Distinct f as done) :
    Wears f.config
      ((as.filterMap fun a => a.name?.map fun name => writeOf f name a.fixedValue) ++ done)
      (f.applyAttrs Attr.fixedValue as e).attributes := by
  induction as generalizing e done with
  | nil => exact hwears
  | cons a as ih =>
    have hstep : f.applyAttrs Attr.fixedValue (a :: as) e =
        f.applyAttrs Attr.fixedValue as (f.applyAttr Attr.fixedValue a e) := rfl
    rw [hstep]
    rcases hname : a.name? with _ | name
    · have hsame : f.applyAttr Attr.fixedValue a e = e := by rw [Setup.applyAttr, hname]
      have htarget : targetOf f a = none := by rw [targetOf, hname]; rfl
      rw [hsame, List.filterMap_cons_none (by rw [hname]; rfl)]
      refine ih hwears ?_
      rwa [Distinct, List.filterMap_cons_none htarget] at hdistinct
    · have hone : f.applyAttr Attr.fixedValue a e =
          (writeOf f name a.fixedValue).apply f.config e := by rw [Setup.applyAttr, hname]; rfl
      have htarget : targetOf f a = (writeOf f name a.fixedValue).target? := by
        rw [targetOf, hname]
        rfl
      have hbuiltin : (f.policy.resolve name).1.setter.isBuiltIn = true :=
        hpolicy ▸ Setter.isBuiltIn_usual name
      have hadd : Wears f.config ([writeOf f name a.fixedValue] ++ done)
          ((writeOf f name a.fixedValue).apply f.config e).attributes :=
        hwears.add (w := writeOf f name a.fixedValue) hbuiltin fun t ht =>
          hdistinct.new t (htarget.trans ht)
      have htargets : [writeOf f name a.fixedValue].filterMap Write.target? =
          [a].filterMap (targetOf f) := by
        simp [List.filterMap_cons, htarget]
      rw [hone, List.filterMap_cons_some (by rw [hname]; rfl)]
      refine (ih hadd (hdistinct.next htargets)).congr fun w => ?_
      simp only [List.mem_append, List.mem_cons]
      tauto

theorem targets_preboundWrites (f : Factory) (tag : Tag) :
    (preboundWrites f tag).filterMap Write.target? =
      (f.preboundAttrs tag).filterMap (targetOf f) := by
  rw [preboundWrites, List.filterMap_filterMap]
  congr 1
  funext a
  rw [targetOf]
  cases a.name? <;> rfl

theorem distinct_boundAttrs {tag : Tag} (h : (tag.attrs.filterMap (targetOf f)).Nodup) :
    Distinct f (f.boundAttrs tag) (preboundWrites f tag) := by
  rw [Distinct, targets_preboundWrites, ← List.filterMap_append]
  exact ((f.perm_boundAttrs tag).filterMap _).nodup_iff.mpr h

/-- The copy of an element with all its attributes bound. -/
theorem dresses_tag (hpolicy : f.policy = .usual) (htracking : f.tracking = true)
    (hk : 3 * n + 3 ≤ k) {values : List Value} (source : Compiled) {tag : Tag}
    (hsuits : Suits f (.element tag)) (hanswers : Answers values σ n (.element tag)) :
    Dresses base (Holds σ) (Wires n)
      (fun id => bindPoint f (machine f k) source values id (.element tag))
      (Sprouts.copied f.elementOf tag) ((liveReading f values).element tag) := by
  obtain ⟨hattrs, hnodup⟩ := hsuits
  have hdistinct := distinct_boundAttrs hnodup
  have hprebound : Wears f.config (preboundWrites f tag)
      (Sprouts.copied f.elementOf tag).attributes := by
    have hfirst : Distinct f (f.preboundAttrs tag) [] := by
      rw [Distinct, targets_preboundWrites] at hdistinct
      rw [Distinct, List.filterMap_nil, List.append_nil]
      exact (List.nodup_append.mp hdistinct).2.1
    have hwears := applyAttrs_wears hpolicy Wears.nil hfirst
      (e := ⟨tag.name, if tag.svg then .svg else .html, [], [], []⟩)
    rw [List.append_nil, ← Setup.elementOf_eq] at hwears
    exact hwears
  have hmember (a : Attr × Bool) (ha : a ∈ markPrebound f.policy false tag.attrs) :
      a.1 ∈ tag.attrs := by
    have hmem := List.mem_map_of_mem (f := Prod.fst) ha
    rwa [map_markPrebound] at hmem
  have hsuited (a : Attr × Bool) (ha : a ∈ markPrebound f.policy false tag.attrs) :
      AttrSuits f a.1 := hattrs a.1 (hmember a ha)
  have hanswered (a : Attr × Bool) (ha : a ∈ markPrebound f.policy false tag.attrs) :
      AttrAnswers values σ n a.1 := hanswers a.1 (hmember a ha)
  intro w p id cs hw hext _ hid
  obtain ⟨w', e', ws, bs, hrun, hdressed, hnode⟩ := bindAttrs_dresses hpolicy htracking hk
    hsuited hanswered hw hext.forest hid hprebound hdistinct
  obtain ⟨hname, hspace⟩ := Setup.elementOf_keeps (s := f.toSetup) hpolicy tag
  exact ⟨w', e', bs, hrun, hw.of_wires hdressed.wires, hdressed.wires,
    ⟨hdressed.name.trans hname, hdressed.space.trans hspace, ws, hdressed.worn, hdressed.wears⟩,
    hdressed.forest, hdressed.size_le, hnode, hdressed.frame⟩

/-! ### Containers -/

/-- Every point does what the reading says. -/
theorem pointShows_live (hpolicy : f.policy = .usual) (htracking : f.tracking = true)
    (hk : 3 * n + 3 ≤ k) {values : List Value} (source : Compiled) {pt : Point}
    (hsuits : Suits f pt) (hanswers : Answers values σ n pt) :
    PointShows base (Holds σ) (Wires n) f (machine f k) source values
      (Sprouts.copied f.elementOf) (liveReading f values) pt := by
  cases pt with
  | component tag children => exact hsuits.elim
  | element tag => exact dresses_tag hpolicy htracking hk source hsuits hanswers
  | hole i =>
    rw [PointShows]
    by_cases hreader : (valueAt values i).isReactive = true
    · obtain ⟨r, hr⟩ := exists_reader hreader
      simp only [Answers, hr] at hanswers
      obtain ⟨x, hshow⟩ := hanswers
      have hfills : Fills base (Holds σ) (Wires n)
          (fun m => insertValue f (machine f k) m (.reactive r)) _ :=
        fills_content htracking hk hshow
      simpa only [bindPoint, liveReading, hr] using hfills
    · have himmediate : (valueAt values i).isImmediate = true := by
        rw [Answers] at hanswers
        cases hv : valueAt values i <;> rw [hv] at hanswers hreader <;>
          first | exact hanswers | exact absurd rfl hreader
      have hgives (w : World) (hext : base.Extends w.page) : Gives (pure (valueAt values i)) w
          ((valueAt values i).shownTexts.map .text) :=
        gives_immediate hext.forest himmediate
      refine fills_of_gives (fun w w' hquiet hw => hw.of_wires (Wires.of_quiet (n := n) hquiet))
        (fun w w' hquiet => Wires.of_quiet hquiet) f _ hgives fun ts hts => ?_
      cases hv : valueAt values i <;> rw [hv] at hts hreader <;>
        simp only [liveReading, hv] <;> first | exact absurd rfl hreader | exact ⟨trivial, hts⟩

/-- A container of texts only. -/
theorem looseValues_texts (c : Calls) (source : Compiled) (values : List Value)
    (K : Reading Bound) {ns : List Node} (htexts : ∀ n ∈ ns, ∃ s, n = Node.text s) {w : World}
    (hforest : w.page.IsForest) : ∃ d us,
      looseValues f c source values ns w =
        some ((roots us).map Value.node, { w with page := d }) ∧
      w.page.Extends d ∧ Shows f.toSetup K ns us [] ∧ (∀ t ∈ us, Loose d t) ∧ (idsAll us).Nodup ∧
      ∀ x : Nat, x ∈ idsAll us → w.page.size ≤ x := by
  induction ns generalizing w with
  | nil =>
    exact ⟨w.page, [], rfl, Extends.refl hforest, .nil, by simp, List.nodup_nil, by simp [idsAll]⟩
  | cons n ns ih =>
    obtain ⟨⟨s, rfl⟩, htexts'⟩ := List.forall_mem_cons.mp htexts
    obtain ⟨d₁, hd₁⟩ : ∃ d₁, d₁ = (w.page.create (.text s)).2 := ⟨_, rfl⟩
    have hext₁ : w.page.Extends d₁ := hd₁ ▸ Extends.create hforest _
    have hloose : Loose d₁ (leaf w.page.size (.text s)) := hd₁ ▸ loose_create_text w.page s
    obtain ⟨d, us, hrun, hext, hshows, hlooses, hnodup, hyoung⟩ :=
      ih htexts' (w := { w with page := d₁ }) hext₁.forest
    have hold : w.page.size < d₁.size := hloose.lt_size List.mem_cons_self
    refine ⟨d, leaf w.page.size (.text s) :: us, ?_, hext₁.trans hext, .text _ s hshows, ?_, ?_, ?_⟩
    · have hmake : onPage (·.createText s) w = some (w.page.size, { w with page := d₁ }) := by
        rw [hd₁]
        rfl
      rw [looseValues, run_bind hmake]
      exact run_bind hrun fun vs => pure (Value.node w.page.size :: vs)
    · exact List.forall_mem_cons.mpr ⟨hloose.mono hext, hlooses⟩
    · refine List.nodup_cons.mpr ⟨fun hmem => ?_, hnodup⟩
      exact absurd hold (Nat.not_lt.mpr (hyoung _ hmem))
    · intro x hx
      rcases List.mem_cons.mp hx with rfl | hx
      · exact Nat.le_refl _
      · exact Nat.le_trans hext₁.size_le (hyoung x hx)

/-- A container without a skeleton that holds no holes and no components holds texts only. -/
theorem texts_of_not_needsSkeleton {ns : List Node} (hneeds : f.needsSkeleton ns = false)
    (hholes : ∀ i, Node.hole i ∉ ns) (hsuits : ∀ pt ∈ pointsOfAll f ns, Suits f pt) :
    ∀ n ∈ ns, ∃ s, n = Node.text s := by
  induction ns with
  | nil => simp
  | cons n ns ih =>
    rw [Setup.needsSkeleton_cons, Bool.or_eq_false_iff] at hneeds
    refine List.forall_mem_cons.mpr ⟨?_,
      ih hneeds.2 (fun i hi => hholes i (List.mem_cons_of_mem _ hi))
      fun pt hpt => hsuits pt (List.mem_append_right _ hpt)⟩
    cases n with
    | text s => exact ⟨s, rfl⟩
    | hole i => exact absurd List.mem_cons_self (hholes i)
    | element tag children =>
      have hc : f.registry.isComponent tag = true := by
        simpa [Setup.isPlainElement] using hneeds.1
      have hpt : Suits f (.component tag children) := by
        refine hsuits _ ?_
        rw [pointsOfAll, pointsOf, if_pos hc]
        exact List.mem_cons_self
      exact hpt.elim

/-- A container whose values are read: all its points have been bound, in order. -/
theorem renderContainer_live (hpolicy : f.policy = .usual) (htracking : f.tracking = true)
    (hk : 3 * n + 3 ≤ k) {values : List Value} {source : Compiled} {slot : Nat} {ns : List Node}
    {w : World} (hplaced : ∀ i, Node.hole i ∈ ns → f.needsSkeleton ns = true)
    (hsuits : ∀ pt ∈ pointsOfAll f ns, Suits f pt)
    (hanswers : ∀ pt ∈ pointsOfAll f ns, Answers values σ n pt)
    (hfurnished : Furnished f.toSetup 0 w.page (source.skeleton? slot) ns)
    (hforest : w.page.IsForest) (hw : Holds σ w) :
    ∃ w' us bs, renderContainer f (machine f k) source values slot ns w =
        some (Value.ofList ((roots us).map Value.node), w') ∧
      Wires n w w' bs ∧ Shows f.toSetup (liveReading f values) ns us bs ∧
      w.page.Extends w'.page ∧ (∀ t ∈ us, Loose w'.page t) ∧ (idsAll us).Nodup ∧
      ∀ x : Nat, x ∈ idsAll us → w.page.size ≤ x := by
  have hquiet (w : World) (d : Page) : Quiet w { w with page := d } := ⟨rfl, rfl, rfl, rfl, rfl⟩
  rcases hskeleton : source.skeleton? slot with _ | root
  · rw [hskeleton] at hfurnished
    have hneeds : f.needsSkeleton ns = false := hfurnished
    have htexts := texts_of_not_needsSkeleton hneeds
      (fun i hi => by rw [hplaced i hi] at hneeds; cases hneeds) hsuits
    obtain ⟨d, us, hrun, hext, hshows, hrest⟩ :=
      looseValues_texts (machine f k) source values (liveReading f values) htexts hforest
    refine ⟨{ w with page := d }, us, [], ?_, Wires.of_quiet (hquiet w d), hshows, hext, hrest⟩
    rw [renderContainer, hskeleton]
    simp only
    rw [run_bind hrun]
    rfl
  · rw [hskeleton] at hfurnished
    have hpoints (pt : Point) (hpt : pt ∈ pointsOfAll f ns) :
        PointShows w.page (Holds σ) (Wires n) f (machine f k) source values
          (Sprouts.copied f.elementOf) (liveReading f values) pt :=
      pointShows_live hpolicy htracking hk source (hsuits pt hpt) (hanswers pt hpt)
    obtain ⟨w', us, bs, hrun, -, hwires, hshows, hext, ⟨q, hstand⟩, hnodup, hyoung⟩ :=
      renderContainer_copy (fun w d => Wires.of_quiet (hquiet w d))
        (fun w d hw => hw.of_wires (Wires.of_quiet (n := n) (hquiet w d)))
        (fun h h' => h.trans h') hskeleton hfurnished hpoints hforest hw
    exact ⟨w', us, bs, hrun, hwires, hshows, hext, loose_of_allStand hstand hext.forest, hnodup,
      hyoung⟩

end

end Stencil.Render
