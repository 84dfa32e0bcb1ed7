/-
  Stencil/Proofs/Render/Rerun.lean
  ================================
  **One run of a binding.**

  A run reads the reader of the binding, and what the reader yields goes where the
  binding says.  For content that is the stretch before its marker: whichever of the two
  ways is taken, over the one text node that is there or with new nodes for all that was
  there, afterwards the stretch looks like the yield and its marker stands behind it
  (`updateContent_regrows`).  For an attribute one element is written once.

  The graph has then changed as `Signal.Graph.Ran` says, so a binding that has run is a
  subscriber of every signal that its yield depends on.
-/
import Stencil.Proofs.Render.Yield

namespace Stencil.Render

open Document Document.Plant Seed

/-! ### Content -/

/-- The texts that go into a text node are the scalars with a text. -/
theorem plainText?_of_fits {y : Yield} {v : Value} {s : String} (h : y.Fits v)
    (hv : plainText? v = some s) : y.trees = [.text s] := by
  cases y with
  | element t =>
    obtain ⟨id, rfl⟩ := h
    cases hv
  | list items =>
    obtain ⟨vs, rfl⟩ := h
    cases hv
  | empty =>
    obtain rfl := Option.some.inj h
    cases hv
  | bool b =>
    obtain rfl := Option.some.inj h
    cases hv
  | number n =>
    obtain rfl := Option.some.inj h
    obtain rfl := Option.some.inj hv
    rfl
  | text t =>
    obtain rfl := Option.some.inj h
    obtain rfl := Option.some.inj hv
    rfl

/-- The only text node of a stretch. -/
theorem of_onlyText? {d : Page} {parent : Option NodeId} {cur : List (Plant Value Action)}
    {n : NodeId} (h : onlyText? d (roots cur) = some n) (hstand : d.AllStand parent cur) :
    ∃ s cs, cur = [node n (.text s) cs] := by
  match cur, h with
  | [], h => cases h
  | [t], h =>
    obtain ⟨id, c, cs⟩ := t
    obtain ⟨⟨hnode, -⟩, -⟩ := hstand
    have hkind : d.kind id = some c.kind := by
      rw [kind, hnode]
      rfl
    have hone : onlyText? d [id] = some n := h
    rw [onlyText?, hkind] at hone
    split at hone
    · rename_i htext
      obtain rfl := Option.some.inj hone
      cases c with
      | text s => exact ⟨s, cs, rfl⟩
      | _ => cases htext
    · cases hone
  | _ :: _ :: _, h => cases h

theorem node?_setText_text {d : Page} {id : NodeId} {s value : String} {parent : Option NodeId}
    {cs : List NodeId} (h : d.node? id = some ⟨.text s, parent, cs⟩) (x : NodeId) :
    (d.setText id value).node? x =
      if x = id then some ⟨.text value, parent, cs⟩ else d.node? x := by
  rw [node?_setText]
  by_cases hx : x = id
  · rw [hx, h]
    simp
  · rw [if_neg hx]
    rcases d.node? x with _ | ⟨c, q, us⟩
    · rfl
    · cases c <;> simp [Ne.symm hx]

/-- Bringing the content before a marker up to date makes it look like the yield. -/
theorem updateContent_regrows {d : Page} {w : World} {p m : Nat} {front back : List NodeId}
    {cur : List (Plant Value Action)} {y : Yield} {v : Value} {ss : List Seed} (c : Calls)
    (hforest : d.IsForest) (hbrings : Brings d w.page [y] [v] ss)
    (hstand : d.AllStand (some p) (cur ++ [leaf m (.comment "")]))
    (hplace : ∃ content q, d.node? p =
      some ⟨content, q, front ++ roots (cur ++ [leaf m (.comment "")]) ++ back⟩) :
    ∃ d' cur', updateContent c m (roots cur) v w = some (roots cur', { w with page := d' }) ∧
      d.Regrown d' p front (cur ++ [leaf m (.comment "")]) (cur' ++ [leaf m (.comment "")]) back ∧
      Plant.trees cur' = y.trees := by
  have hstart := (Regrown.refl hforest hstand hplace).extends_after hbrings.ext
  obtain ⟨hfits, -⟩ := List.forall₂_cons.mp hbrings.fits
  have hcur := (allStand_append.mp hstart.stand).1
  -- the way over the text node that is there, and the other way
  rcases hway : (onlyText? w.page (roots cur)).bind fun n =>
      (plainText? v).map fun s => (n, s) with _ | ⟨n, s⟩
  · have hupdate : updateContent c m (roots cur) v w = replaceContent c m (roots cur) v w := by
      rw [updateContent, run_bind (run_page w)]
      rcases hn : onlyText? w.page (roots cur) with _ | n
      · rfl
      · rcases hs : plainText? v with _ | s
        · rfl
        · simp [hn, hs] at hway
    obtain ⟨d₁, hd₁⟩ : ∃ d₁, d₁ = (roots cur).foldl (fun d n => d.detach n) w.page := ⟨_, rfl⟩
    have hcleared : d.Regrown d₁ p front (cur ++ [leaf m (.comment "")])
        ([] ++ leaf m (.comment "") :: []) back := hd₁ ▸ hstart.detachAll
    obtain ⟨content, q, hp⟩ := hplace
    have hout (x : Nat) (hx : x ∈ idsAll (plants ss)) :
        x ≠ p ∧ x ∉ idsAll (cur ++ [leaf m (.comment "")]) := by
      refine ⟨?_, fun hmem => ?_⟩
      · rintro rfl
        exact absurd (lt_size_of_node? hp) (Nat.not_lt.mpr (hbrings.young _ hx))
      · exact absurd (hstand.lt_size hmem) (Nat.not_lt.mpr (hbrings.young x hx))
    have hbears : Bears d₁ [v] ss := by
      have hplace' : ∃ content q, w.page.node? p =
          some ⟨content, q, front ++ roots (cur ++ [leaf m (.comment "")]) ++ back⟩ :=
        ⟨content, q, hbrings.ext.node? hp⟩
      have hsame := (Regrown.refl hbrings.ext.forest hstart.stand hplace').detachAll
      rw [← hd₁] at hsame
      refine hbrings.bears.congr fun x hx => hsame.frame x (hbrings.bears.lt_size hx) ?_ ?_
      · exact (hout x hx).1
      · exact (hout x hx).2
    obtain ⟨d₂, hnodes, hext, hloose⟩ := nodesOf_eq hbears c (w := { w with page := d₁ })
      (Extends.refl hcleared.forest)
    have hgrown := regrown_grow hforest hcleared hbears hbrings.nodup hbrings.young
      (fun x hx hmem => (hout x hx).2 (by
        rw [idsAll_append]
        exact List.mem_append_right _ hmem)) hext hloose
    have hparent : d₂.parent? m = some p :=
      (hcleared.extends_after hext).stand.parent?_root (by simp [leaf, Plant.root])
    refine ⟨_, grow d₁.size ss, ?_, hgrown, ?_⟩
    · rw [hupdate, replaceContent, run_bind (run_changePage _ w), ← hd₁, run_bind hnodes,
        run_bind (run_page _)]
      simp only [hparent]
      rfl
    · rw [trees_grow, hbrings.trees, Yield.treesAll, Yield.treesAll, List.append_nil]
  · obtain ⟨n', hn, hmap⟩ := Option.bind_eq_some_iff.mp hway
    obtain ⟨s', hs, heq⟩ := Option.map_eq_some_iff.mp hmap
    obtain ⟨rfl, rfl⟩ := by simpa using heq
    obtain ⟨old, cs, rfl⟩ := of_onlyText? hn hcur
    have hnode : w.page.node? n' = some ⟨.text old, some p, roots cs⟩ := hcur.1.node?_eq
    have hwrite (x : NodeId) : (w.page.setText n' s').node? x =
        if x = n' then some ⟨.text s', some p, roots cs⟩ else w.page.node? x :=
      node?_setText_text hnode x
    have hregion : d.Regrown w.page p front ([node n' (.text old) cs] ++ [leaf m (.comment "")])
        ([] ++ node n' (.text old) cs :: [leaf m (.comment "")]) back := hstart
    refine ⟨w.page.setText n' s', [node n' (.text s') cs], ?_, ?_, ?_⟩
    · rw [updateContent, run_bind (run_page w)]
      simp only [hn, hs]
      rfl
    · refine hregion.refill (hbrings.ext.forest.setText n' s') ?_ ?_ fun x _ hx => ?_
      · simp [setText]
      · rw [hwrite, if_pos rfl]
      · rw [hwrite, if_neg hx]
    · rw [plainText?_of_fits hfits hs]
      rfl

/-! ### Runs -/

/-- Effect `id` has run, has read the signals named, and is the binding `b` now. -/
structure Rerun (w w' : World) (id : Nat) (b : Binding) (reads : List String) : Prop where
  graph : w.graph.Ran w'.graph id b reads
  cache : w'.cache = w.cache
  stored : w'.stored = w.stored
  containers : w'.containers = w.containers
  live : w'.live = w.live

theorem Rerun.held {w w' : World} {id : Nat} {b : Binding} {reads : List String}
    (h : Rerun w w' id b reads) : w'.held = w.held := by
  funext name
  rw [World.held, World.held, h.graph.peek?]

/-- What the run of a binding does to the page is what its effect does. -/
theorem runEffect_run {f : Factory} {c : Calls} {w : World} {id : Nat} {b : Binding}
    (reads : List String) {P : Page → Binding → Prop} (hlive : w.live = true)
    (heffect : w.graph.effects[id]? = some ⟨b, false⟩)
    (hrun : ∀ w₀ : World, w₀.page = w.page → w₀.held = w.held → w₀.stored = w.stored →
      w₀.live = true → ∃ w₁ b', runBinding f c b w₀ = some (b', w₁) ∧ Stirs w₀ w₁ reads ∧
        P w₁.page b') :
    ∃ w' b', runEffect f c id w = some ((), w') ∧ Rerun w w' id b' reads ∧ P w'.page b' := by
  obtain ⟨g, hstart, -, hpeek, hran⟩ := Signal.Graph.start_eq heffect
  have hheld : ({ w with graph := g } : World).held = w.held := by
    funext name
    rw [World.held, World.held, hpeek]
  obtain ⟨w₁, b', hbinding, hstirs, hP⟩ := hrun { w with graph := g } rfl hheld rfl hlive
  refine ⟨{ w₁ with graph := w₁.graph.finish id b' }, b', ?_, ?_, hP⟩
  · have hopen : (modifyGet fun g : SignalGraph => g.start id : Run (Option Binding)) w =
        some (some b, { w with graph := g }) := by
      change some ((w.graph.start id).1, { w with graph := (w.graph.start id).2 }) = _
      rw [hstart]
    rw [runEffect, Signal.execute, run_bind hopen]
    simp only
    rw [run_bind hbinding]
    rfl
  · have hgraph := hran reads b'
    rw [← hstirs.graph] at hgraph
    exact ⟨hgraph, hstirs.cache, hstirs.stored, hstirs.containers, hstirs.live⟩

/-- A reader resolved by a renderer that is deep enough. -/
theorem resolveReader_comes (f : Factory) {σ : String → Script} {n m : Nat} {r : Reader}
    {x : Shown} (h : showReader σ n r = some x) (hm : 3 * n + 2 ≤ m) :
    Comes ((machine f m).resolve (.reactive r)) σ x := by
  obtain ⟨k, rfl⟩ : ∃ k, m = k + 2 := ⟨m - 2, by omega⟩
  exact resolve_comes f (by omega) (readReader_comes f n (m := k) (by omega) h)

theorem machine_effect (f : Factory) (m id : Nat) (w : World) :
    (machine f (m + 1)).effect id w = runEffect f (machine f m) id w := rfl

/-- The run of content. -/
theorem effect_content (f : Factory) {n k : Nat} (hk : 3 * n + 3 ≤ k) {w : World} {id p m : Nat}
    {front back : List NodeId} {cur : List (Plant Value Action)} {r : Reader} {x : Shown}
    (hlive : w.live = true)
    (heffect : w.graph.effects[id]? = some ⟨.content m r (roots cur), false⟩)
    (hshow : showReader w.held n r = some x) (hforest : w.page.IsForest)
    (hstand : w.page.AllStand (some p) (cur ++ [leaf m (.comment "")]))
    (hplace : ∃ content q, w.page.node? p =
      some ⟨content, q, front ++ roots (cur ++ [leaf m (.comment "")]) ++ back⟩) :
    ∃ w' cur', (machine f k).effect id w = some ((), w') ∧
      Rerun w w' id (.content m r (roots cur')) x.reads ∧
      w.page.Regrown w'.page p front (cur ++ [leaf m (.comment "")])
        (cur' ++ [leaf m (.comment "")]) back ∧ Plant.trees cur' = x.yield.trees := by
  obtain ⟨j, rfl⟩ : ∃ j, k = j + 1 := ⟨k - 1, by omega⟩
  obtain ⟨w', b', hrun, hrerun, cur', rfl, hgrown, htrees⟩ :=
    runEffect_run (f := f) (c := machine f j) x.reads
      (P := fun d b' => ∃ cur', b' = .content m r (roots cur') ∧
        w.page.Regrown d p front (cur ++ [leaf m (.comment "")])
          (cur' ++ [leaf m (.comment "")]) back ∧ Plant.trees cur' = x.yield.trees)
      hlive heffect fun w₀ hpage hheld _ hlive₀ => by
      obtain ⟨w₁, v, ss, hread, hstirs, hbrings⟩ :=
        resolveReader_comes f hshow (m := j) (by omega) w₀ (hpage ▸ hforest) hheld
      rw [hpage] at hbrings
      obtain ⟨d', cur', hupdate, hgrown, htrees⟩ :=
        updateContent_regrows (machine f j) hforest hbrings hstand hplace
      refine ⟨{ w₁ with page := d' }, _, ?_, hstirs.onPage d', cur', rfl, hgrown, htrees⟩
      have hget : (getThe World : Run World) w₀ = some (w₀, w₀) := rfl
      rw [runBinding, run_bind hget, hlive₀]
      simp only [Bool.not_true, Bool.false_eq_true, if_false]
      rw [run_bind hread, run_bind hupdate]
      rfl
  exact ⟨w', cur', hrun, hrerun, hgrown, htrees⟩

theorem callback?_scalar {y : Yield} {v : Value} (h : y.scalar? = some v) (setter : Setter) :
    setter.callback? v = none := by
  cases y <;> first
    | (obtain rfl := Option.some.inj h; cases setter <;> rfl)
    | cases h

/-- The run of an attribute under a setter that calls nothing: what is applied is a value that
    looks like the yield. -/
theorem effect_attribute_fits (f : Factory) {n k : Nat} (hk : 3 * n + 3 ≤ k) {w : World}
    {id node : Nat} {setter : Setter} {name : String} {r : Reader} {x : Shown} {e : ElementState}
    {q : Option NodeId} {cs : List NodeId} (hlive : w.live = true)
    (heffect : w.graph.effects[id]? = some ⟨.attribute node setter name r, false⟩)
    (hshow : showReader w.held n r = some x)
    (hquiet : ∀ v, x.yield.Fits v → setter.callback? v = none)
    (hforest : w.page.IsForest) (hnode : w.page.node? node = some ⟨.element e, q, cs⟩) :
    ∃ w' v, x.yield.Fits v ∧ (machine f k).effect id w = some ((), w') ∧
      Rerun w w' id (.attribute node setter name r) x.reads ∧ w'.page.IsForest ∧
      w.page.size ≤ w'.page.size ∧
      w'.page.node? node = some ⟨.element (setter.write f.config name v e), q, cs⟩ ∧
      ∀ x : Nat, x < w.page.size → x ≠ node → w'.page.node? x = w.page.node? x := by
  obtain ⟨j, rfl⟩ : ∃ j, k = j + 1 := ⟨k - 1, by omega⟩
  obtain ⟨w', b', hrun, hrerun, rfl, v, hfits, hrest⟩ :=
    runEffect_run (f := f) (c := machine f j) x.reads
      (P := fun d b' => b' = .attribute node setter name r ∧ ∃ v, x.yield.Fits v ∧ d.IsForest ∧
        w.page.size ≤ d.size ∧
        d.node? node = some ⟨.element (setter.write f.config name v e), q, cs⟩ ∧
        ∀ x : Nat, x < w.page.size → x ≠ node → d.node? x = w.page.node? x)
      hlive heffect fun w₀ hpage hheld _ hlive₀ => by
      obtain ⟨w₁, v, ss, hread, hstirs, hbrings⟩ :=
        resolveReader_comes f hshow (m := j) (by omega) w₀ (hpage ▸ hforest) hheld
      rw [hpage] at hbrings
      obtain ⟨hfits, -⟩ := List.forall₂_cons.mp hbrings.fits
      refine ⟨{ w₁ with page := w₁.page.updateElement node (setter.write f.config name v) }, _, ?_,
        hstirs.onPage _, rfl, v, hfits, hbrings.ext.forest.updateElement _ _, ?_, ?_,
        fun x hx hne => ?_⟩
      · have hget : (getThe World : Run World) w₀ = some (w₀, w₀) := rfl
        have happly : applySetter f (machine f j) node setter name v w₁ = some ((), { w₁ with
            page := w₁.page.updateElement node (setter.write f.config name v) }) := by
          rw [applySetter, hquiet v hfits, run_bind (run_changePage _ w₁)]
          rfl
        rw [runBinding, run_bind hget, hlive₀]
        simp only [Bool.not_true, Bool.false_eq_true, if_false]
        rw [run_bind hread, run_bind happly]
        rfl
      · rw [size_updateElement]
        exact hbrings.ext.size_le
      · rw [node?_updateElement, hbrings.ext.node? hnode]
        simp
      · rw [node?_updateElement, hbrings.ext.same x hx]
        rcases w.page.node? x with _ | ⟨c, q, us⟩
        · rfl
        · cases c <;> simp [Ne.symm hne]
  exact ⟨w', v, hfits, hrun, hrerun, hrest⟩

/-- A value that looks like a scalar is the scalar. -/
theorem eq_of_fits {y : Yield} {u v : Value} (h : y.Fits u) (hscalar : y.scalar? = some v) :
    u = v := by
  cases y <;> first
    | exact Option.some.inj (h.symm.trans hscalar)
    | cases hscalar

/-- The run of an attribute. -/
theorem effect_attribute (f : Factory) {n k : Nat} (hk : 3 * n + 3 ≤ k) {w : World} {id node : Nat}
    {setter : Setter} {name : String} {r : Reader} {x : Shown} {v : Value} {e : ElementState}
    {q : Option NodeId} {cs : List NodeId} (hlive : w.live = true)
    (heffect : w.graph.effects[id]? = some ⟨.attribute node setter name r, false⟩)
    (hshow : showReader w.held n r = some x) (hscalar : x.yield.scalar? = some v)
    (hforest : w.page.IsForest) (hnode : w.page.node? node = some ⟨.element e, q, cs⟩) :
    ∃ w', (machine f k).effect id w = some ((), w') ∧
      Rerun w w' id (.attribute node setter name r) x.reads ∧ w'.page.IsForest ∧
      w.page.size ≤ w'.page.size ∧
      w'.page.node? node = some ⟨.element (setter.write f.config name v e), q, cs⟩ ∧
      ∀ x : Nat, x < w.page.size → x ≠ node → w'.page.node? x = w.page.node? x := by
  obtain ⟨w', u, hfits, hrun, hrerun, hrest⟩ := effect_attribute_fits f hk hlive heffect hshow
    (fun u hu => eq_of_fits hu hscalar ▸ callback?_scalar hscalar setter) hforest hnode
  obtain rfl := eq_of_fits hfits hscalar
  exact ⟨w', hrun, hrerun, hrest⟩

end Stencil.Render
