/-
  Stencil/Proofs/Render/Governed.lean
  ===================================
  **Every part of the renderer keeps to a lawful regime.**

  One lemma for each part, in the order in which the parts are defined: from values within
  the bounds it makes values within the bounds, and the state moves on as permitted.  The
  parts call each other through `Calls`; what they rely on is that the calls do the same
  (`Regime.Serves`), so `machine_serves` follows by induction on the number of levels.

  Only running effects is left to the regime, which knows what a write may leave behind
  (`Regime.Runs`).
-/
import Stencil.Proofs.Render.Regime

namespace Stencil.Render.Regime

open Markup (Attr Node Tag)

section

variable {f : Factory} {G : Regime} {c c' : Calls} {k : G.Kind} {s : G.State}

/-! ### Callbacks -/

theorem log_does (law : G.Lawful f) (e : LogEntry) {Q : Unit → G.State → Prop}
    (h : ∀ s', G.Next k s s' → Q () s') : G.Does k s (log e) (log e) Q :=
  (law.log k s e).weaken fun _ s' hnext _ => h s' hnext

theorem callFunc_does (law : G.Lawful f) (hc : G.Serves c c') {fn : Func} {v : Value}
    (hfn : fn.Within (G.bounds k s)) (hv : v.Within (G.bounds k s)) :
    G.Does k s (callFunc c fn v) (callFunc c' fn v) fun v s' => v.Within (G.bounds k s') := by
  refine .page ((law.log k s _).bind law fun _ s' hnext _ => ?_)
  have hle := law.mono k k s s' hnext
  rcases hresult : fn.result with _ | code
  · exact .pure law (hv.mono hle)
  · exact hc.build k s' none code nofun (hle.code _ (hfn code hresult))

theorem callBack_does (law : G.Lawful f) (hc : G.Serves c c') {id : NodeId}
    (hid : (G.bounds k s).node id) : ∀ {callback : Callback},
      (∀ fn, callback = .func fn → fn.Within (G.bounds k s)) →
      G.Does k s (callBack c id callback) (callBack c' id callback) fun _ _ => True
  | .ref _, _ => .page (log_does law _ fun _ _ => trivial)
  | .func fn, hfn => (callFunc_does law hc (hfn fn rfl) (.node hid)).discard law

theorem within_callback? {b : Bounds} {setter : Setter} {v : Value} (hv : v.Within b) {fn : Func}
    (h : setter.callback? v = some (.func fn)) : fn.Within b := by
  cases hv with
  | func hfn =>
    cases setter with
    | ref =>
      obtain rfl : _ = fn := by simpa [Setter.callback?] using h
      exact hfn
    | _ => cases h
  | _ => cases setter <;> cases h

/-- A setter may be applied to an element, now and later, with any value within the bounds. -/
def Writable (f : Factory) (G : Regime) (k : G.Kind) (s : G.State) (id : NodeId) (setter : Setter)
    (name : String) : Prop :=
  ∀ s', G.Next k s s' → ∀ v : Value, v.Within (G.bounds k s') →
    G.Does k s' (changePage (·.updateElement id (setter.write f.config name v)))
      (changePage (·.updateElement id (setter.write f.config name v))) fun _ _ => True

theorem Writable.next {s₁ : G.State} {id : NodeId} {setter : Setter} {name : String}
    (h : Writable f G k s id setter name) (law : G.Lawful f) (hnext : G.Next k s s₁) :
    Writable f G k s₁ id setter name :=
  fun s' hnext' => h s' (law.trans k s s₁ s' hnext hnext')

theorem writable_of_site (law : G.Lawful f) {id : NodeId} {setter : Setter}
    (hsite : (G.bounds k s).site id) (hsetter : (G.bounds k s).setter setter) (name : String) :
    Writable f G k s id setter name := by
  intro s' hnext v hv
  have hle := law.mono k k s s' hnext
  exact law.apply k s' id setter name v (hle.site _ hsite) (hle.setter _ hsetter) hv

theorem applySetter_does (law : G.Lawful f) (hc : G.Serves c c') {id : NodeId} {setter : Setter}
    {name : String} {v : Value} (hnode : (G.bounds k s).node id)
    (hwritable : Writable f G k s id setter name) (hv : v.Within (G.bounds k s)) :
    G.Does k s (applySetter f c id setter name v) (applySetter f c' id setter name v)
      fun _ _ => True := by
  refine (hwritable s (law.refl k s) v hv).bind law fun _ s' hnext _ => ?_
  have hle := law.mono k k s s' hnext
  rcases hcallback : setter.callback? v with _ | callback
  · exact .pure law trivial
  · refine callBack_does law hc (hle.node _ hnode) fun fn hfn => ?_
    exact within_callback? (hv.mono hle) (hfn ▸ hcallback)

/-! ### Values as nodes -/

mutual

theorem nodesOf_does (law : G.Lawful f) (hc : G.Serves c c') :
    ∀ {k : G.Kind} {s : G.State} {v : Value}, v.Within (G.bounds k s) →
      G.Does k s (nodesOf c v) (nodesOf c' v) fun ns s' => ∀ n ∈ ns, (G.bounds k s').node n
  | k, s, .text t, _ => by
    refine (law.create k s (.text t) nofun).bind law fun id s' _ hid => .pure law ?_
    exact List.forall_mem_singleton.mpr hid
  | k, s, .number n, _ => by
    refine (law.create k s (.text n.text) nofun).bind law fun id s' _ hid => .pure law ?_
    exact List.forall_mem_singleton.mpr hid
  | k, s, .node id, h => by
    cases h with
    | node hid =>
      refine .page (.pure law ?_)
      split
      · rename_i hfragment
        exact law.children k s id (law.fragment k s id hid hfragment)
      · exact List.forall_mem_singleton.mpr hid
  | k, s, .list items, h => by
    cases h with
    | list hitems => exact nodesOfAll_does law hc hitems
  | k, s, .reactive r, h => by
    cases h with
    | reactive hr =>
      refine (hc.read k s r hr).bind law fun v s' _ hv => ?_
      exact hc.nodes k s' v hv
  | _, _, .empty, _ => .pure law nofun
  | _, _, .bool _, _ => .pure law nofun
  | _, _, .handler _, _ => .pure law nofun
  | _, _, .ref _, _ => .pure law nofun
  | _, _, .func _, _ => .pure law nofun
  | _, _, .spread _, _ => .pure law nofun

theorem nodesOfAll_does (law : G.Lawful f) (hc : G.Serves c c') :
    ∀ {k : G.Kind} {s : G.State} {vs : List Value}, (∀ v ∈ vs, v.Within (G.bounds k s)) →
      G.Does k s (nodesOfAll c vs) (nodesOfAll c' vs) fun ns s' => ∀ n ∈ ns, (G.bounds k s').node n
  | _, _, [], _ => .pure law nofun
  | k, s, v :: vs, h => by
    obtain ⟨hv, hvs⟩ := List.forall_mem_cons.mp h
    refine (nodesOf_does law hc hv).bind law fun front s₁ hnext hfront => ?_
    have hle := law.mono k k s s₁ hnext
    refine (nodesOfAll_does law hc fun u hu =>
      (hvs u hu).mono hle).bind law fun back s' hnext' hback => ?_
    have hle' := law.mono k k s₁ s' hnext'
    refine .pure law (List.forall_mem_append.mpr ⟨fun n hn => ?_, hback⟩)
    exact hle'.node n (hfront n hn)

end

/-! ### Content -/

theorem insertAll_does (law : G.Lawful f) {p : NodeId} {reference : Option NodeId}
    {nodes : List NodeId} (hp : G.place k s p) (hnodes : ∀ n ∈ nodes, (G.bounds k s).node n) :
    G.Does k s (changePage fun d => insertAll d p reference nodes)
      (changePage fun d => insertAll d p reference nodes) fun _ _ => True := by
  have hcomp : (fun d : Page => insertAll d p reference nodes) =
      fun d => nodes.foldl (fun d n => d.insertBefore p n reference) d := rfl
  rw [hcomp]
  refine Does.change_foldl (P := fun n s => G.place k s p ∧ (G.bounds k s).node n) law ?_ ?_
    fun n hn => ⟨hp, hnodes n hn⟩
  · intro n s s' hnext h
    exact ⟨law.place_mono k s s' p hnext h.1, (law.mono k k s s' hnext).node _ h.2⟩
  · intro n s h
    exact law.insert k s p n reference h.1 h.2

theorem detachAll_does (law : G.Lawful f) {nodes : List NodeId}
    (hnodes : ∀ n ∈ nodes, (G.bounds k s).node n) :
    G.Does k s (changePage fun d => nodes.foldl (fun d n => d.detach n) d)
      (changePage fun d => nodes.foldl (fun d n => d.detach n) d) fun _ _ => True := by
  refine Does.change_foldl (P := fun n s => (G.bounds k s).node n) law ?_ ?_ hnodes
  · intro n s s' hnext h
    exact (law.mono k k s s' hnext).node _ h
  · intro n s h
    exact law.detach k s n h

theorem replaceContent_does (law : G.Lawful f) (hc : G.Serves c c') {marker : NodeId}
    {current : List NodeId} {v : Value} (hmarker : (G.bounds k s).node marker)
    (hcurrent : ∀ n ∈ current, (G.bounds k s).node n) (hv : v.Within (G.bounds k s)) :
    G.Does k s (replaceContent c marker current v) (replaceContent c' marker current v)
      fun ns s' => ∀ n ∈ ns, (G.bounds k s').node n := by
  refine (detachAll_does law hcurrent).bind law fun _ s₁ hnext _ => ?_
  have hle := law.mono k k s s₁ hnext
  refine (nodesOf_does law hc (hv.mono hle)).bind law fun nodes s₂ hnext' hnodes => ?_
  have hmarker₂ := (law.mono k k s₁ s₂ hnext').node _ (hle.node _ hmarker)
  refine .page ?_
  rcases hparent : (G.world s₂).page.parent? marker with _ | p
  · exact .pure law nofun
  · have hp := law.parent k s₂ marker p hmarker₂ hparent
    refine (insertAll_does law hp hnodes).bind law fun _ s' hnext₂ _ => .pure law fun n hn => ?_
    exact (law.mono k k s₂ s' hnext₂).node n (hnodes n hn)

theorem updateContent_does (law : G.Lawful f) (hc : G.Serves c c') {marker : NodeId}
    {current : List NodeId} {v : Value} (hmarker : (G.bounds k s).node marker)
    (hcurrent : ∀ n ∈ current, (G.bounds k s).node n) (hv : v.Within (G.bounds k s)) :
    G.Does k s (updateContent c marker current v) (updateContent c' marker current v)
      fun ns s' => ∀ n ∈ ns, (G.bounds k s').node n := by
  refine .page ?_
  rcases honly : onlyText? (G.world s).page current with _ | n
  · exact replaceContent_does law hc hmarker hcurrent hv
  · rcases plainText? v with _ | t
    · exact replaceContent_does law hc hmarker hcurrent hv
    · have hn : n ∈ current := by
        match current, honly with
        | [m], honly =>
          rw [onlyText?] at honly
          split at honly
          · obtain rfl := Option.some.inj honly
            exact List.mem_cons_self
          · cases honly
      refine (law.setText k s n t (hcurrent n hn)).bind law fun _ s' hnext _ =>
        .pure law fun m hm => ?_
      exact (law.mono k k s s' hnext).node m (hcurrent m hm)

/-! ### Bindings -/

theorem applyEntries_does (law : G.Lawful f) (hc : G.Serves c c') {id : NodeId}
    {shadowed : List String} {entries : Props} (hnode : (G.bounds k s).node id)
    (hentries : entries.Within (G.bounds k s))
    (hwritable : ∀ e ∈ entries, isShadowed shadowed e.1 = true ∨
      Writable f G k s id (f.policy.resolve e.1).1.setter (f.policy.resolve e.1).2) :
    G.Does k s (applyEntries f c id shadowed entries) (applyEntries f c' id shadowed entries)
      fun _ _ => True := by
  induction entries generalizing s with
  | nil => exact .pure law trivial
  | cons p rest ih =>
    obtain ⟨name, e⟩ := p
    obtain ⟨he, hrest⟩ := List.forall_mem_cons.mp hentries
    obtain ⟨hfirst, hwritable⟩ := List.forall_mem_cons.mp hwritable
    rw [applyEntries, applyEntries]
    by_cases hshadowed : isShadowed shadowed name = true
    · rw [if_pos hshadowed, if_pos hshadowed]
      exact ih hnode hrest hwritable
    · rw [if_neg hshadowed, if_neg hshadowed]
      refine (hc.resolve k s _ he.toValue).bind law fun v s₁ hnext hv => ?_
      have hle := law.mono k k s s₁ hnext
      refine (applySetter_does law hc (hle.node _ hnode)
        ((hfirst.resolve_left hshadowed).next law hnext) hv).bind law fun _ s' hnext' _ => ?_
      have hle' := law.mono k k s₁ s' hnext'
      refine ih (hle'.node _ (hle.node _ hnode)) (fun e he => ((hrest e he).mono hle).mono hle')
        fun e he => (hwritable e he).imp_right fun h => (h.next law hnext).next law hnext'

theorem runBinding_does (law : G.Lawful f) (hc : G.Serves c c') :
    ∀ {b : Binding}, b.Within (G.bounds k s) →
      G.Does k s (runBinding f c b) (runBinding f c' b) fun b' s' => b'.Within (G.bounds k s')
  | b, hb => by
    refine .look ?_
    rw [G.same_live]
    split
    · exact .pure law hb
    · match b, hb with
      | .attribute node setter name reader, ⟨hsite, hsetter, hreader⟩ =>
        refine (hc.resolve k s _ (.reactive hreader)).bind law fun v s₁ hnext hv => ?_
        have hle := law.mono k k s s₁ hnext
        refine (applySetter_does law hc (law.site k s₁ node (hle.site _ hsite))
          (writable_of_site law (hle.site _ hsite) (hle.setter _ hsetter) _) hv).bind law
          fun _ s' hnext' _ => .pure law ?_
        have hle' := law.mono k k s₁ s' hnext'
        exact Binding.Within.mono hle' (Binding.Within.mono hle ⟨hsite, hsetter, hreader⟩)
      | .spread node shadowed reader, ⟨hsite, hreader⟩ =>
        refine (hc.resolve k s _ (.reactive hreader)).bind law fun v s₁ hnext hv => ?_
        have hle := law.mono k k s s₁ hnext
        have hbinding : (Binding.spread node shadowed reader).Within (G.bounds k s₁) :=
          Binding.Within.mono hle ⟨hsite, hreader⟩
        cases hv with
        | spread hentries =>
          refine (applyEntries_does law hc (law.site k s₁ node (hle.site _ hsite)) hentries
            fun e _ => Or.inr ?_).bind law fun _ s' hnext' _ => .pure law ?_
          · exact writable_of_site law (hle.site _ hsite) (law.setter k s₁ _) _
          · exact Binding.Within.mono (law.mono k k s₁ s' hnext') hbinding
        | _ => exact .pure law hbinding
      | .content marker reader current, ⟨hmarker, hreader, hcurrent⟩ =>
        refine (hc.resolve k s _ (.reactive hreader)).bind law fun v s₁ hnext hv => ?_
        have hle := law.mono k k s s₁ hnext
        refine (updateContent_does law hc (hle.node _ hmarker) (fun n hn =>
          hle.node n (hcurrent n hn))
          hv).bind law fun next s' hnext' hnodes => .pure law ?_
        have hle' := law.mono k k s₁ s' hnext'
        exact ⟨hle'.node _ (hle.node _ hmarker), (hreader.mono hle).mono hle', hnodes⟩

theorem newBinding_does (law : G.Lawful f) (hc : G.Serves c c')
    {b : Binding} (hb : b.Within (G.bounds k s)) :
    G.Does k s (newBinding f c b) (newBinding f c' b) fun _ _ => True := by
  rw [newBinding, newBinding]
  split
  · exact hc.runs.register k s b hb
  · exact (runBinding_does law hc hb).discard law

/-- A value may be bound to an element under a name, now and later. -/
def Bindable (f : Factory) (G : Regime) (c c' : Calls) (k : G.Kind) (s : G.State) (id : NodeId)
    (name : String) : Prop :=
  ∀ s', G.Next k s s' → ∀ v : Value, v.Within (G.bounds k s') →
    G.Does k s' (bindValue f c id name v) (bindValue f c' id name v) fun _ _ => True

theorem bindValue_does (law : G.Lawful f) (hc : G.Serves c c') {id : NodeId} {name : String}
    {v : Value} (hnode : (G.bounds k s).node id)
    (hwritable : Writable f G k s id (f.policy.resolve name).1.setter (f.policy.resolve name).2)
    (hnew : ∀ r : Reader, r.Within (G.bounds k s) →
      G.Does k s (newBinding f c (.attribute id (f.policy.resolve name).1.setter
          (f.policy.resolve name).2 r))
        (newBinding f c' (.attribute id (f.policy.resolve name).1.setter
          (f.policy.resolve name).2 r)) fun _ _ => True)
    (hv : v.Within (G.bounds k s)) :
    G.Does k s (bindValue f c id name v) (bindValue f c' id name v) fun _ _ => True := by
  have happly := applySetter_does law hc hnode hwritable hv
  cases hv with
  | reactive hr =>
    cases hreactive : (f.policy.resolve name).1.reactive with
    | true =>
      simp only [bindValue, hreactive]
      exact hnew _ hr
    | false =>
      simp only [bindValue, hreactive]
      exact happly
  | _ => exact happly

theorem bindable_of_site (law : G.Lawful f) (hc : G.Serves c c') {id : NodeId}
    (hsite : (G.bounds k s).site id) (name : String) : Bindable f G c c' k s id name := by
  intro s' hnext v hv
  have hsite' := (law.mono k k s s' hnext).site _ hsite
  have hsetter := law.setter k s' name
  refine bindValue_does law hc (law.site k s' id hsite')
    (writable_of_site law hsite' hsetter _) ?_ hv
  intro r hr
  exact newBinding_does law hc ⟨hsite', hsetter, hr⟩

theorem bindEntries_does (law : G.Lawful f) {id : NodeId} {shadowed : List String} {entries : Props}
    (hentries : entries.Within (G.bounds k s))
    (hbindable : ∀ e ∈ entries, isShadowed shadowed e.1 = true ∨ Bindable f G c c' k s id e.1) :
    G.Does k s (bindEntries f c id shadowed entries) (bindEntries f c' id shadowed entries)
      fun _ _ => True := by
  induction entries generalizing s with
  | nil => exact .pure law trivial
  | cons p rest ih =>
    obtain ⟨name, e⟩ := p
    obtain ⟨he, hrest⟩ := List.forall_mem_cons.mp hentries
    obtain ⟨hfirst, hbindable⟩ := List.forall_mem_cons.mp hbindable
    rw [bindEntries, bindEntries]
    by_cases hshadowed : isShadowed shadowed name = true
    · rw [if_pos hshadowed, if_pos hshadowed]
      exact ih hrest hbindable
    · rw [if_neg hshadowed, if_neg hshadowed]
      refine (hfirst.resolve_left hshadowed s (law.refl k s) _ he.toValue).bind law
        fun _ s' hnext _ => ?_
      have hle := law.mono k k s s' hnext
      refine ih (fun e he => (hrest e he).mono hle) fun e he =>
        (hbindable e he).imp_right fun h => ?_
      exact fun s₂ hnext' => h s₂ (law.trans k s s' s₂ hnext hnext')

theorem bindSpread_does (law : G.Lawful f) (hc : G.Serves c c') {id : NodeId}
    {shadowed : List String} {v : Value} (hsite : (G.bounds k s).site id)
    (hv : v.Within (G.bounds k s)) :
    G.Does k s (bindSpread f c id shadowed v) (bindSpread f c' id shadowed v) fun _ _ => True := by
  cases hv with
  | spread hentries =>
    exact bindEntries_does law hentries fun e _ => Or.inr (bindable_of_site law hc hsite e.1)
  | reactive hr => exact newBinding_does law hc ⟨hsite, hr⟩
  | _ => exact .pure law trivial

theorem bindAttr_does (law : G.Lawful f) (hc : G.Serves c c')
    {values : List Value} {id : NodeId} {later : List String} (hsite : (G.bounds k s).site id)
    (hvalues : ∀ v ∈ values, v.Within (G.bounds k s)) (a : Attr) :
    G.Does k s (bindAttr f c values id later a) (bindAttr f c' values id later a)
      fun _ _ => True := by
  have hnamed (name : String) {v : Value} (hv : v.Within (G.bounds k s)) :
      G.Does k s (bindValue f c id name v) (bindValue f c' id name v) fun _ _ => True :=
    bindable_of_site law hc hsite name s (law.refl k s) v hv
  cases a with
  | flag name => exact hnamed name (.bool true)
  | fixed name value quote => exact hnamed name (.text value)
  | dynamic name i quote => exact hnamed name (within_valueAt hvalues i)
  | mixed name parts quote => exact hnamed name (within_joinedValue hvalues parts)
  | spread i => exact bindSpread_does law hc hsite (within_valueAt hvalues i)

theorem bindAttrs_does (law : G.Lawful f) {values : List Value} {id : NodeId}
    {attrs : List (Attr × Bool)} (hvalues : ∀ v ∈ values, v.Within (G.bounds k s))
    (hattrs : ∀ pre a post, attrs = pre ++ (a, false) :: post → ∀ s', G.Next k s s' →
      G.Does k s' (bindAttr f c values id (post.filterMap fun r => r.1.name?) a)
        (bindAttr f c' values id (post.filterMap fun r => r.1.name?) a) fun _ _ => True) :
    G.Does k s (bindAttrs f c values id attrs) (bindAttrs f c' values id attrs)
      fun _ _ => True := by
  induction attrs generalizing s with
  | nil => exact .pure law trivial
  | cons p rest ih =>
    obtain ⟨a, prebound⟩ := p
    rw [bindAttrs, bindAttrs]
    cases prebound with
    | true =>
      exact ih hvalues fun pre a' post h s' hnext =>
        hattrs ((a, true) :: pre) a' post (by rw [h, List.cons_append]) s' hnext
    | false =>
      refine (hattrs [] a rest rfl s (law.refl k s)).bind law fun _ s₁ hnext _ => ?_
      refine ih (fun v hv => (hvalues v hv).mono (law.mono k k s s₁ hnext))
        fun pre a' post h s' hnext' => ?_
      exact hattrs ((a, false) :: pre) a' post (by rw [h, List.cons_append]) s'
        (law.trans k s s₁ s' hnext hnext')

theorem bindTag_does (law : G.Lawful f) (hc : G.Serves c c') {values : List Value} {id : NodeId}
    (hsite : (G.bounds k s).site id) (hvalues : ∀ v ∈ values, v.Within (G.bounds k s)) (t : Tag) :
    G.Does k s (bindTag f c values id t) (bindTag f c' values id t) fun _ _ => True := by
  refine bindAttrs_does law hvalues fun _ a _ _ s' hnext => ?_
  have hle := law.mono k k s s' hnext
  exact bindAttr_does law hc (hle.site _ hsite) (fun v hv => (hvalues v hv).mono hle) a

theorem insertValue_does (law : G.Lawful f) (hc : G.Serves c c')
    {marker : NodeId} {v : Value} (hmarker : (G.bounds k s).node marker)
    (hv : v.Within (G.bounds k s)) :
    G.Does k s (insertValue f c marker v) (insertValue f c' marker v) fun _ _ => True := by
  have hself := hv
  cases hv with
  | reactive hr =>
    exact newBinding_does law hc ⟨hmarker, hr, fun n hn => absurd hn List.not_mem_nil⟩
  | _ =>
    refine (nodesOf_does law hc hself).bind law fun nodes s₁ hnext hnodes => .page ?_
    have hmarker₁ := (law.mono k k s s₁ hnext).node _ hmarker
    rcases hparent : (G.world s₁).page.parent? marker with _ | p
    · exact .pure law trivial
    · have hp := law.parent k s₁ marker p hmarker₁ hparent
      exact (insertAll_does law hp hnodes).change_comp law fun s' hnext' =>
        law.detach k s' marker ((law.mono k k s₁ s' hnext').node _ hmarker₁)

theorem mount_does (law : G.Lawful f) (hc : G.Serves c c')
    {p : NodeId} {v : Value} (hp : G.place k s p) (hv : v.Within (G.bounds k s)) :
    G.Does k s (mount f c p v) (mount f c' p v) fun _ _ => True := by
  refine (law.create k s (.comment "") nofun).bind law fun marker s₁ hnext hmarker => ?_
  have hle := law.mono k k s s₁ hnext
  have hp₁ := law.place_mono k s s₁ p hnext hp
  refine (law.insert k s₁ p marker none hp₁ hmarker).bind law fun _ s' hnext' _ => ?_
  have hle' := law.mono k k s₁ s' hnext'
  exact insertValue_does law hc (hle'.node _ hmarker) ((hv.mono hle).mono hle')

/-! ### Components -/

theorem attrProps_does (law : G.Lawful f) (hc : G.Serves c c') {values : List Value} {ps : Props}
    (hvalues : ∀ v ∈ values, v.Within (G.bounds k s)) (hps : ps.Within (G.bounds k s)) : ∀ a : Attr,
      G.Does k s (attrProps c values ps a) (attrProps c' values ps a)
        fun ps s' => Props.Within (G.bounds k s') ps
  | .flag name => .pure law (hps.set name (.immediate (.bool true)))
  | .fixed name value _ => .pure law (hps.set name (.immediate (.text value)))
  | .dynamic name i _ =>
    .pure law (hps.set name (Entry.within_forProp (within_valueAt hvalues i) name))
  | .mixed name parts _ =>
    .pure law (hps.set name (Entry.within_forProp (within_joinedValue hvalues parts) name))
  | .spread i => by
    refine (hc.resolve k s _ (within_valueAt hvalues i)).bind law fun v s' hnext hv => ?_
    have hle := law.mono k k s s' hnext
    cases hv with
    | spread hentries => exact .pure law ((hps.mono hle).setAll hentries)
    | _ => exact .pure law (hps.mono hle)

theorem attrsProps_does (law : G.Lawful f) (hc : G.Serves c c') {values : List Value} {ps : Props}
    (hvalues : ∀ v ∈ values, v.Within (G.bounds k s)) (hps : ps.Within (G.bounds k s))
    (attrs : List Attr) : G.Does k s (attrsProps c values ps attrs) (attrsProps c' values ps attrs)
        fun ps s' => Props.Within (G.bounds k s') ps := by
  induction attrs generalizing s ps with
  | nil => exact .pure law hps
  | cons a rest ih =>
    refine (attrProps_does law hc hvalues hps a).bind law fun ps' s' hnext hps' => ?_
    exact ih (fun v hv => (hvalues v hv).mono (law.mono k k s s' hnext)) hps'

theorem componentProps_does (law : G.Lawful f) (hc : G.Serves c c') {source : Compiled}
    {values : List Value} (hsource : (G.bounds k s).source source)
    (hvalues : ∀ v ∈ values, v.Within (G.bounds k s)) (t : Tag) {children : List Node}
    (hchildren : (G.bounds k s).content children) :
    G.Does k s (componentProps c source values t children)
      (componentProps c' source values t children)
      fun ps s' => Props.Within (G.bounds k s') ps := by
  refine (attrsProps_does law hc hvalues .nil t.attrs).bind law fun ps s' hnext hps => ?_
  have hle := law.mono k k s s' hnext
  split
  · refine .pure law (hps.set _ (.reactive (.children _ (hle.source _ hsource)
      (hle.content _ hchildren) fun v hv => ?_)))
    exact (hvalues v hv).mono hle
  · exact .pure law hps

theorem untracked_does {α : Type} (law : G.Lawful f) {x x' : Run α} {Q : α → G.State → Prop}
    (hx : ∀ s', G.Next k s s' → G.Does k s' x x' Q)
    (hmono : ∀ a s s', G.Next k s s' → Q a s → Q a s') :
    G.Does k s (untracked f x) (untracked f x') Q := by
  rw [untracked, untracked]
  split
  · refine (law.untrack k s).bind law fun _ s₁ hnext _ => ?_
    refine (hx s₁ hnext).bind law fun a s₂ _ ha => ?_
    refine (law.track k s₂).bind law fun _ s' hnext' _ => ?_
    exact .pure law (hmono a s₂ s' hnext' ha)
  · exact hx s (law.refl k s)

theorem invoke_does (law : G.Lawful f) (hc : G.Serves c c') {source : Compiled}
    {values : List Value} (hsource : (G.bounds k s).source source)
    (hvalues : ∀ v ∈ values, v.Within (G.bounds k s)) {t : Tag} {children : List Node}
    (hpoint : (Point.component t children).Within f (G.bounds k s)) :
    G.Does k s (invoke f c source values t children) (invoke f c' source values t children)
      fun v s' => v.Within (G.bounds k s') := by
  obtain ⟨hchildren, hcode⟩ := hpoint
  rw [invoke, invoke]
  rcases hcomponent : f.registry.componentFor? t with _ | body
  · exact .pure law .empty
  · refine untracked_does law (fun s₁ hnext => ?_) fun v s s' hnext hv =>
      Value.Within.mono (law.mono k k s s' hnext) hv
    have hle := law.mono k k s s₁ hnext
    refine (componentProps_does law hc (hle.source _ hsource) (fun v hv =>
      (hvalues v hv).mono hle) t
      (hle.content _ hchildren)).bind law fun ps s₂ hnext₂ hps => ?_
    refine (law.log k s₂ _).bind law fun _ s' hnext' _ => ?_
    have hle₂ := law.mono k k s₁ s₂ hnext₂
    have hle' := law.mono k k s₂ s' hnext'
    refine hc.build k s' (some ps) body (fun ps' hps' => ?_)
      (hle'.code _ (hle₂.code _ (hle.code _ (hcode body hcomponent))))
    obtain rfl := Option.some.inj hps'
    exact hps.mono hle'

/-! ### Containers -/

mutual

theorem component_mem_pointsOf {tag : Tag} {children : List Node} : ∀ {n : Node},
    Point.component tag children ∈ pointsOf f n → (tag, children) ∈ Markup.elementsOf n
  | .text _, h => absurd h List.not_mem_nil
  | .hole _, h => by
    rw [pointsOf, List.mem_singleton] at h
    cases h
  | .element t inner, h => by
    rw [pointsOf] at h
    rw [Markup.elementsOf]
    split at h
    · cases List.mem_singleton.mp h
      exact List.mem_cons_self
    · rcases List.mem_cons.mp h with h | h
      · cases h
      · exact List.mem_cons_of_mem _ (component_mem_pointsOfAll h)

theorem component_mem_pointsOfAll {tag : Tag} {children : List Node} : ∀ {nodes : List Node},
    Point.component tag children ∈ pointsOfAll f nodes →
      (tag, children) ∈ Markup.elementsOfAll nodes
  | [], h => absurd h List.not_mem_nil
  | n :: ns, h => by
    rw [Markup.elementsOfAll]
    rw [pointsOfAll] at h
    exact List.mem_append.mpr ((List.mem_append.mp h).imp component_mem_pointsOf
      component_mem_pointsOfAll)

end

/-- The component of a point and its content are allowed. -/
theorem Lawful.points (law : G.Lawful f) {nodes : List Node} (h : (G.bounds k s).content nodes) :
    ∀ point ∈ pointsOfAll f nodes, point.Within f (G.bounds k s) := by
  intro point hpoint
  cases point with
  | component tag children => exact law.component k s nodes h _ (component_mem_pointsOfAll hpoint)
  | _ => trivial

theorem bindPoint_does (law : G.Lawful f) (hc : G.Serves c c')
    {source : Compiled} {values : List Value} {id : NodeId} (hsource : (G.bounds k s).source source)
    (hvalues : ∀ v ∈ values, v.Within (G.bounds k s)) (hnode : (G.bounds k s).node id)
    (hsite : (G.bounds k s).site id) : ∀ point : Point, point.Within f (G.bounds k s) →
      G.Does k s (bindPoint f c source values id point) (bindPoint f c' source values id point)
        fun _ _ => True
  | .hole i, _ => insertValue_does law hc hnode (within_valueAt hvalues i)
  | .element tag, _ => bindTag_does law hc hsite hvalues tag
  | .component tag children, hpoint => by
    refine (invoke_does law hc hsource hvalues hpoint).bind law fun v s' hnext hv => ?_
    exact insertValue_does law hc ((law.mono k k s s' hnext).node _ hnode) hv

theorem bindPoints_does (law : G.Lawful f) (hc : G.Serves c c')
    {source : Compiled} {values : List Value} {points : List (Point × NodeId)}
    (hsource : (G.bounds k s).source source) (hvalues : ∀ v ∈ values, v.Within (G.bounds k s))
    (hplaces : ∀ p ∈ points, (G.bounds k s).node p.2 ∧ (G.bounds k s).site p.2)
    (hpoints : ∀ p ∈ points, p.1.Within f (G.bounds k s)) :
    G.Does k s (bindPoints f c source values points) (bindPoints f c' source values points)
      fun _ _ => True := by
  induction points generalizing s with
  | nil => exact .pure law trivial
  | cons p rest ih =>
    obtain ⟨point, id⟩ := p
    obtain ⟨⟨hnode, hsite⟩, hplaces⟩ := List.forall_mem_cons.mp hplaces
    obtain ⟨hpoint, hpoints⟩ := List.forall_mem_cons.mp hpoints
    refine (bindPoint_does law hc hsource hvalues hnode hsite point hpoint).bind law
      fun _ s' hnext _ => ?_
    have hle := law.mono k k s s' hnext
    refine ih (hle.source _ hsource) (fun v hv => (hvalues v hv).mono hle)
      (fun p hp => ?_) fun p hp =>
      (hpoints p hp).mono hle
    exact ⟨hle.node _ (hplaces p hp).1, hle.site _ (hplaces p hp).2⟩

theorem looseValues_does (law : G.Lawful f) (hc : G.Serves c c') {source : Compiled}
    {values : List Value} (hsource : (G.bounds k s).source source)
    (hvalues : ∀ v ∈ values, v.Within (G.bounds k s)) {nodes : List Node}
    (hnodes : ∀ e ∈ Markup.elementsOfAll nodes,
      (Point.component e.1 e.2).Within f (G.bounds k s)) :
    G.Does k s (looseValues f c source values nodes) (looseValues f c' source values nodes)
      fun vs s' => ∀ v ∈ vs, Value.Within (G.bounds k s') v := by
  induction nodes generalizing s with
  | nil => exact .pure law nofun
  | cons n rest ih =>
    rw [Markup.elementsOfAll] at hnodes
    obtain ⟨hhere, hrest⟩ := List.forall_mem_append.mp hnodes
    have hbehind (v : Value) (s₁ : G.State) (hnext : G.Next k s s₁)
        (hv : v.Within (G.bounds k s₁)) :
        G.Does k s₁ (looseValues f c source values rest >>= fun vs => pure (v :: vs))
          (looseValues f c' source values rest >>= fun vs => pure (v :: vs))
          fun vs s' => ∀ v ∈ vs, Value.Within (G.bounds k s') v := by
      have hle := law.mono k k s s₁ hnext
      refine (ih (hle.source _ hsource) (fun v hv => (hvalues v hv).mono hle) fun e he =>
        (hrest e he).mono hle).bind law fun vs s' hnext' hvs => .pure law ?_
      exact List.forall_mem_cons.mpr ⟨hv.mono (law.mono k k s₁ s' hnext'), hvs⟩
    cases n with
    | text t =>
      exact (law.create k s (.text t) nofun).bind law fun id s₁ hnext hid =>
        hbehind (.node id) s₁ hnext (.node hid)
    | hole i => exact hbehind _ s (law.refl k s) (within_valueAt hvalues i)
    | element tag children =>
      exact (invoke_does law hc hsource hvalues (hhere _ List.mem_cons_self)).bind law hbehind

theorem renderContainer_does (law : G.Lawful f) (hc : G.Serves c c')
    {source : Compiled} {values : List Value} (hsource : (G.bounds k s).source source)
    (hvalues : ∀ v ∈ values, v.Within (G.bounds k s)) (slot : Nat) {nodes : List Node}
    (hnodes : (G.bounds k s).content nodes) :
    G.Does k s (renderContainer f c source values slot nodes)
      (renderContainer f c' source values slot nodes) fun v s' => v.Within (G.bounds k s') := by
  rw [renderContainer, renderContainer]
  rcases hskeleton : source.skeleton? slot with _ | skeleton
  · refine (looseValues_does law hc hsource hvalues (law.component k s nodes hnodes)).bind law
      fun vs s' _ hvs => .pure law ?_
    exact Value.within_ofList hvs
  · refine (law.copy k s source slot skeleton hsource hskeleton).bind law
      fun root s₁ hnext hroot => ?_
    obtain ⟨hroot, hstations⟩ := hroot
    have hle := law.mono k k s s₁ hnext
    refine .page ((bindPoints_does law hc (hle.source _ hsource)
      (fun v hv => (hvalues v hv).mono hle) (fun p hp => ?_) fun p hp => ?_).bind law
        fun _ s' hnext' _ => .page ?_)
    · exact hstations p.2 (List.of_mem_zip hp).2
    · exact law.points (hle.content _ hnodes) p.1 (List.of_mem_zip hp).1
    · refine .pure law (Value.within_ofList fun v hv => ?_)
      obtain ⟨id, hid, rfl⟩ := List.mem_map.mp hv
      exact .node (law.children k s' root (law.hub_mono k s₁ s' root hnext' hroot) id hid)

theorem renderLiteral_does (law : G.Lawful f) (hc : G.Serves c c') {values : List Value}
    (hvalues : ∀ v ∈ values, v.Within (G.bounds k s)) {l : Literal}
    (hl : (G.bounds k s).literal l) :
    G.Does k s (renderLiteral f c l values) (renderLiteral f c' l values)
      fun out s' => ∀ v, out = .ok v → v.Within (G.bounds k s') := by
  rw [renderLiteral, renderLiteral]
  split
  · exact .pure law nofun
  · refine (law.compile k s l hl).bind law fun out s₁ hnext hout => ?_
    cases out with
    | error e => exact .pure law nofun
    | ok source =>
      have hle := law.mono k k s s₁ hnext
      have hsource := hout source rfl
      refine (hc.container k s₁ source values _ _ hsource (law.content k s₁ source hsource)
        fun v hv =>
        (hvalues v hv).mono hle).bind law fun v s' _ hv => .pure law fun v' hv' => ?_
      obtain rfl := Except.ok.inj hv'
      exact hv

/-! ### Scripts -/

theorem entryValue_does (law : G.Lawful f) (hc : G.Serves c c') {e : Entry}
    (he : e.Within (G.bounds k s)) :
    G.Does k s (entryValue c e) (entryValue c' e) fun v s' => v.Within (G.bounds k s') := by
  cases he with
  | immediate hv => exact .pure law hv
  | reactive hr => exact hc.read k s _ hr

theorem propValue_does (law : G.Lawful f) (hc : G.Serves c c') {ps : Props}
    (hps : ps.Within (G.bounds k s)) (name : String) :
    G.Does k s (propValue c ps name) (propValue c' ps name) fun v s' =>
      v.Within (G.bounds k s') := by
  rw [propValue, propValue]
  rcases hget : ps.get? name with _ | e
  · exact .pure law .empty
  · exact entryValue_does law hc (hps.get? hget)

theorem listProps_does (law : G.Lawful f) (hc : G.Serves c c') {ps : Props}
    (hps : ps.Within (G.bounds k s)) :
    G.Does k s (listProps c ps) (listProps c' ps) fun _ _ => True := by
  induction ps generalizing s with
  | nil => exact .pure law trivial
  | cons p rest ih =>
    obtain ⟨he, hrest⟩ := List.forall_mem_cons.mp hps
    refine (entryValue_does law hc he).bind law fun v s' hnext _ => .page ?_
    have hle := law.mono k k s s' hnext
    exact (ih fun e he => (hrest e he).mono hle).bind law fun _ _ _ _ => .pure law trivial

theorem nodeFor_does (law : G.Lawful f) {v : Value} (hv : v.Within (G.bounds k s)) :
    G.Does k s (nodeFor v) (nodeFor v) fun id s' => (G.bounds k s').node id := by
  have hnew (t : String) : G.Does k s (onPage (·.createText t)) (onPage (·.createText t))
      fun id s' => (G.bounds k s').node id := law.create k s (.text t) nofun
  cases hv with
  | node hid => exact .pure law hid
  | _ => exact hnew _

theorem renderNamed_does (law : G.Lawful f) (hc : G.Serves c c') {values : List Value}
    (hvalues : ∀ v ∈ values, v.Within (G.bounds k s)) {literal : String}
    (hliteral : (G.bounds k s).literal (f.literal literal)) :
    G.Does k s (renderNamed f c literal values) (renderNamed f c' literal values)
      fun out s' => ∀ v, out = .ok v → v.Within (G.bounds k s') := by
  refine .look ?_
  rw [G.same_live]
  split
  · exact renderLiteral_does law hc hvalues hliteral
  · refine .pure law fun v hv => ?_
    obtain rfl := Except.ok.inj hv
    exact .empty

theorem within_outcomeValue {b : Bounds} {out : Except TemplateError Value}
    (h : ∀ v, out = .ok v → v.Within b) : (outcomeValue out).Within b := by
  cases out with
  | error e => exact .text _
  | ok v => exact h v rfl

/-- The props of a component, if there are any, are within the bounds. -/
def EnvWithin (b : Bounds) (env : Option Props) : Prop := ∀ ps, env = some ps → Props.Within b ps

theorem EnvWithin.mono {b b' : Bounds} {env : Option Props} (hle : b.Le b') (h : EnvWithin b env) :
    EnvWithin b' env :=
  fun ps hps => (h ps hps).mono hle

mutual

theorem buildScript_does (law : G.Lawful f) (hc : G.Serves c c') :
    ∀ {k : G.Kind} {s : G.State} {env : Option Props} {code : Script},
      EnvWithin (G.bounds k s) env → (G.bounds k s).code code →
      G.Does k s (buildScript f c env code) (buildScript f c' env code)
        fun v s' => v.Within (G.bounds k s')
  | _, _, _, .empty, _, _ => by
    rw [buildScript, buildScript]
    exact .pure law .empty
  | _, _, _, .bool flag, _, _ => by
    rw [buildScript, buildScript]
    exact .pure law (.bool flag)
  | _, _, _, .number n, _, _ => by
    rw [buildScript, buildScript]
    exact .pure law (.number n)
  | _, _, _, .text t, _, _ => by
    rw [buildScript, buildScript]
    exact .pure law (.text t)
  | k, s, env, .list items, henv, hcode => by
    rw [buildScript, buildScript]
    refine (buildScripts_does law hc henv ((law.coherent k s).parts _ hcode)).bind law
      fun vs s' _ hvs => .pure law (.list hvs)
  | k, s, env, .handler label assigns, _, hcode => by
    rw [buildScript, buildScript]
    refine .pure law (.handler fun a ha => ?_)
    obtain rfl : assigns = some a := ha
    exact (law.coherent k s).assigns _ hcode a List.mem_cons_self
  | _, _, _, .ref label, _, _ => by
    rw [buildScript, buildScript]
    exact .pure law (.ref label)
  | k, s, env, .func label result, _, hcode => by
    rw [buildScript, buildScript]
    refine .pure law (.func fun code hresult => ?_)
    obtain rfl : result = some code := hresult
    exact (law.coherent k s).parts _ hcode code List.mem_cons_self
  | k, s, env, .signal name, _, hcode => by
    rw [buildScript, buildScript]
    exact .pure law
      (.reactive (.signal ((law.coherent k s).builds _ hcode name List.mem_cons_self)))
  | k, s, env, .later body, henv, hcode => by
    rw [buildScript, buildScript]
    have hbody := (law.coherent k s).parts _ hcode body List.mem_cons_self
    exact .pure law (.reactive (.script henv hbody))
  | k, s, env, .peek name, _, hcode => by
    rw [buildScript, buildScript]
    refine (law.read k s name).bind law fun code s' _ hread => ?_
    exact hc.build k s' none code nofun
      (hread ((law.coherent k s).builds _ hcode name List.mem_cons_self))
  | k, s, env, .choose name yes no, henv, hcode => by
    rw [buildScript, buildScript]
    obtain ⟨hyes, hno⟩ := List.forall_mem_cons.mp ((law.coherent k s).parts _ hcode)
    refine (law.read k s name).bind law fun code s' hnext _ => ?_
    have hle := law.mono k k s s' hnext
    split
    · exact buildScript_does law hc (henv.mono hle) (hle.code _ hyes)
    · exact buildScript_does law hc (henv.mono hle) (hle.code _ (hno no List.mem_cons_self))
  | k, s, env, .write name value next, henv, hcode => by
    rw [buildScript, buildScript]
    have hrest := (law.coherent k s).parts _ hcode next List.mem_cons_self
    refine (hc.runs.write k s name value next hcode).bind law fun _ s' hnext _ => ?_
    have hle := law.mono k k s s' hnext
    exact buildScript_does law hc (henv.mono hle) (hle.code _ hrest)
  | k, s, env, .note line next, henv, hcode => by
    rw [buildScript, buildScript]
    have hrest := (law.coherent k s).parts _ hcode next List.mem_cons_self
    refine (law.log k s _).bind law fun _ s' hnext _ => ?_
    have hle := law.mono k k s s' hnext
    exact buildScript_does law hc (henv.mono hle) (hle.code _ hrest)
  | k, s, env, .join pieces, henv, hcode => by
    rw [buildScript, buildScript]
    exact (joinScripts_does law hc henv ((law.coherent k s).parts _ hcode)).bind law
      fun t _ _ _ => .pure law (.text t)
  | k, s, env, .spread entries, henv, hcode => by
    rw [buildScript, buildScript]
    have hentries : ∀ e ∈ entries, (G.bounds k s).code e.2.2 := fun e he =>
      (law.coherent k s).parts _ hcode e.2.2 (List.mem_map.mpr ⟨e, he, rfl⟩)
    exact (buildEntries_does law hc henv .nil hentries).bind law
      fun ps _ _ hps => .pure law (.spread hps)
  | k, s, env, .element name children, henv, hcode => by
    rw [buildScript, buildScript]
    have hchildren := (law.coherent k s).parts _ hcode
    refine (law.create k s (.element ⟨name, .html, [], [], []⟩) fun e he => ?_).bind law
      fun id s₁ hnext hid => ?_
    · obtain rfl := Document.Content.element.inj he
      exact ⟨rfl, rfl⟩
    · have hle := law.mono k k s s₁ hnext
      refine (buildInto_does law hc (henv.mono hle) hid fun p hp =>
        hle.code _ (hchildren p hp)).bind law
        fun _ s' hnext' _ => .pure law (.node ?_)
      exact (law.mono k k s₁ s' hnext').node _ hid
  | k, s, env, .fragment children, henv, hcode => by
    rw [buildScript, buildScript]
    have hchildren := (law.coherent k s).parts _ hcode
    refine (law.create k s .fragment nofun).bind law fun id s₁ hnext hid => ?_
    have hle := law.mono k k s s₁ hnext
    refine (buildInto_does law hc (henv.mono hle) hid fun p hp =>
      hle.code _ (hchildren p hp)).bind law
      fun _ s' hnext' _ => .pure law (.node ?_)
    exact (law.mono k k s₁ s' hnext').node _ hid
  | k, s, env, .comment value, _, _ => by
    rw [buildScript, buildScript]
    exact (law.create k s (.comment value) nofun).bind law fun id _ _ hid => .pure law (.node hid)
  | k, s, env, .stored name, _, hcode => by
    rw [buildScript, buildScript]
    exact law.stored k s name hcode
  | k, s, env, .container name, _, hcode => by
    rw [buildScript, buildScript]
    exact (law.container k s name hcode).bind law fun id _ _ hid => .pure law (.node hid)
  | k, s, env, .html literal values, henv, hcode => by
    rw [buildScript, buildScript]
    refine (buildScripts_does law hc henv ((law.coherent k s).parts _ hcode)).bind law
      fun vs s₁ hnext hvs => ?_
    have hliteral := law.literal k s literal values hcode
    exact (renderNamed_does law hc hvs ((law.mono k k s s₁ hnext).literal _ hliteral)).bind law
      fun out _ _ hout =>
      .pure law (within_outcomeValue hout)
  | k, s, some ps, .prop name, henv, _ => by
    rw [buildScript, buildScript]
    exact propValue_does law hc (henv ps rfl) name
  | _, _, none, .prop name, _, _ => by
    rw [buildScript, buildScript]
    exact .pure law .empty
  | _, _, some ps, .hasProp name, _, _ => by
    rw [buildScript, buildScript]
    exact .pure law (.bool _)
  | _, _, none, .hasProp name, _, _ => by
    rw [buildScript, buildScript]
    exact .pure law .empty
  | k, s, some ps, .children, henv, _ => by
    rw [buildScript, buildScript]
    exact propValue_does law hc (henv ps rfl) _
  | _, _, none, .children, _, _ => by
    rw [buildScript, buildScript]
    exact .pure law .empty
  | k, s, some ps, .dump, henv, _ => by
    rw [buildScript, buildScript]
    refine (listProps_does law hc (henv ps rfl)).bind law fun entries s₁ _ _ => ?_
    exact (law.log k s₁ _).bind law fun _ _ _ _ => .pure law .empty
  | _, _, none, .dump, _, _ => by
    rw [buildScript, buildScript]
    exact .pure law .empty
  | k, s, some ps, .call name argument, henv, hcode => by
    rw [buildScript, buildScript]
    have hargument := (law.coherent k s).parts _ hcode argument List.mem_cons_self
    refine (propValue_does law hc (henv ps rfl) name).bind law fun v s₁ hnext hv => ?_
    refine (hc.resolve k s₁ v hv).bind law fun v s₂ hnext' hv => ?_
    have hle := law.mono k k s s₂ (law.trans k s s₁ s₂ hnext hnext')
    cases hv with
    | func hfn =>
      refine (buildScript_does law hc (henv.mono hle) (hle.code _ hargument)).bind law
        fun a s' hnext₂ ha => ?_
      exact callFunc_does law hc (hfn.mono (law.mono k k s₂ s' hnext₂)) ha
    | _ => exact .pure law (.text _)
  | _, _, none, .call name argument, _, _ => by
    rw [buildScript, buildScript]
    exact .pure law .empty

theorem buildScripts_does (law : G.Lawful f) (hc : G.Serves c c') :
    ∀ {k : G.Kind} {s : G.State} {env : Option Props} {codes : List Script},
      EnvWithin (G.bounds k s) env → (∀ code ∈ codes, (G.bounds k s).code code) →
      G.Does k s (buildScripts f c env codes) (buildScripts f c' env codes)
        fun vs s' => ∀ v ∈ vs, Value.Within (G.bounds k s') v
  | _, _, _, [], _, _ => by
    rw [buildScripts, buildScripts]
    exact .pure law nofun
  | k, s, env, code :: rest, henv, hcodes => by
    rw [buildScripts, buildScripts]
    obtain ⟨hcode, hrest⟩ := List.forall_mem_cons.mp hcodes
    refine (buildScript_does law hc henv hcode).bind law fun v s₁ hnext hv => ?_
    have hle := law.mono k k s s₁ hnext
    refine (buildScripts_does law hc (henv.mono hle) fun p hp => hle.code _ (hrest p hp)).bind law
      fun vs s' hnext' hvs => .pure law ?_
    exact List.forall_mem_cons.mpr ⟨Value.Within.mono (law.mono k k s₁ s' hnext') hv, hvs⟩

theorem joinScripts_does (law : G.Lawful f) (hc : G.Serves c c') :
    ∀ {k : G.Kind} {s : G.State} {env : Option Props} {codes : List Script},
      EnvWithin (G.bounds k s) env → (∀ code ∈ codes, (G.bounds k s).code code) →
      G.Does k s (joinScripts f c env codes) (joinScripts f c' env codes) fun _ _ => True
  | _, _, _, [], _, _ => by
    rw [joinScripts, joinScripts]
    exact .pure law trivial
  | k, s, env, code :: rest, henv, hcodes => by
    rw [joinScripts, joinScripts]
    obtain ⟨hcode, hrest⟩ := List.forall_mem_cons.mp hcodes
    refine (buildScript_does law hc henv hcode).bind law fun v s₁ hnext hv => ?_
    refine (hc.resolve k s₁ v hv).bind law fun v s₂ hnext' _ => ?_
    have hle := law.mono k k s s₂ (law.trans k s s₁ s₂ hnext hnext')
    exact (joinScripts_does law hc (henv.mono hle) fun p hp => hle.code _ (hrest p hp)).bind law
      fun _ _ _ _ => .pure law trivial

theorem buildEntries_does (law : G.Lawful f) (hc : G.Serves c c') :
    ∀ {k : G.Kind} {s : G.State} {env : Option Props} {ps : Props}
      {entries : List (String × Bool × Script)}, EnvWithin (G.bounds k s) env →
      ps.Within (G.bounds k s) → (∀ e ∈ entries, (G.bounds k s).code e.2.2) →
      G.Does k s (buildEntries f c env ps entries) (buildEntries f c' env ps entries)
        fun ps s' => Props.Within (G.bounds k s') ps
  | _, _, _, _, [], _, hps, _ => by
    rw [buildEntries, buildEntries]
    exact .pure law hps
  | k, s, env, ps, (name, true, code) :: rest, henv, hps, hentries => by
    rw [buildEntries, buildEntries]
    obtain ⟨hcode, hrest⟩ := List.forall_mem_cons.mp hentries
    exact buildEntries_does law hc henv (hps.set name (.reactive (.script henv hcode))) hrest
  | k, s, env, ps, (name, false, code) :: rest, henv, hps, hentries => by
    rw [buildEntries, buildEntries]
    obtain ⟨hcode, hrest⟩ := List.forall_mem_cons.mp hentries
    refine (buildScript_does law hc henv hcode).bind law fun v s₁ hnext hv => ?_
    have hle := law.mono k k s s₁ hnext
    exact buildEntries_does law hc (henv.mono hle)
      ((hps.mono hle).set name (.immediate hv)) fun e he =>
      hle.code _ (hrest e he)

theorem buildInto_does (law : G.Lawful f) (hc : G.Serves c c') :
    ∀ {k : G.Kind} {s : G.State} {env : Option Props} {p : NodeId} {codes : List Script},
      EnvWithin (G.bounds k s) env → (G.bounds k s).node p →
      (∀ code ∈ codes, (G.bounds k s).code code) →
      G.Does k s (buildInto f c env p codes) (buildInto f c' env p codes) fun _ _ => True
  | _, _, _, _, [], _, _, _ => by
    rw [buildInto, buildInto]
    exact .pure law trivial
  | k, s, env, p, code :: rest, henv, hp, hcodes => by
    rw [buildInto, buildInto]
    obtain ⟨hcode, hrest⟩ := List.forall_mem_cons.mp hcodes
    refine (buildScript_does law hc henv hcode).bind law fun v s₁ hnext hv => ?_
    refine (nodeFor_does law hv).bind law fun id s₂ hnext₁ hid => ?_
    have hnext' := law.trans k s s₁ s₂ hnext hnext₁
    have hp₂ := (law.mono k k s s₂ hnext').node _ hp
    refine (law.insert k s₂ p id none (law.place k s₂ p hp₂) hid).bind law fun _ s₃ hnext₂ _ => ?_
    have hle := law.mono k k s s₃ (law.trans k s s₂ s₃ hnext' hnext₂)
    exact buildInto_does law hc (henv.mono hle) (hle.node _ hp) fun p hp => hle.code _ (hrest p hp)

end

/-! ### Readers -/

theorem joinPieces_does (law : G.Lawful f) (hc : G.Serves c c') {pieces : List Value}
    (hpieces : ∀ v ∈ pieces, v.Within (G.bounds k s)) :
    G.Does k s (joinPieces c pieces) (joinPieces c' pieces) fun _ _ => True := by
  induction pieces generalizing s with
  | nil => exact .pure law trivial
  | cons v rest ih =>
    obtain ⟨hv, hrest⟩ := List.forall_mem_cons.mp hpieces
    refine (hc.resolve k s v hv).bind law fun _ s' hnext _ => ?_
    exact (ih fun u hu => (hrest u hu).mono (law.mono k k s s' hnext)).bind law
      fun _ _ _ _ => .pure law trivial

theorem readReader_does (law : G.Lawful f) (hc : G.Serves c c') {r : Reader}
    (hr : r.Within (G.bounds k s)) :
    G.Does k s (readReader c r) (readReader c' r) fun v s' => v.Within (G.bounds k s') := by
  cases hr with
  | script hprops hcode => exact hc.build k s _ _ hprops hcode
  | signal hname =>
    refine (law.read k s _).bind law fun code s' _ hread => ?_
    exact hc.build k s' none code nofun (hread hname)
  | join hpieces =>
    exact (joinPieces_does law hc hpieces).bind law fun t _ _ _ => .pure law (.text t)
  | children slot hsource hnodes hvalues => exact hc.container k s _ _ slot _ hsource hnodes hvalues

theorem resolveValue_does (law : G.Lawful f) (hc : G.Serves c c') {v : Value}
    (hv : v.Within (G.bounds k s)) :
    G.Does k s (resolveValue c v) (resolveValue c' v) fun v s' => v.Within (G.bounds k s') := by
  have hplain (hv : v.Within (G.bounds k s)) : G.Does k s (Pure.pure v) (Pure.pure v)
      fun v s' => v.Within (G.bounds k s') := .pure law hv
  cases hv with
  | reactive hr => exact (hc.read k s _ hr).bind law fun u s' _ hu => hc.resolve k s' u hu
  | node hid => exact hplain (.node hid)
  | list hitems => exact hplain (.list hitems)
  | handler hh => exact hplain (.handler hh)
  | func hfn => exact hplain (.func hfn)
  | spread hentries => exact hplain (.spread hentries)
  | empty => exact hplain .empty
  | bool flag => exact hplain (.bool flag)
  | number n => exact hplain (.number n)
  | text t => exact hplain (.text t)
  | ref label => exact hplain (.ref label)

end

/-! ### Effects -/

section

variable {f : Factory} {G : Regime} {c c' : Calls} {k : G.Kind} {s : G.State}
  {exec exec' : Nat → Run Unit}

/-- An effect runs as its binding does, if a run may start and end; `P` is what is known of the
    binding. -/
theorem runEffect_does (law : G.Lawful f) {id id' : Nat} {P : Binding → G.State → Prop}
    (hrun : ∀ s' b, P b s' → G.Does k s' (runBinding f c b) (runBinding f c' b) P)
    (hstart : G.Does k s (modifyGet fun g : SignalGraph => g.start id)
      (modifyGet fun g : SignalGraph => g.start id') fun o s' => ∀ b, o = some b → P b s')
    (hfinish : ∀ s' (b : Binding), P b s' →
      G.Does k s' (modify fun g : SignalGraph => g.finish id b)
        (modify fun g : SignalGraph => g.finish id' b) fun _ _ => True) :
    G.Does k s (runEffect f c id) (runEffect f c' id') fun _ _ => True := by
  refine hstart.bind law fun o s₁ _ hbody => ?_
  rcases o with _ | b
  · exact .pure law trivial
  · exact (hrun s₁ b (hbody b rfl)).bind law fun b' s' _ hb' => hfinish s' b' hb'

theorem executeAll_does (law : G.Lawful f)
    (heffect : ∀ s id, G.Does k s (exec id) (exec' id) fun _ _ => True) (ids : List Nat) :
    G.Does k s (Signal.executeAll exec ids) (Signal.executeAll exec' ids) fun _ _ => True := by
  induction ids generalizing s with
  | nil => exact .pure law trivial
  | cons id rest ih => exact (heffect s id).bind law fun _ _ _ _ => ih

end

/-! ### The renderer -/

variable {f : Factory} {G : Regime}

theorem serves_none (c' : Calls) (h : G.Runs Calls.none.effect c'.effect) :
    G.Serves Calls.none c' where
  build _ _ _ _ _ _ := .failure
  read _ _ _ _ := .failure
  resolve _ _ _ _ := .failure
  nodes _ _ _ _ := .failure
  container _ _ _ _ _ _ _ _ _ := .failure
  runs := h

theorem serves_above (law : G.Lawful f) {c c' : Calls}
    (hc : G.Serves c c') (h : G.Runs (runEffect f c) (runEffect f c')) :
    G.Serves (Calls.above f c) (Calls.above f c') where
  build _ _ _ _ henv hcode := buildScript_does law hc henv hcode
  read _ _ _ hr := readReader_does law hc hr
  resolve _ _ _ hv := resolveValue_does law hc hv
  nodes _ _ _ hv := nodesOf_does law hc hv
  container _ _ _ _ slot _ hsource hnodes hvalues :=
    renderContainer_does law hc hsource hvalues slot hnodes
  runs := h

/-- A renderer of any depth keeps to a lawful regime, if running its effects does; a deeper one
    has the same results. -/
theorem machine_serves (law : G.Lawful f)
    (hnone : G.Runs Calls.none.effect (machine f 1).effect)
    (hruns : ∀ n, G.Serves (machine f n) (machine f (n + 1)) →
      G.Runs (runEffect f (machine f n)) (runEffect f (machine f (n + 1)))) (n : Nat) :
    G.Serves (machine f n) (machine f (n + 1)) := by
  induction n with
  | zero => exact serves_none _ hnone
  | succ n ih =>
    rw [machine_succ f n, machine_succ f (n + 1)]
    exact serves_above law ih (hruns n ih)

end Stencil.Render.Regime
