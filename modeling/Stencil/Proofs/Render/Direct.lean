/-
  Stencil/Proofs/Render/Direct.lean
  =================================
  **Rendering a literal agrees with reading its tree directly.**

  `directAll` reads the nodes of a literal by recursion: a text is a text, a hole is the
  texts of its value, an element is an element with what its children are, and a
  component whose body is its children is what its own content is.  No skeleton, no copy
  and no marker comes up in it.

  `renderLiteral_mount_direct` says that rendering and mounting come to the same, for
  values that show texts only and components that return their children.  Its core is
  `renderContainer_gives`, by induction on the size of a container: what a container
  gives is young, has the right trees and disturbs nobody (`Gives`), and the components in
  it are rendered by the same statement three levels further down.
-/
import Stencil.Render.Machine
import Stencil.Proofs.Attribute.Usual
import Stencil.Proofs.Render.Lockstep

namespace Stencil

open Document Document.Plant Markup

/-! ### Immediate values -/

namespace Value

mutual

/-- Whether a value is built from empty values, truth values, numbers, texts and lists. -/
def isImmediate : Value → Bool
  | .empty => true
  | .bool _ => true
  | .number _ => true
  | .text _ => true
  | .list items => allImmediate items
  | _ => false

def allImmediate : List Value → Bool
  | [] => true
  | v :: vs => v.isImmediate && allImmediate vs

end

mutual

/-- The texts that an immediate value shows, in order. -/
def shownTexts : Value → List String
  | .number n => [n.text]
  | .text s => [s]
  | .list items => allShownTexts items
  | _ => []

def allShownTexts : List Value → List String
  | [] => []
  | v :: vs => v.shownTexts ++ allShownTexts vs

end

theorem allImmediate_iff {vs : List Value} :
    allImmediate vs = true ↔ ∀ v ∈ vs, v.isImmediate = true := by
  induction vs with
  | nil => simp [allImmediate]
  | cons v vs ih => rw [allImmediate, Bool.and_eq_true, ih, List.forall_mem_cons]

theorem isReactive_of_isImmediate {v : Value} (h : v.isImmediate = true) :
    v.isReactive = false := by
  cases v <;> first | rfl | simp [isImmediate] at h

end Value

namespace Render

open Seed

/-! ### The direct reading -/

/-- The value of an attribute for the given values of the holes. -/
def attrValue (values : List Value) : Attr → Value
  | .dynamic _ i _ => valueAt values i
  | .mixed _ parts _ => joinedValue values parts
  | a => a.fixedValue

/-- The element that a copy of a tag's element becomes with immediate values. -/
def dressed (f : Factory) (values : List Value) (tag : Tag) : ElementState :=
  f.applyAttrs (attrValue values) (f.boundAttrs tag) (Sprouts.copied f.elementOf tag)

mutual

/-- What a node of a literal comes to. -/
def direct (f : Factory) (values : List Value) : Node → List Tree
  | .text value => [.text value]
  | .hole i => (valueAt values i).shownTexts.map .text
  | .element tag children =>
    if f.registry.isComponent tag then directAll f values children
    else [.element tag.name (if tag.svg then .svg else .html) (dressed f values tag).attributes
      (directAll f values children)]

/-- What the nodes of a literal come to, in order. -/
def directAll (f : Factory) (values : List Value) : List Node → List Tree
  | [] => []
  | n :: ns => direct f values n ++ directAll f values ns

end

theorem directAll_append (f : Factory) (values : List Value) (ns ms : List Node) :
    directAll f values (ns ++ ms) = directAll f values ns ++ directAll f values ms := by
  induction ns with
  | nil => rw [directAll, List.nil_append, List.nil_append]
  | cons n ns ih => rw [List.cons_append, directAll, directAll, ih, List.append_assoc]

/-! ### What an action gives -/

/-- Nothing has changed but the page and the log. -/
structure Quiet (w w' : World) : Prop where
  graph : w'.graph = w.graph
  cache : w'.cache = w.cache
  stored : w'.stored = w.stored
  containers : w'.containers = w.containers
  live : w'.live = w.live

theorem Quiet.refl (w : World) : Quiet w w := ⟨rfl, rfl, rfl, rfl, rfl⟩

theorem Quiet.trans {w w₁ w' : World} (h : Quiet w w₁) (h' : Quiet w₁ w') : Quiet w w' :=
  ⟨h'.graph.trans h.graph, h'.cache.trans h.cache, h'.stored.trans h.stored,
    h'.containers.trans h.containers, h'.live.trans h.live⟩

/-- `Gives act w trees`: the action gives a value that shows `trees`.  Whatever the value brings
    along is new, and nothing else has changed. -/
def Gives (act : Run Value) (w : World) (trees : List Tree) : Prop :=
  ∃ w' v ss, act w = some (v, w') ∧ Quiet w w' ∧ w.page.Extends w'.page ∧
    Bears w'.page [v] ss ∧ ss.map Seed.tree = trees ∧ (idsAll (plants ss)).Nodup ∧
    ∀ x : Nat, x ∈ idsAll (plants ss) → w.page.size ≤ x

mutual

theorem bears_immediate (d : Page) : ∀ {v : Value} {vs : List Value} {ss : List Seed},
    v.isImmediate = true → Bears d vs ss → Bears d (v :: vs) (v.shownTexts.map Seed.text ++ ss)
  | .empty, _, _, _, hvs => .empty hvs
  | .bool b, _, _, _, hvs => .bool b hvs
  | .number n, _, _, _, hvs => .number n hvs
  | .text s, _, _, _, hvs => .text s hvs
  | .list items, _, _, h, hvs =>
    .list (bears_allImmediate d (by simpa [Value.isImmediate] using h)) hvs
  | .node _, _, _, h, _ => by simp [Value.isImmediate] at h
  | .reactive _, _, _, h, _ => by simp [Value.isImmediate] at h
  | .handler _, _, _, h, _ => by simp [Value.isImmediate] at h
  | .ref _, _, _, h, _ => by simp [Value.isImmediate] at h
  | .func _, _, _, h, _ => by simp [Value.isImmediate] at h
  | .spread _, _, _, h, _ => by simp [Value.isImmediate] at h

theorem bears_allImmediate (d : Page) : ∀ {vs : List Value}, Value.allImmediate vs = true →
    Bears d vs ((Value.allShownTexts vs).map Seed.text)
  | [], _ => .nil
  | v :: vs, h => by
    obtain ⟨hv, hvs⟩ : v.isImmediate = true ∧ Value.allImmediate vs = true := by
      simpa [Value.allImmediate] using h
    rw [Value.allShownTexts, List.map_append]
    exact bears_immediate d hv (bears_allImmediate d hvs)

end

/-- An immediate value as it is. -/
theorem gives_immediate {w : World} (hforest : w.page.IsForest) {v : Value}
    (h : v.isImmediate = true) : Gives (pure v) w (v.shownTexts.map .text) := by
  have hbears := bears_immediate w.page h .nil
  rw [List.append_nil] at hbears
  refine ⟨w, v, _, rfl, Quiet.refl w, Extends.refl hforest, hbears, by simp [Seed.tree], ?_, ?_⟩
  · rw [plants_texts]
    exact List.nodup_nil
  · rw [plants_texts]
    simp [idsAll]

/-- A value that an action gives is put in the place of a marker. -/
theorem fills_of_gives {β : Type} {base : Page} {inv : World → Prop}
    {step : World → World → List β → Prop} {shown : List (Plant Value Action) → List β → Prop}
    (hinv : ∀ w w', Quiet w w' → inv w → inv w') (hstep : ∀ w w', Quiet w w' → step w w' [])
    (f : Factory) (c : Calls) {act : Run Value} {trees : List Tree}
    (h : ∀ w : World, base.Extends w.page → Gives act w trees)
    (hshown : ∀ ts, Plant.trees ts = trees → shown ts []) :
    Fills base inv step (fun m => do
      let v ← act
      insertValue f c m v) shown := by
  intro w p m front back hw hext _ _ hm hplace
  obtain ⟨w₁, v, ss, hrun, hquiet, hext₁, hbears, htrees, hnodup, hyoung⟩ := h w hext
  have hmark : w.page.Regrown w.page p front [leaf m (.comment "")] [leaf m (.comment "")] back :=
    Regrown.refl hext.forest ⟨hm, trivial⟩ (by simpa [leaf, Plant.root] using hplace)
  have hstart : w.page.Regrown w₁.page p front [leaf m (.comment "")]
      ([] ++ leaf m (.comment "") :: []) back := hmark.extends_after hext₁
  obtain ⟨d', hrun', hgrown⟩ := insertValue_eq f c hext.forest hstart hbears hnodup hyoung
    fun x hx hmem => by
      have hxm : x = m := by simpa [idsAll, ids, leaf] using hmem
      have hlt : m < w.page.size := lt_size_of_node? (stands_leaf.mp hm)
      exact absurd (hyoung x hx) (by rw [hxm]; exact Nat.not_le.mpr hlt)
  have hquiet' : Quiet w { w₁ with page := d' } := hquiet.trans ⟨rfl, rfl, rfl, rfl, rfl⟩
  refine ⟨{ w₁ with page := d' }, _, [], ?_, hinv _ _ hquiet' hw, hstep _ _ hquiet',
    hshown _ ?_, by simpa using hgrown⟩
  · change (act >>= fun v => insertValue f c m v) w = _
    rw [run_bind hrun]
    exact hrun'
  · simp [trees_grow, htrees]

/-! ### Elements -/

theorem isImmediate_valueAt {values : List Value} (h : Value.allImmediate values = true) (i : Nat) :
    (valueAt values i).isImmediate = true := by
  rw [valueAt, List.getD_eq_getElem?_getD]
  rcases hget : values[i]? with _ | v
  · rfl
  · exact Value.allImmediate_iff.mp h v (List.mem_of_getElem? hget)

theorem isImmediate_attrValue {values : List Value} (h : Value.allImmediate values = true)
    (a : Attr) : (attrValue values a).isImmediate = true := by
  cases a with
  | mixed name parts quote =>
    have hpart (part : AttrPart) : (partValue values part).isReactive = false := by
      cases part with
      | text s => rfl
      | hole i => exact Value.isReactive_of_isImmediate (isImmediate_valueAt h i)
    have hnone : (parts.map (partValue values)).any Value.isReactive = false := by
      simp [hpart]
    rw [attrValue, joinedValue]
    simp only [hnone, Bool.false_eq_true, if_false]
    rfl
  | dynamic name i quote => exact isImmediate_valueAt h i
  | flag name => rfl
  | fixed name value quote => rfl
  | spread i => rfl

/-- An immediate value is written once. -/
theorem bindValue_immediate (f : Factory) (c : Calls) (id : NodeId) (name : String) {v : Value}
    (hv : v.isImmediate = true) (w : World) :
    bindValue f c id name v w = some ((), { w with
      page := w.page.updateElement id ((f.policy.resolve name).1.setter.write f.config
        (f.policy.resolve name).2 v) }) := by
  have hcallback (setter : Setter) : setter.callback? v = none := by
    cases v <;> first | (cases setter <;> rfl) | simp [Value.isImmediate] at hv
  have happly : bindValue f c id name v =
      applySetter f c id (f.policy.resolve name).1.setter (f.policy.resolve name).2 v := by
    rw [bindValue]
    cases v <;> first | rfl | simp [Value.isImmediate] at hv
  rw [happly, applySetter, hcallback, run_bind (run_changePage _ w)]
  rfl

/-- What binding one attribute does to the page. -/
theorem bindAttr_immediate (f : Factory) (c : Calls) {values : List Value}
    (hvalues : Value.allImmediate values = true) (id : NodeId) (later : List String) (a : Attr)
    (w : World) : bindAttr f c values id later a w = some ((), { w with
      page := w.page.updateElement id (f.applyAttr (attrValue values) a) }) := by
  have himmediate := isImmediate_attrValue hvalues a
  cases a with
  | flag name => exact bindValue_immediate f c id name himmediate w
  | fixed name value quote => exact bindValue_immediate f c id name himmediate w
  | dynamic name i quote => exact bindValue_immediate f c id name himmediate w
  | mixed name parts quote => exact bindValue_immediate f c id name himmediate w
  | spread i =>
    have hnothing : bindSpread f c id later (valueAt values i) w = some ((), w) := by
      have hv := isImmediate_valueAt hvalues i
      cases hcase : valueAt values i <;> first | rfl | simp [hcase, Value.isImmediate] at hv
    have hsame : w.page.updateElement id (f.applyAttr (attrValue values) (.spread i)) = w.page :=
      updateElement_self w.page id
    rw [bindAttr, hnothing, hsame]

theorem bindAttrs_immediate (f : Factory) (c : Calls) {values : List Value}
    (hvalues : Value.allImmediate values = true) (id : Nat) (as : List (Attr × Bool)) {w : World}
    {e : ElementState} {parent : Option NodeId} {cs : List NodeId} (hforest : w.page.IsForest)
    (hid : w.page.node? id = some ⟨.element e, parent, cs⟩) :
    ∃ d, bindAttrs f c values id as w = some ((), { w with page := d }) ∧ d.IsForest ∧
      d.size = w.page.size ∧
      d.node? id = some ⟨.element (f.applyAttrs (attrValue values)
        ((as.filter (!·.2)).map (·.1)) e), parent, cs⟩ ∧
      ∀ x, x ≠ id → d.node? x = w.page.node? x := by
  induction as generalizing w e with
  | nil => exact ⟨w.page, rfl, hforest, rfl, hid, fun _ _ => rfl⟩
  | cons a as ih =>
    obtain ⟨a, prebound⟩ := a
    cases prebound with
    | true =>
      obtain ⟨d, hrun, hrest⟩ := ih hforest hid
      refine ⟨d, ?_, hrest⟩
      rw [bindAttrs]
      exact hrun
    | false =>
      obtain ⟨d₁, hd₁⟩ : ∃ d₁,
          d₁ = w.page.updateElement id (f.applyAttr (attrValue values) a) := ⟨_, rfl⟩
      have hid₁ : d₁.node? id =
          some ⟨.element (f.applyAttr (attrValue values) a e), parent, cs⟩ := by
        rw [hd₁, node?_updateElement, hid]
        simp
      have hkeep₁ (x : NodeId) (hx : x ≠ id) : d₁.node? x = w.page.node? x := by
        rw [hd₁, node?_updateElement]
        rcases w.page.node? x with _ | ⟨content, q, cs⟩
        · rfl
        · cases content <;> simp [Ne.symm hx]
      have hforest₁ : d₁.IsForest := hd₁ ▸ hforest.updateElement id _
      have hsize₁ : d₁.size = w.page.size := by rw [hd₁, size_updateElement]
      obtain ⟨d, hrun, hforest', hsize, hid', hkeep⟩ :=
        ih (w := { w with page := d₁ }) hforest₁ hid₁
      refine ⟨d, ?_, hforest', hsize.trans hsize₁, hid', fun x hx => ?_⟩
      · have hone := bindAttr_immediate f c hvalues id (as.filterMap fun r => r.1.name?) a w
        rw [← hd₁] at hone
        rw [bindAttrs, if_neg (by simp), run_bind hone]
        exact hrun
      · rw [hkeep x hx, hkeep₁ x hx]

/-- Binding the attributes of an element with immediate values. -/
theorem bindTag_dresses {base : Page} (f : Factory) (c : Calls) (source : Compiled)
    {values : List Value} (hvalues : Value.allImmediate values = true) (tag : Tag) :
    Dresses base (fun _ => True) (fun w w' (_ : List Empty) => Quiet w w')
      (fun id => bindPoint f c source values id (.element tag)) (Sprouts.copied f.elementOf tag)
      (fun _ e _ => e = dressed f values tag) := by
  intro w p id cs _ hext _ hid
  obtain ⟨d, hrun, hforest, hsize, hid', hkeep⟩ := bindAttrs_immediate f c hvalues id
    (markPrebound f.policy false tag.attrs) hext.forest hid
  exact ⟨_, _, [], hrun, trivial, ⟨rfl, rfl, rfl, rfl, rfl⟩, rfl, hforest, Nat.le_of_eq hsize.symm,
    hid', fun x _ hx => hkeep x hx⟩

/-! ### Components -/

theorem get?_set (ps : Props) (name other : String) (e : Entry) :
    Props.get? (Props.set ps name e) other = if other = name then some e else ps.get? other := by
  induction ps with
  | nil =>
    by_cases h : name = other
    · simp [Props.set, Props.get?, h]
    · simp [Props.set, Props.get?, h, Ne.symm h]
  | cons p ps ih =>
    rw [Props.get?] at ih
    by_cases hp : p.1 = name <;> by_cases ho : p.1 = other <;>
      grind [Props.set, Props.get?]

theorem machine_resolve (f : Factory) (n : Nat) {v : Value} (hv : v.isImmediate = true)
    (w : World) : (machine f (n + 1)).resolve v w = some (v, w) := by
  rw [machine_succ]
  cases v <;> first | rfl | simp [Value.isImmediate] at hv

/-- The attributes of a component set no `children`, and reading them changes nothing. -/
theorem attrsProps_eq (f : Factory) (n : Nat) {values : List Value}
    (hvalues : Value.allImmediate values = true) {as : List Attr}
    (hnames : ∀ a ∈ as, a.name? ≠ some Props.childrenName) (ps : Props) (w : World) :
    ∃ ps', attrsProps (machine f (n + 1)) values ps as w = some (ps', w) ∧
      ps'.get? Props.childrenName = ps.get? Props.childrenName := by
  induction as generalizing ps with
  | nil => exact ⟨ps, rfl, rfl⟩
  | cons a as ih =>
    have hset (name : String) (e : Entry) (hname : name ≠ Props.childrenName) :
        (Props.set ps name e).get? Props.childrenName = ps.get? Props.childrenName := by
      rw [get?_set, if_neg (Ne.symm hname)]
    obtain ⟨ps₁, hone, hps₁⟩ : ∃ ps₁, attrProps (machine f (n + 1)) values ps a w = some (ps₁, w) ∧
        ps₁.get? Props.childrenName = ps.get? Props.childrenName := by
      have hname := hnames a List.mem_cons_self
      cases a with
      | flag name => exact ⟨_, rfl, hset name _ (by simpa [Attr.name?] using hname)⟩
      | fixed name value quote => exact ⟨_, rfl, hset name _ (by simpa [Attr.name?] using hname)⟩
      | dynamic name i quote => exact ⟨_, rfl, hset name _ (by simpa [Attr.name?] using hname)⟩
      | mixed name parts quote => exact ⟨_, rfl, hset name _ (by simpa [Attr.name?] using hname)⟩
      | spread i =>
        have hv := isImmediate_valueAt hvalues i
        refine ⟨ps, ?_, rfl⟩
        rw [attrProps, run_bind (machine_resolve f n hv w)]
        cases hcase : valueAt values i <;> first | rfl | simp [hcase, Value.isImmediate] at hv
    obtain ⟨ps', hrun, hps'⟩ := ih (fun a ha => hnames a (List.mem_cons_of_mem _ ha)) ps₁
    refine ⟨ps', ?_, hps'.trans hps₁⟩
    rw [attrsProps, run_bind hone]
    exact hrun

/-- An action whose readings count for nothing gives the same. -/
theorem gives_untracked (f : Factory) {act : Run Value} {w : World} {trees : List Tree}
    (h : ∀ g, Gives act { w with graph := g } trees) : Gives (untracked f act) w trees := by
  rw [untracked]
  split
  · obtain ⟨w', v, ss, hrun, hquiet, hrest⟩ := h w.graph.openUntracked
    refine ⟨{ w' with graph := w'.graph.closeScope }, v, ss, ?_, ?_, hrest⟩
    · have hopen : (modify fun g : SignalGraph => g.openUntracked : Run Unit) w =
          some ((), { w with graph := w.graph.openUntracked }) := rfl
      rw [Signal.untracked, run_bind hopen, run_bind hrun]
      rfl
    · refine ⟨?_, hquiet.cache, hquiet.stored, hquiet.containers, hquiet.live⟩
      simp only [hquiet.graph, Signal.Graph.closeScope, Signal.Graph.openUntracked, List.tail_cons]
  · exact h w.graph

/-- Every component of the application returns its children. -/
def ReturnsChildren (f : Factory) : Prop :=
  ∀ c ∈ f.registry.components, c.2 = Script.children

/-- A tag does not name the children of the component that it stands for. -/
def LeavesChildren (f : Factory) (tag : Tag) : Prop :=
  f.registry.isComponent tag = true → ∀ a ∈ tag.attrs, a.name? ≠ some Props.childrenName

theorem componentFor?_eq {f : Factory} (hf : ReturnsChildren f) {tag : Tag}
    (hc : f.registry.isComponent tag = true) :
    f.registry.componentFor? tag = some .children := by
  rw [Registry.isComponent] at hc
  rcases hbody : f.registry.componentFor? tag with _ | body
  · rw [hbody] at hc
    cases hc
  · rw [Registry.componentFor?] at hbody
    split at hbody
    · rw [Registry.get?, Option.map_eq_some_iff] at hbody
      obtain ⟨entry, hfind, rfl⟩ := hbody
      rw [hf entry (List.mem_of_find?_eq_some hfind)]
    · cases hbody

/-- A component gives what its content gives, three levels further down. -/
theorem invoke_gives {f : Factory} (hf : ReturnsChildren f) (n : Nat) {source : Compiled}
    {values : List Value} (hvalues : Value.allImmediate values = true) {tag : Tag}
    {children : List Node} {k : Nat} (hc : f.registry.isComponent tag = true)
    (hslot : tag.slot = some k) (hnames : LeavesChildren f tag) {w : World}
    (hforest : w.page.IsForest)
    (h : ∀ w₁ : World, w₁.page = w.page →
      Gives (renderContainer f (machine f n) source values k children) w₁
        (directAll f values children)) :
    Gives (invoke f (machine f (n + 3)) source values tag children) w
      (directAll f values children) := by
  rw [invoke, componentFor?_eq hf hc]
  refine gives_untracked f fun g => ?_
  obtain ⟨ps, hps, hget⟩ := attrsProps_eq f (n + 2) hvalues (hnames hc) [] { w with graph := g }
  have hget' : ps.get? Props.childrenName = none := hget
  -- the entry in the log is made before the content is rendered
  obtain ⟨w₁, hw₁⟩ : ∃ w₁ : World,
      w₁ = { w with graph := g, log := w.log.push (.invoked tag.name) } := ⟨_, rfl⟩
  have hpage₁ : w₁.page = w.page := by rw [hw₁]
  have hquiet₁ : Quiet { w with graph := g } w₁ := by
    rw [hw₁]
    exact ⟨rfl, rfl, rfl, rfl, rfl⟩
  have hlog : log (.invoked tag.name) { w with graph := g } = some ((), w₁) := by
    rw [hw₁]
    rfl
  have hbuild {ps' : Props} (hprops : componentProps (machine f (n + 3)) source values tag children
        { w with graph := g } = some (ps', { w with graph := g }))
      (hgives : Gives (propValue (machine f (n + 2)) ps' Props.childrenName) w₁
        (directAll f values children)) :
      Gives (do
        let ps ← componentProps (machine f (n + 3)) source values tag children
        log (.invoked tag.name)
        (machine f (n + 3)).build (some ps) .children) { w with graph := g }
        (directAll f values children) := by
    obtain ⟨w', v, ss, hrun, hquiet, hext, hrest⟩ := hgives
    rw [hpage₁] at hext hrest
    refine ⟨w', v, ss, ?_, hquiet₁.trans hquiet, hext, hrest⟩
    rw [run_bind hprops, run_bind hlog]
    exact hrun
  cases children with
  | nil =>
    refine @hbuild ps ?_ ?_
    · rw [componentProps, run_bind hps, hslot]
      rfl
    · have hempty : propValue (machine f (n + 2)) ps Props.childrenName = pure .empty := by
        rw [propValue, hget']
      rw [hempty]
      exact gives_immediate (v := .empty) (hpage₁ ▸ hforest) rfl
  | cons m ms =>
    have hentry : propValue (machine f (n + 2)) (Props.set ps Props.childrenName
        (.reactive (.children source values k (m :: ms)))) Props.childrenName =
        fun w => renderContainer f (machine f n) source values k (m :: ms) w := by
      rw [propValue, get?_set, if_pos rfl]
      rfl
    refine @hbuild (Props.set ps Props.childrenName
      (.reactive (.children source values k (m :: ms)))) ?_ ?_
    · rw [componentProps, run_bind hps, hslot]
      rfl
    · rw [hentry]
      exact h w₁ hpage₁

/-! ### Containers -/

/-- What the points of a container come to in the direct reading. -/
def directReading (f : Factory) (values : List Value) : Reading Empty where
  hole i ts _ := Plant.trees ts = (valueAt values i).shownTexts.map .text
  element tag _ e _ := e = dressed f values tag
  component _ children ts _ := Plant.trees ts = directAll f values children

theorem trees_append (ts us : List (Plant Value Action)) :
    Plant.trees (ts ++ us) = Plant.trees ts ++ Plant.trees us := by
  rw [trees_eq_map, trees_eq_map, trees_eq_map, List.map_append]

/-- Plants read as the direct reading says have the trees that it says. -/
theorem trees_of_shows {f : Factory} (hpolicy : f.policy = .usual) {values : List Value}
    {ns : List Node} {ts : List (Plant Value Action)} {bs : List Empty}
    (h : Shows f.toSetup (directReading f values) ns ts bs) :
    Plant.trees ts = directAll f values ns := by
  induction h with
  | nil => rfl
  | text id value _ ih =>
    rw [directAll, direct, Plant.trees, ih]
    rfl
  | hole hi _ ih => rw [directAll, direct, trees_append, hi, ih]
  | component hc hcomponent _ ih =>
    rw [directAll, direct, if_pos hc, trees_append, hcomponent, ih]
  | @element tag id e children ns cs ts as bs' bs hc htag _ _ ihchildren ih =>
    obtain rfl : e = dressed f values tag := htag
    have hkeeps := Setup.elementOf_keeps (s := f.toSetup) hpolicy tag
    have hdressed := Setup.applyAttrs_keeps (s := f.toSetup) hpolicy (attrValue values)
      (f.boundAttrs tag) (Sprouts.copied f.elementOf tag)
    have hname : (dressed f values tag).name = tag.name := hdressed.1.trans hkeeps.1
    have hspace : (dressed f values tag).space = if tag.svg then .svg else .html :=
      hdressed.2.trans hkeeps.2
    rw [directAll, direct, if_neg (by simp [hc]), Plant.trees, Plant.tree, ihchildren, ih, hname,
      hspace]
    rfl

/-- What there is to know about a component of a container. -/
theorem of_component_point {f : Factory} {base : Nat} {d : Page} {look : Nat → Option NodeId}
    {P : Tag → Prop} {ns : List Node} (hready : Ready f.toSetup base d look ns)
    (htags : Node.EveryTagAll P ns) {tag : Tag} {children : List Node}
    (hpt : Point.component tag children ∈ pointsOfAll f ns) :
    f.registry.isComponent tag = true ∧ P tag ∧ Node.EveryTagAll P children ∧
      Node.size.sizeAll children < Node.size.sizeAll ns ∧
      Ready f.toSetup base d look children ∧
      ∃ k, tag.slot = some k ∧ Furnished f.toSetup base d (look k) children := by
  induction hready with
  | nil => cases hpt
  | text value _ ih =>
    obtain ⟨hc, hP, hchildren, hlt, hrest⟩ := ih htags.2 hpt
    exact ⟨hc, hP, hchildren, by rw [Node.size.sizeAll]; omega, hrest⟩
  | hole i _ ih =>
    rcases List.mem_cons.mp hpt with heq | hpt
    · cases heq
    · obtain ⟨hc, hP, hchildren, hlt, hrest⟩ := ih htags.2 hpt
      exact ⟨hc, hP, hchildren, by rw [Node.size.sizeAll]; omega, hrest⟩
  | @component tag' children' ns k hc' hslot hskeleton hready' _ _ ih =>
    rw [pointsOfAll, pointsOf, if_pos hc'] at hpt
    rcases List.mem_cons.mp hpt with heq | hpt
    · obtain ⟨rfl, rfl⟩ := by simpa using heq
      refine ⟨hc', htags.1.1, htags.1.2, ?_, hready', k, hslot, hskeleton⟩
      rw [Node.size.sizeAll, Node.size]
      omega
    · obtain ⟨hc, hP, hchildren, hlt, hrest⟩ := ih htags.2 hpt
      exact ⟨hc, hP, hchildren, by rw [Node.size.sizeAll]; omega, hrest⟩
  | @element tag' children' ns hc' _ _ ihchildren ih =>
    rw [pointsOfAll, pointsOf, if_neg (by simp [hc'])] at hpt
    rcases List.mem_cons.mp hpt with heq | hpt
    · cases heq
    · rcases List.mem_append.mp hpt with hpt | hpt
      · obtain ⟨hc, hP, hchildren, hlt, hrest⟩ := ihchildren htags.1.2 hpt
        exact ⟨hc, hP, hchildren, by rw [Node.size.sizeAll, Node.size]; omega, hrest⟩
      · obtain ⟨hc, hP, hchildren, hlt, hrest⟩ := ih htags.2 hpt
        exact ⟨hc, hP, hchildren, by rw [Node.size.sizeAll]; omega, hrest⟩

/-- `GivesAll acts w trees`: what `Gives` says, of an action with several values. -/
def GivesAll (acts : Run (List Value)) (w : World) (trees : List Tree) : Prop :=
  ∃ w' vs ss, acts w = some (vs, w') ∧ Quiet w w' ∧ w.page.Extends w'.page ∧
    Bears w'.page vs ss ∧ ss.map Seed.tree = trees ∧ (idsAll (plants ss)).Nodup ∧
    ∀ x : Nat, x ∈ idsAll (plants ss) → w.page.size ≤ x

theorem GivesAll.cons {act : Run Value} {acts : Run (List Value)} {w : World}
    {trees trees' : List Tree} (h : Gives act w trees)
    (h' : ∀ w₁ : World, w.page.Extends w₁.page → GivesAll acts w₁ trees') :
    GivesAll (do
      let v ← act
      let vs ← acts
      pure (v :: vs)) w (trees ++ trees') := by
  obtain ⟨w₁, v, ss, hrun, hquiet, hext, hbears, htrees, hnodup, hyoung⟩ := h
  obtain ⟨w', vs, ss', hrun', hquiet', hext', hbears', htrees', hnodup', hyoung'⟩ := h' w₁ hext
  refine ⟨w', v :: vs, ss ++ ss', ?_, hquiet.trans hquiet', hext.trans hext',
    (hbears.mono hext').append hbears', ?_, ?_, fun x hx => ?_⟩
  · rw [run_bind hrun, run_bind hrun']
    rfl
  · rw [List.map_append, htrees, htrees']
  · rw [plants_append, idsAll_append]
    refine List.nodup_append.mpr ⟨hnodup, hnodup', fun x hx y hy heq => ?_⟩
    subst heq
    exact absurd (hbears.lt_size hx) (Nat.not_lt.mpr (hyoung' x hy))
  · rw [plants_append, idsAll_append] at hx
    rcases List.mem_append.mp hx with hx | hx
    · exact hyoung x hx
    · exact Nat.le_trans hext.size_le (hyoung' x hx)

/-- A new text node. -/
theorem gives_text {w : World} (hforest : w.page.IsForest) (s : String) :
    Gives (do
      let id ← onPage (·.createText s)
      pure (Value.node id)) w [.text s] := by
  obtain ⟨d, hd⟩ : ∃ d, d = (w.page.create (.text s)).2 := ⟨_, rfl⟩
  have hloose : Loose d (leaf w.page.size (.text s)) := hd ▸ loose_create_text w.page s
  refine ⟨{ w with page := d }, .node w.page.size, [.plant (leaf w.page.size (.text s))], ?_,
    ⟨rfl, rfl, rfl, rfl, rfl⟩, hd ▸ Extends.create hforest _, .node hloose .nil, rfl, ?_, ?_⟩
  · rw [hd]
    rfl
  · exact List.nodup_singleton _
  · intro x hx
    have hxs : x = w.page.size := by simpa [plants, idsAll, ids, leaf] using hx
    exact Nat.le_of_eq hxs.symm

/-- A container without a skeleton, given what its components give. -/
theorem looseValues_gives {f : Factory} {c : Calls} {source : Compiled} {values : List Value}
    (hvalues : Value.allImmediate values = true) {d : Page} {ns : List Node}
    (hneeds : f.needsSkeleton ns = false)
    (hinvoke : ∀ {tag : Tag} {children : List Node}, .component tag children ∈ pointsOfAll f ns →
      ∀ w : World, d.Extends w.page →
        Gives (invoke f c source values tag children) w (directAll f values children)) :
    ∀ w : World, d.Extends w.page →
      GivesAll (looseValues f c source values ns) w (directAll f values ns) := by
  induction ns with
  | nil =>
    intro w hext
    exact ⟨w, [], [], rfl, Quiet.refl w, Extends.refl hext.forest, .nil, rfl, List.nodup_nil,
      by simp [plants, idsAll]⟩
  | cons n ns ih =>
    intro w hext
    rw [Setup.needsSkeleton_cons, Bool.or_eq_false_iff] at hneeds
    have htail (w₁ : World) (hext₁ : w.page.Extends w₁.page) :
        GivesAll (looseValues f c source values ns) w₁ (directAll f values ns) :=
      ih hneeds.2 (fun hpt => hinvoke (List.mem_append_right _ hpt)) w₁ (hext.trans hext₁)
    cases n with
    | text value => exact GivesAll.cons (gives_text hext.forest value) htail
    | hole i =>
      exact GivesAll.cons (gives_immediate hext.forest (isImmediate_valueAt hvalues i)) htail
    | element tag children =>
      have hc : f.registry.isComponent tag = true := by
        simpa [Setup.isPlainElement] using hneeds.1
      have hhead : Gives (invoke f c source values tag children) w
          (direct f values (.element tag children)) := by
        rw [direct, if_pos hc]
        refine hinvoke ?_ w hext
        rw [pointsOfAll, pointsOf, if_pos hc]
        exact List.mem_cons_self
      exact GivesAll.cons hhead htail

/-- A container gives what the direct reading of its nodes says, if its components do. -/
theorem renderContainer_gives_of_invoke {f : Factory} (hpolicy : f.policy = .usual) {c : Calls}
    {source : Compiled} {values : List Value} (hvalues : Value.allImmediate values = true)
    {d : Page} {slot : Nat} {ns : List Node}
    (hfurnished : Furnished f.toSetup 0 d (source.skeleton? slot) ns)
    (hinvoke : ∀ {tag : Tag} {children : List Node}, .component tag children ∈ pointsOfAll f ns →
      ∀ w : World, d.Extends w.page →
        Gives (invoke f c source values tag children) w (directAll f values children))
    (w : World) (hext : d.Extends w.page) :
    Gives (renderContainer f c source values slot ns) w (directAll f values ns) := by
  rcases hskeleton : source.skeleton? slot with _ | root
  · rw [hskeleton] at hfurnished
    obtain ⟨w', vs, ss, hrun, hquiet, hext', hbears, hrest⟩ :=
      looseValues_gives hvalues hfurnished hinvoke w hext
    refine ⟨w', Value.ofList vs, ss, ?_, hquiet, hext', bears_ofList hbears, hrest⟩
    rw [renderContainer, hskeleton]
    simp only
    rw [run_bind hrun]
    rfl
  · rw [hskeleton] at hfurnished
    have hpoints : ∀ pt ∈ pointsOfAll f ns,
        PointShows w.page (fun _ => True) (fun w w' (_ : List Empty) => Quiet w w') f c source
          values (Sprouts.copied f.elementOf) (directReading f values) pt := by
      intro pt hpt
      cases pt with
      | hole i =>
        have hgives (w₁ : World) (hext₁ : w.page.Extends w₁.page) :
            Gives (pure (valueAt values i)) w₁
            ((valueAt values i).shownTexts.map .text) :=
          gives_immediate hext₁.forest (isImmediate_valueAt hvalues i)
        exact fills_of_gives (fun _ _ _ _ => trivial) (fun _ _ h => h) f c hgives fun _ h => h
      | element tag => exact bindTag_dresses f c source hvalues tag
      | component tag children =>
        have hgives (w₁ : World) (hext₁ : w.page.Extends w₁.page) :
            Gives (invoke f c source values tag children) w₁ (directAll f values children) :=
          hinvoke hpt w₁ (hext.trans hext₁)
        exact fills_of_gives (fun _ _ _ _ => trivial) (fun _ _ h => h) f c hgives fun _ h => h
    obtain ⟨w', us, _, hrun, _, hquiet, hshows, hext', ⟨q, hstand⟩, hnodup, hyoung⟩ :=
      renderContainer_copy (fun w _ => ⟨rfl, rfl, rfl, rfl, rfl⟩) (fun _ _ _ => trivial)
        (fun h h' => h.trans h') hskeleton
        (hfurnished.mono (Nat.le_refl _) fun x _ hx => hext.same x hx.lt_size) hpoints
        hext.forest trivial
    refine ⟨w', _, us.map Seed.plant, hrun, hquiet, hext',
      bears_ofList (bears_nodes (loose_of_allStand hstand hext'.forest)), ?_, ?_, ?_⟩
    · rw [← trees_of_shows hpolicy hshows, trees_eq_map, List.map_map]
      rfl
    · rwa [plants_map]
    · rwa [plants_map]

/-- A container gives what the direct reading of its nodes says. -/
theorem renderContainer_gives {f : Factory} (hf : ReturnsChildren f) (hpolicy : f.policy = .usual)
    {source : Compiled} {values : List Value} (hvalues : Value.allImmediate values = true)
    {d : Page} (size : Nat) : ∀ {slot : Nat} {ns : List Node},
      Node.size.sizeAll ns ≤ size → Furnished f.toSetup 0 d (source.skeleton? slot) ns →
      Ready f.toSetup 0 d source.skeleton? ns → Node.EveryTagAll (LeavesChildren f) ns →
      ∀ {n : Nat}, 3 * size ≤ n → ∀ w : World, d.Extends w.page →
        Gives (renderContainer f (machine f n) source values slot ns) w
          (directAll f values ns) := by
  induction size with
  | zero =>
    intro slot ns hsize hfurnished hready htags n _ w hext
    refine renderContainer_gives_of_invoke hpolicy hvalues hfurnished (fun hpt => ?_) w hext
    obtain ⟨-, -, -, hlt, -⟩ := of_component_point hready htags hpt
    omega
  | succ size ih =>
    intro slot ns hsize hfurnished hready htags n hn w hext
    refine renderContainer_gives_of_invoke hpolicy hvalues hfurnished (fun hpt => ?_) w hext
    obtain ⟨hc, hnames, hchildren, hlt, hready', k, hslot, hfurnished'⟩ :=
      of_component_point hready htags hpt
    obtain ⟨m, rfl⟩ : ∃ m, n = m + 3 := ⟨n - 3, by omega⟩
    intro w₁ hext₁
    refine invoke_gives hf m hvalues hc hslot hnames hext₁.forest fun w₂ hpage => ?_
    exact ih (by omega) hfurnished' hready' hchildren (by omega) w₂ (hpage ▸ hext₁)

/-! ### Literals -/

/-- The containers of a literal: its own nodes, and the children of each component. -/
inductive ContainerOf (f : Factory) (nodes : List Node) : Nat → List Node → Prop where
  | root : ContainerOf f nodes rootSlot nodes
  | component {slot k : Nat} {ns children : List Node} {tag : Tag}
      (h : ContainerOf f nodes slot ns) (hpt : Point.component tag children ∈ pointsOfAll f ns)
      (hslot : tag.slot = some k) : ContainerOf f nodes k children

/-- The points of a container and the stations of any copy of its skeleton are as many and
    belong together one by one; a container without a skeleton has components only. -/
def InStep (f : Factory) (source : Compiled) (d : Page) (slot : Nat) (ns : List Node) : Prop :=
  match source.skeleton? slot with
  | none => ∀ tag children, Node.element tag children ∈ ns → f.registry.isComponent tag = true
  | some root => List.Forall₂ (Meets (d.copy root).2 (Sprouts.copied f.elementOf))
      (pointsOfAll f ns) (stations (d.copy root).2 (d.copy root).1)

theorem inStep_of_furnished {f : Factory} {source : Compiled} {d : Page} {slot : Nat}
    {ns : List Node} (hforest : d.IsForest)
    (h : Furnished f.toSetup 0 d (source.skeleton? slot) ns) : InStep f source d slot ns := by
  rw [InStep]
  cases hskeleton : source.skeleton? slot with
  | none =>
    rw [hskeleton] at h
    intro tag children hmem
    have hplain : f.isPlainElement (.element tag children) = false := by
      have hnone : ns.any f.isPlainElement = false := h
      rw [List.any_eq_false] at hnone
      simpa using hnone _ hmem
    simpa [Setup.isPlainElement] using hplain
  | some root =>
    rw [hskeleton] at h
    obtain ⟨ts, hstand, hsprouts, -⟩ := h
    obtain ⟨d', hcopy, hforest', -, hcopied, -⟩ := copy_spec hforest hstand
    rw [Plant.root] at hcopy
    simp only [hcopy]
    rw [stations_eq hcopied hforest']
    exact forall₂_meets (hsprouts.copyAllAt _) hcopied.below

/-- What there is to know about a container of a literal that has its skeletons. -/
theorem of_containerOf {f : Factory} {source : Compiled} {d : Page} {P : Tag → Prop}
    (hstocked : Setup.Stocked f.toSetup d source)
    (htags : Node.EveryTagAll P source.tree.children) {slot : Nat} {ns : List Node}
    (h : ContainerOf f source.tree.children slot ns) :
    Furnished f.toSetup 0 d (source.skeleton? slot) ns ∧
      Ready f.toSetup 0 d source.skeleton? ns ∧ Node.EveryTagAll P ns := by
  induction h with
  | root => exact ⟨hstocked.furnished, hstocked.ready, htags⟩
  | component _ hpt hslot ih =>
    obtain ⟨-, hready, htags'⟩ := ih
    obtain ⟨-, -, hchildren, -, hready', k, hk, hfurnished⟩ :=
      of_component_point hready htags' hpt
    obtain rfl := Option.some.inj (hslot.symm.trans hk)
    exact ⟨hfurnished, hready', hchildren⟩

/-- What a literal gives is put after the children of the parent, and nothing else changes. -/
theorem renderLiteral_mount_of_gives {f : Factory} {l : Literal} {values : List Value}
    {w w₀ : World} {source : Compiled} {parent : Nat} {m : Nat} {trees : List Tree}
    (hsound : Sound f l w) (hcompile : compile f l w = some (.ok source, w₀))
    (hcount : values.length = l.holeCount) (hparent : parent < w.page.size)
    (hgives : Gives (renderContainer f (machine f m) source values rootSlot source.tree.children) w₀
      trees) :
    ∃ v w₁ w₂ us, renderLiteral f (machine f (m + 1)) l values w = some (.ok v, w₁) ∧
      mount f (machine f (m + 1)) parent v w₁ = some ((), w₂) ∧
      w.page.Extends w₁.page ∧
      w₂.page.children parent = w.page.children parent ++ us ∧
      us.map w₂.page.tree = trees ∧
      (∀ x : Nat, x < w.page.size → x ≠ parent → w₂.page.node? x = w.page.node? x) ∧
      w₂.page.IsForest ∧ w₂.page.name? parent = w.page.name? parent ∧
      Sound f l w₁ ∧ (¬ InFragment w.page parent → Sound f l w₂) := by
  obtain ⟨-, -, hext₀, hsound₀, -⟩ := compile_sound hsound hcompile
  obtain ⟨w₁, v, ss, hrun, hquiet, hext₁, hbears, htrees, hnodup, hyoung⟩ := hgives
  have hrender : renderLiteral f (machine f (m + 1)) l values w = some (.ok v, w₁) := by
    rw [renderLiteral, if_neg (by simp [hcount]), run_bind hcompile]
    exact run_bind hrun fun v => pure (Except.ok v)
  have hparent₀ : parent < w₀.page.size := Nat.lt_of_lt_of_le hparent hext₀.size_le
  obtain ⟨base, d', hmount, hgrown⟩ := mount_eq f (machine f (m + 1)) hext₀.forest hext₁ hparent₀
    hbears hnodup hyoung
  have hframe (x : Nat) (hx : x < w₀.page.size) (hne : x ≠ parent) :
      d'.node? x = w₀.page.node? x := hgrown.frame x hx hne (by simp [idsAll])
  obtain ⟨c, q, hbefore, hafter⟩ := hgrown.place
  refine ⟨v, w₁, _, roots (grow base ss), hrender, hmount, hext₀.trans hext₁, ?_, ?_,
    fun x hx hne => ?_, hgrown.forest, ?_, hsound₀.of_extends hquiet.cache hext₁, fun hout => ?_⟩
  · rw [children_of_node? hafter, List.append_nil, children, hext₀.same parent hparent, ← children]
  · rw [hgrown.stand.map_tree hgrown.forest, trees_grow, htrees]
  · rw [hframe x (Nat.lt_of_lt_of_le hx hext₀.size_le) hne, hext₀.same x hx]
  · rw [hext₀.same parent hparent] at hbefore
    rw [name?_of_node? hafter, name?_of_node? hbefore]
  · refine hsound₀.of_frame hquiet.cache hgrown.forest fun x hx => hframe x hx.lt_size ?_
    rintro rfl
    exact hout (hx.of_extends hsound.forest hext₀ hparent)

/-- Rendering a literal and mounting the result puts what the direct reading says after the
    children of the parent, and points and stations never get out of step. -/
theorem renderLiteral_mount_direct {f : Factory} {l : Literal} {values : List Value}
    {w w₀ : World} {source : Compiled} {parent : Nat} (hpolicy : f.policy = .usual)
    (hcomponents : ReturnsChildren f) (hsound : Sound f l w)
    (hcompile : compile f l w = some (.ok source, w₀))
    (htags : Node.EveryTagAll (LeavesChildren f) source.tree.children)
    (hvalues : Value.allImmediate values = true) (hcount : values.length = l.holeCount)
    (hparent : parent < w.page.size) :
    l.parse f.config = .ok source.tree ∧
    (∀ slot ns, ContainerOf f source.tree.children slot ns →
      ∀ d, w₀.page.Extends d → InStep f source d slot ns) ∧
    ∀ n, 3 * Node.size.sizeAll source.tree.children < n → ∃ v w₁ w₂ us,
      renderLiteral f (machine f n) l values w = some (.ok v, w₁) ∧
      mount f (machine f n) parent v w₁ = some ((), w₂) ∧
      w.page.Extends w₁.page ∧
      w₂.page.children parent = w.page.children parent ++ us ∧
      us.map w₂.page.tree = directAll f values source.tree.children ∧
      (∀ x : Nat, x < w.page.size → x ≠ parent → w₂.page.node? x = w.page.node? x) ∧
      Sound f l w₁ ∧ (¬ InFragment w.page parent → Sound f l w₂) := by
  obtain ⟨hparse, hstocked, hext₀, -, -⟩ := compile_sound hsound hcompile
  refine ⟨hparse, fun slot ns hcontainer d hext => ?_, fun n hn => ?_⟩
  · obtain ⟨hfurnished, -, -⟩ := of_containerOf hstocked htags hcontainer
    exact inStep_of_furnished hext.forest
      (hfurnished.mono (Nat.le_refl _) fun x _ hx => hext.same x hx.lt_size)
  · obtain ⟨m, rfl⟩ : ∃ m, n = m + 1 := ⟨n - 1, by omega⟩
    have hgives := renderContainer_gives hcomponents hpolicy hvalues _ (Nat.le_refl _)
      hstocked.furnished hstocked.ready htags (n := m) (by omega) w₀ (Extends.refl hext₀.forest)
    obtain ⟨v, w₁, w₂, us, hrender, hmount, hext, hchildren, htrees, hframe, -, -, hsound₁,
        hsound₂⟩ :=
      renderLiteral_mount_of_gives hsound hcompile hcount hparent hgives
    exact ⟨v, w₁, w₂, us, hrender, hmount, hext, hchildren, htrees, hframe, hsound₁, hsound₂⟩

/-- An application with a component that returns its children. -/
def boxFactory : Factory where
  config := .usual
  policy := .usual
  registry := ⟨[("Box", .children)]⟩
  literals := []
  tracking := false

/-- A paragraph with a hole and a component in it, of which the latter has a hole of its own. -/
def boxLiteral : Literal := ⟨"box", ["<p>", "<Box>", "</Box></p>!"]⟩

def boxTree : Template :=
  ⟨[.element ⟨"p", [], false, none⟩ [.hole 0, .element ⟨"Box", [], false, some 1⟩ [.hole 1]],
    .text "!"], 2⟩

/-- A page with one element. -/
def boxWorld : World :=
  { World.initial [] with page := (Document.createElement Document.empty "div" .html).2 }

theorem renderLiteral_mount_direct_box :
    ∃ v w₁ w₂ us, renderLiteral boxFactory (machine boxFactory 19) boxLiteral
        [.text "a", .list [.text "b", .bool true, .text "c"]] boxWorld = some (.ok v, w₁) ∧
      mount boxFactory (machine boxFactory 19) 0 v w₁ = some ((), w₂) ∧
      w₂.page.children 0 = us ∧ us.map w₂.page.tree =
        [.element "p" .html [] [.text "a", .text "b", .text "c"], .text "!"] := by
  obtain ⟨skeletons, w₀, hcompile⟩ : ∃ skeletons w₀,
      compile boxFactory boxLiteral boxWorld = some (.ok ⟨boxTree, skeletons⟩, w₀) :=
    exists_of_compiled (by decide +kernel)
  have hcomponents : ReturnsChildren boxFactory := by
    simp [ReturnsChildren, boxFactory]
  have hsound : Sound boxFactory boxLiteral boxWorld :=
    ⟨isForest_empty.create _, fun source h => by cases h⟩
  have htags : Node.EveryTagAll (LeavesChildren boxFactory) boxTree.children := by
    simp [boxTree, Node.EveryTagAll, Node.EveryTag, LeavesChildren]
  have hcount : [Value.text "a", .list [.text "b", .bool true, .text "c"]].length =
      boxLiteral.holeCount := rfl
  have hparent : 0 < boxWorld.page.size := by decide
  have hsize : 3 * Node.size.sizeAll boxTree.children < 19 := by decide
  obtain ⟨-, -, hrun⟩ := renderLiteral_mount_direct rfl hcomponents hsound hcompile htags rfl
    hcount hparent
  obtain ⟨v, w₁, w₂, us, hrender, hmount, -, hchildren, htrees, -⟩ := hrun 19 hsize
  exact ⟨v, w₁, w₂, us, hrender, hmount, hchildren, htrees⟩

end Render
end Stencil
