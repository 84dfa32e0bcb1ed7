/-
  Stencil/Proofs/Value/Within.lean
  ================================
  **What values hold.**

  A value can hold nodes, code, the names of signals, and compiled literals; so can props,
  readers, and what runs on account of an element.  `Bounds` says which of these are
  allowed, and a value is *within* the bounds if it holds nothing else, however deep
  inside.

  Being within bounds is monotone in the bounds, and every way of putting values together
  keeps it.  For code that is asked of the bounds: what is allowed of a script has to be
  allowed of its parts (`Bounds.Coherent`).
-/
import Stencil.Render.Container

namespace Stencil

open Markup (AttrPart)

/-! ### Scripts -/

namespace Script

/-- The scripts that a script is made of. -/
def parts : Script → List Script
  | list items => items
  | func _ (some result) => [result]
  | later body => [body]
  | choose _ yes no => [yes, no]
  | write _ _ next => [next]
  | note _ next => [next]
  | join pieces => pieces
  | spread entries => entries.map (·.2.2)
  | element _ inner => inner
  | fragment inner => inner
  | html _ values => values
  | call _ argument => [argument]
  | _ => []

/-- The signals whose scripts are built along with a script. -/
def builds : Script → List String
  | signal name => [name]
  | peek name => [name]
  | _ => []

/-- What a script sets signals to, by itself or by the handler that it makes. -/
def assigns : Script → List (String × Script)
  | write name value _ => [(name, value)]
  | handler _ (some a) => [a]
  | _ => []

end Script

/-! ### Bounds -/

/-- What values and bindings may hold: nodes, elements to bind attributes to, signals to
    build, code, writes of signals, compiled literals and what stands in them, literals to
    render, and setters. -/
structure Bounds where
  node : NodeId → Prop
  site : NodeId → Prop
  signal : String → Prop
  code : Script → Prop
  write : String → Script → Prop
  source : Compiled → Prop
  content : List Markup.Node → Prop
  literal : Literal → Prop
  setter : Setter → Prop

namespace Bounds

/-- What is allowed by the one is allowed by the other. -/
structure Le (b b' : Bounds) : Prop where
  node : ∀ id, b.node id → b'.node id
  site : ∀ id, b.site id → b'.site id
  signal : ∀ name, b.signal name → b'.signal name
  code : ∀ code, b.code code → b'.code code
  write : ∀ name code, b.write name code → b'.write name code
  source : ∀ source, b.source source → b'.source source
  content : ∀ nodes, b.content nodes → b'.content nodes
  literal : ∀ l, b.literal l → b'.literal l
  setter : ∀ setter, b.setter setter → b'.setter setter

/-- What is allowed of a script is allowed of all that it is made of. -/
structure Coherent (b : Bounds) : Prop where
  parts : ∀ code, b.code code → ∀ part ∈ code.parts, b.code part
  builds : ∀ code, b.code code → ∀ name ∈ code.builds, b.signal name
  assigns : ∀ code, b.code code → ∀ a ∈ code.assigns, b.write a.1 a.2

end Bounds

variable {b b' : Bounds}

/-! ### Values -/

/-- A handler sets signals as allowed. -/
def Handler.Within (b : Bounds) (h : Handler) : Prop := ∀ a, h.assigns = some a → b.write a.1 a.2

/-- The result of a callback is allowed. -/
def Func.Within (b : Bounds) (f : Func) : Prop := ∀ code, f.result = some code → b.code code

mutual

/-- A value holds nothing but what is allowed. -/
inductive Value.Within (b : Bounds) : Value → Prop where
  | empty : Value.Within b .empty
  | bool (flag : Bool) : Value.Within b (.bool flag)
  | number (n : Number) : Value.Within b (.number n)
  | text (s : String) : Value.Within b (.text s)
  | node {id : NodeId} (h : b.node id) : Value.Within b (.node id)
  | list {items : List Value} (h : ∀ v ∈ items, Value.Within b v) : Value.Within b (.list items)
  | reactive {r : Reader} (h : Reader.Within b r) : Value.Within b (.reactive r)
  | handler {h : Handler} (hh : h.Within b) : Value.Within b (.handler h)
  | ref (label : String) : Value.Within b (.ref label)
  | func {f : Func} (h : f.Within b) : Value.Within b (.func f)
  | spread {entries : List (String × Entry)} (h : ∀ e ∈ entries, Entry.Within b e.2) :
      Value.Within b (.spread entries)

/-- A prop holds nothing but what is allowed. -/
inductive Entry.Within (b : Bounds) : Entry → Prop where
  | immediate {v : Value} (h : Value.Within b v) : Entry.Within b (.immediate v)
  | reactive {r : Reader} (h : Reader.Within b r) : Entry.Within b (.reactive r)

/-- A reader holds nothing but what is allowed. -/
inductive Reader.Within (b : Bounds) : Reader → Prop where
  | script {props : Option (List (String × Entry))} {code : Script}
      (hprops : ∀ ps, props = some ps → ∀ e ∈ ps, Entry.Within b e.2) (hcode : b.code code) :
      Reader.Within b (.script props code)
  | signal {name : String} (h : b.signal name) : Reader.Within b (.signal name)
  | join {pieces : List Value} (h : ∀ v ∈ pieces, Value.Within b v) : Reader.Within b (.join pieces)
  | children {source : Compiled} {values : List Value} (slot : Nat) {nodes : List Markup.Node}
      (hsource : b.source source) (hnodes : b.content nodes)
      (hvalues : ∀ v ∈ values, Value.Within b v) :
      Reader.Within b (.children source values slot nodes)

end

/-- Props hold nothing but what is allowed. -/
def Props.Within (b : Bounds) (ps : Props) : Prop := ∀ e ∈ ps, e.2.Within b

/-- What a listener runs is allowed. -/
def Action.Within (b : Bounds) : Action → Prop
  | handler h => h.Within b
  | read r => r.Within b
  | call f => f.Within b

/-- A binding holds nothing but what is allowed. -/
def Render.Binding.Within (b : Bounds) : Render.Binding → Prop
  | .attribute node setter _ reader => b.site node ∧ b.setter setter ∧ reader.Within b
  | .spread node _ reader => b.site node ∧ reader.Within b
  | .content marker reader current => b.node marker ∧ reader.Within b ∧ ∀ n ∈ current, b.node n

/-- The content of a component's place and the code of the component are allowed. -/
def Render.Point.Within (f : Factory) (b : Bounds) : Render.Point → Prop
  | .component tag children => b.content children ∧
      ∀ body, f.registry.componentFor? tag = some body → b.code body
  | _ => True

/-! ### Larger bounds -/

theorem Handler.Within.mono {h : Handler} (hle : b.Le b') (hh : h.Within b) : h.Within b' :=
  fun a ha => hle.write _ _ (hh a ha)

theorem Func.Within.mono {f : Func} (hle : b.Le b') (hf : f.Within b) : f.Within b' :=
  fun code hcode => hle.code _ (hf code hcode)

mutual

theorem Value.Within.mono (hle : b.Le b') : ∀ {v : Value}, v.Within b → v.Within b'
  | _, .empty => .empty
  | _, .bool flag => .bool flag
  | _, .number n => .number n
  | _, .text s => .text s
  | _, .node h => .node (hle.node _ h)
  | _, .list h => .list fun v hv => Value.Within.mono hle (h v hv)
  | _, .reactive h => .reactive (Reader.Within.mono hle h)
  | _, .handler h => .handler (h.mono hle)
  | _, .ref label => .ref label
  | _, .func h => .func (h.mono hle)
  | _, .spread h => .spread fun e he => Entry.Within.mono hle (h e he)

theorem Entry.Within.mono (hle : b.Le b') : ∀ {e : Entry}, e.Within b → e.Within b'
  | _, .immediate h => .immediate (Value.Within.mono hle h)
  | _, .reactive h => .reactive (Reader.Within.mono hle h)

theorem Reader.Within.mono (hle : b.Le b') : ∀ {r : Reader}, r.Within b → r.Within b'
  | _, .script hprops hcode =>
    .script (fun ps hps e he => Entry.Within.mono hle (hprops ps hps e he)) (hle.code _ hcode)
  | _, .signal h => .signal (hle.signal _ h)
  | _, .join h => .join fun v hv => Value.Within.mono hle (h v hv)
  | _, .children slot hsource hnodes hvalues =>
    .children slot (hle.source _ hsource) (hle.content _ hnodes) fun v hv =>
      Value.Within.mono hle (hvalues v hv)

end

theorem Props.Within.mono {ps : Props} (hle : b.Le b') (h : ps.Within b) : ps.Within b' :=
  fun e he => (h e he).mono hle

theorem Action.Within.mono {a : Action} (hle : b.Le b') (h : a.Within b) : a.Within b' := by
  cases a with
  | handler h' => exact Handler.Within.mono hle h
  | read r => exact Reader.Within.mono hle h
  | call f => exact Func.Within.mono hle h

theorem Render.Binding.Within.mono (hle : b.Le b') :
    ∀ {β : Render.Binding}, β.Within b → β.Within b'
  | .attribute _ _ _ _, ⟨hsite, hsetter, hreader⟩ =>
    ⟨hle.site _ hsite, hle.setter _ hsetter, hreader.mono hle⟩
  | .spread _ _ _, ⟨hsite, hreader⟩ => ⟨hle.site _ hsite, hreader.mono hle⟩
  | .content _ _ _, ⟨hmarker, hreader, hcurrent⟩ =>
    ⟨hle.node _ hmarker, hreader.mono hle, fun n hn => hle.node _ (hcurrent n hn)⟩

theorem Render.Point.Within.mono {f : Factory} {point : Render.Point} (hle : b.Le b')
    (h : point.Within f b) : point.Within f b' := by
  cases point with
  | component tag children =>
    exact ⟨hle.content _ h.1, fun body hbody => hle.code _ (h.2 body hbody)⟩
  | _ => trivial

/-! ### Values put together -/

theorem Value.within_ofList {vs : List Value} (h : ∀ v ∈ vs, v.Within b) :
    (Value.ofList vs).Within b := by
  match vs, h with
  | [], _ => exact .empty
  | [v], h => exact h v List.mem_cons_self
  | v :: u :: vs, h => exact .list h

theorem Render.within_valueAt {values : List Value} (h : ∀ v ∈ values, v.Within b) (i : Nat) :
    (valueAt values i).Within b := by
  rw [valueAt, List.getD_eq_getElem?_getD]
  rcases hi : values[i]? with _ | v
  · exact .empty
  · exact h v (List.mem_of_getElem? hi)

theorem Render.within_partValue {values : List Value} (h : ∀ v ∈ values, v.Within b)
    (p : AttrPart) : (partValue values p).Within b := by
  cases p with
  | text s => exact .text s
  | hole i => exact within_valueAt h i

theorem Render.within_joinedValue {values : List Value} (h : ∀ v ∈ values, v.Within b)
    (parts : List AttrPart) : (joinedValue values parts).Within b := by
  rw [joinedValue]
  split
  · refine .reactive (.join fun v hv => ?_)
    obtain ⟨p, -, rfl⟩ := List.mem_map.mp hv
    exact within_partValue h p
  · exact .text _

theorem Entry.Within.toValue {e : Entry} (h : e.Within b) : e.toValue.Within b := by
  cases h with
  | immediate h => exact h
  | reactive h => exact .reactive h

theorem Entry.within_forProp {v : Value} (h : v.Within b) (name : String) :
    (Entry.forProp name v).Within b := by
  have hplain : (Entry.immediate v).Within b := .immediate h
  cases h with
  | reactive hr =>
    rw [Entry.forProp]
    split
    · exact hplain
    · exact .reactive hr
  | _ => exact hplain

namespace Props.Within

theorem nil : Props.Within b [] := by
  intro e he
  cases he

theorem set {ps : Props} (h : ps.Within b) (name : String) {e : Entry} (he : e.Within b) :
    (ps.set name e).Within b := by
  induction ps with
  | nil => exact List.forall_mem_singleton.mpr he
  | cons p rest ih =>
    obtain ⟨hp, hrest⟩ := List.forall_mem_cons.mp h
    rw [Props.set]
    split
    · exact List.forall_mem_cons.mpr ⟨he, hrest⟩
    · exact List.forall_mem_cons.mpr ⟨hp, ih hrest⟩

theorem setAll {ps more : Props} (h : ps.Within b) (hmore : more.Within b) :
    (ps.setAll more).Within b := by
  rw [Props.setAll]
  induction more generalizing ps with
  | nil => exact h
  | cons e rest ih =>
    obtain ⟨he, hrest⟩ := List.forall_mem_cons.mp hmore
    exact ih (h.set e.1 he) hrest

theorem get? {ps : Props} (h : ps.Within b) {name : String} {e : Entry}
    (hget : ps.get? name = some e) : e.Within b := by
  obtain ⟨p, hp, rfl⟩ := Option.map_eq_some_iff.mp hget
  exact h p (List.mem_of_find?_eq_some hp)

end Props.Within

end Stencil
