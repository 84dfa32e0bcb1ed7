/-
  Stencil/Proofs/Attribute/Aspect.lean
  ====================================
  **Attributes of an element that may be applied out of order.**

  A rule that keeps to one *aspect* of an element looks at nothing else and changes
  nothing else: one of the attributes, the properties, or the listeners.  What an aspect
  comes to then depends on what is given to this aspect only, and on its order
  (`agree_giveAll`).

  Prebound attributes are applied before all others.  As long as none of them is overtaken
  by another that affects the same attribute (`Sequenced`), an element ends up as if all had
  been applied in the order of the source (`agree_prebound`).
-/
import Stencil.Proofs.Attribute.Write
import Stencil.Render.Bind

namespace Stencil

open Document

/-! ### The rule that counts -/

/-- A name passes the test, and the setter is to see the name `stripped`. -/
def Matcher.Takes : Matcher → String → String → Prop
  | .starts front, name, stripped => name = front ++ stripped
  | .exact n, name, stripped => name = n ∧ stripped = name
  | .satisfies test, name, stripped => test name = true ∧ stripped = name

theorem Matcher.match?_eq_some {m : Matcher} {name stripped : String} :
    m.match? name = some stripped ↔ m.Takes name stripped := by
  cases m with
  | starts front =>
    rw [match?, Takes, Option.ite_none_right_eq_some, List.isPrefixOf_iff_prefix, Option.some.injEq]
    constructor
    · rintro ⟨⟨rest, hrest⟩, rfl⟩
      rw [← String.toList_inj, String.toList_append, String.toList_ofList, ← hrest, List.drop_left]
    · rintro rfl
      simp
  | exact n =>
    rw [match?, Takes, Option.ite_none_right_eq_some, Option.some.injEq, eq_comm (a := stripped)]
  | satisfies test =>
    rw [match?, Takes, Option.ite_none_right_eq_some, Option.some.injEq, eq_comm (a := stripped)]

/-- Of several rules this is the first one whose test a name passes. -/
def Policy.Chooses (rules : List AttrRule) (name : String) (r : AttrRule) (stripped : String) :
    Prop :=
  ∃ front back, rules = front ++ r :: back ∧
    (∀ r' ∈ front, ∀ other, ¬ r'.matcher.Takes name other) ∧ r.matcher.Takes name stripped

theorem Policy.chooses_firstMatch (rules : List AttrRule) (name : String) :
    Chooses (rules ++ [fallback]) name ((firstMatch name rules).getD (fallback, name)).1
      ((firstMatch name rules).getD (fallback, name)).2 := by
  induction rules with
  | nil => exact ⟨[], [], rfl, by simp, rfl, rfl⟩
  | cons r rules ih =>
    rw [firstMatch]
    cases hmatch : r.matcher.match? name with
    | some stripped =>
      exact ⟨[], rules ++ [fallback], rfl, by simp, Matcher.match?_eq_some.mp hmatch⟩
    | none =>
      obtain ⟨front, back, hsplit, hfront, htakes⟩ := ih
      refine ⟨r :: front, back, by rw [List.cons_append, hsplit]; rfl, ?_, htakes⟩
      refine List.forall_mem_cons.mpr ⟨fun other htaken => ?_, hfront⟩
      rw [Matcher.match?_eq_some.mpr htaken] at hmatch
      cases hmatch

/-- The rules of the application come first, then those of the policy, then the fallback. -/
theorem Policy.chooses_withRules (rules : List AttrRule) (p : Policy) (name : String) :
    Chooses (rules ++ p.rules ++ [fallback]) name ((p.withRules rules).resolve name).1
      ((p.withRules rules).resolve name).2 :=
  chooses_firstMatch (rules ++ p.rules) name

/-! ### Aspects -/

/-- What a setter has to do with. -/
inductive Aspect where
  | nothing
  | attr (name : String)
  | properties
  | listeners
deriving DecidableEq

namespace Aspect

/-- A change of an element that looks at one aspect and changes nothing else. -/
def Covers : Aspect → (ElementState → ElementState) → Prop
  | nothing, op => ∀ e : ElementState, op e = e
  | attr k, op => ∃ change, Local change k ∧ ∀ e,
      op e = { e with attributes := change e.attributes }
  | properties, op => ∃ change : List (String × Value) → List (String × Value), ∀ e,
      op e = { e with properties := change e.properties }
  | listeners, op => ∃ change : List (Listener Action) → List (Listener Action), ∀ e,
      op e = { e with listeners := change e.listeners }

/-- Two elements are the same in one aspect. -/
def Agree : Aspect → ElementState → ElementState → Prop
  | nothing, _, _ => True
  | attr k, e, e' => findAttribute e.attributes k = findAttribute e'.attributes k
  | properties, e, e' => e.properties = e'.properties
  | listeners, e, e' => e.listeners = e'.listeners

variable {a b : Aspect} {op : ElementState → ElementState} {e e' e'' : ElementState}

theorem Agree.refl (a : Aspect) (e : ElementState) : a.Agree e e := by
  cases a with
  | nothing => trivial
  | _ => rfl

theorem Agree.trans (h : a.Agree e e') (h' : a.Agree e' e'') : a.Agree e e'' := by
  cases a with
  | nothing => trivial
  | attr k => exact Eq.trans h h'
  | properties => exact Eq.trans h h'
  | listeners => exact Eq.trans h h'

theorem Agree.symm (h : a.Agree e e') : a.Agree e' e := by
  cases a with
  | nothing => trivial
  | attr k => exact Eq.symm h
  | properties => exact Eq.symm h
  | listeners => exact Eq.symm h

/-- Other aspects stay. -/
theorem Covers.other (h : b.Covers op) (hab : b ≠ a) (e : ElementState) : a.Agree (op e) e := by
  cases b with
  | nothing =>
    rw [h e]
    exact .refl a e
  | attr k =>
    obtain ⟨change, hlocal, hop⟩ := h
    rw [hop]
    cases a with
    | attr j => exact hlocal.other _ _ fun heq => hab (by rw [heq])
    | _ => simp [Agree]
  | properties =>
    obtain ⟨change, hop⟩ := h
    rw [hop]
    cases a with
    | properties => exact absurd rfl hab
    | _ => simp [Agree]
  | listeners =>
    obtain ⟨change, hop⟩ := h
    rw [hop]
    cases a with
    | listeners => exact absurd rfl hab
    | _ => simp [Agree]

/-- The aspect comes to the same wherever it was the same. -/
theorem Covers.reads (h : a.Covers op) (hagree : a.Agree e e') : a.Agree (op e) (op e') := by
  cases a with
  | nothing => trivial
  | attr k =>
    obtain ⟨change, hlocal, hop⟩ := h
    rw [hop, hop]
    exact hlocal.reads _ _ hagree
  | properties =>
    obtain ⟨change, hop⟩ := h
    rw [hop, hop]
    exact congrArg change hagree
  | listeners =>
    obtain ⟨change, hop⟩ := h
    rw [hop, hop]
    exact congrArg change hagree

/-- The name and the namespace are no aspects. -/
theorem Covers.keeps (h : a.Covers op) (e : ElementState) :
    (op e).name = e.name ∧ (op e).space = e.space := by
  cases a with
  | nothing => rw [h e]; exact ⟨rfl, rfl⟩
  | attr k =>
    obtain ⟨change, -, hop⟩ := h
    rw [hop]
    exact ⟨rfl, rfl⟩
  | properties =>
    obtain ⟨change, hop⟩ := h
    rw [hop]
    exact ⟨rfl, rfl⟩
  | listeners =>
    obtain ⟨change, hop⟩ := h
    rw [hop]
    exact ⟨rfl, rfl⟩

end Aspect

/-- The aspect that a built-in setter keeps to. -/
def Setter.aspect (s : Setter) (name : String) : Aspect :=
  match s.target? name with
  | some k => .attr k
  | none =>
    match s with
    | .property => .properties
    | .event => .listeners
    | _ => .nothing

theorem Setter.aspect_eq_attr {s : Setter} {name k : String} (h : s.target? name = some k) :
    s.aspect name = .attr k := by
  simp only [aspect, h]

theorem Setter.covers_of_isBuiltIn {s : Setter} (h : s.isBuiltIn = true) (config : Config)
    (name : String) (v : Value) : (s.aspect name).Covers (s.write config name v) := by
  rcases htarget : s.target? name with _ | k
  · cases s with
    | property => exact ⟨fun ps => setPropertyIn ps name v, fun e => rfl⟩
    | event =>
      refine ⟨fun ls => (action? v).elim ls fun a =>
        ls ++ [⟨name, a, config.delegated.contains name⟩], fun e => ?_⟩
      rw [write, writeListener]
      cases action? v <;> rfl
    | ref => exact fun e => rfl
    | custom apply => cases h
    | _ => cases htarget
  · rw [aspect_eq_attr htarget]
    exact write_local htarget config v

/-! ### Rules that keep to one aspect -/

/-- A rule with the aspect that it keeps to under each name.  If it is cloneable, this is an
    attribute. -/
structure TidyRule where
  rule : AttrRule
  aspect : String → Aspect
  covers : ∀ config name v, (aspect name).Covers (rule.setter.write config name v)
  cloneable : rule.cloneable = true → ∀ name, ∃ k, aspect name = .attr k

namespace TidyRule

/-- A rule with a built-in setter. -/
def ofBuiltIn (r : AttrRule) (h : r.setter.isBuiltIn = true)
    (hcloneable : r.cloneable = true → ∀ name, (r.setter.target? name).isSome = true) :
    TidyRule where
  rule := r
  aspect := r.setter.aspect
  covers config name v := Setter.covers_of_isBuiltIn h config name v
  cloneable h name := by
    obtain ⟨k, hk⟩ := Option.isSome_iff_exists.mp (hcloneable h name)
    exact ⟨k, Setter.aspect_eq_attr hk⟩

theorem builtIn_usual : ∀ r ∈ Policy.usual.rules, r.setter.isBuiltIn = true := by
  simp [Policy.usual, Setter.isBuiltIn]

theorem cloneable_usual : ∀ r ∈ Policy.usual.rules, r.cloneable = true →
    ∀ name, (r.setter.target? name).isSome = true := by
  simp [Policy.usual, Setter.target?]

/-- The usual rules. -/
def usual : List TidyRule :=
  Policy.usual.rules.attach.map fun r =>
    ofBuiltIn r.1 (builtIn_usual r.1 r.2) (cloneable_usual r.1 r.2)

theorem map_rule_usual : usual.map (·.rule) = Policy.usual.rules := by
  rw [usual, List.map_map]
  exact List.attach_map_subtype_val _

/-- The aspect that a name is about: that of the first rule that it passes. -/
def aspectOf (name : String) : List TidyRule → Aspect
  | [] => .attr name
  | r :: rs =>
    match r.rule.matcher.match? name with
    | some stripped => r.aspect stripped
    | none => aspectOf name rs

/-- Whatever is given under a name changes only the aspect that the name is about. -/
theorem covers_aspectOf (rules : List TidyRule) (config : Config) (name : String) (v : Value) :
    (aspectOf name rules).Covers
      (((Policy.mk (rules.map (·.rule))).resolve name).1.setter.write config
        ((Policy.mk (rules.map (·.rule))).resolve name).2 v) := by
  rw [Policy.resolve]
  induction rules with
  | nil => exact Setter.covers_of_isBuiltIn (s := .plain) rfl config name v
  | cons r rules ih =>
    rw [aspectOf, List.map_cons, Policy.firstMatch]
    cases hmatch : r.rule.matcher.match? name with
    | some stripped => exact r.covers config stripped v
    | none => exact ih

/-- Under a cloneable rule a name is about an attribute. -/
theorem aspectOf_of_cloneable (rules : List TidyRule) (name : String)
    (h : ((Policy.mk (rules.map (·.rule))).resolve name).1.cloneable = true) :
    ∃ k, aspectOf name rules = .attr k := by
  rw [Policy.resolve] at h
  induction rules with
  | nil => exact ⟨name, rfl⟩
  | cons r rules ih =>
    rw [List.map_cons, Policy.firstMatch] at h
    rw [aspectOf]
    cases hmatch : r.rule.matcher.match? name with
    | some stripped =>
      rw [hmatch] at h
      exact r.cloneable h stripped
    | none =>
      rw [hmatch] at h
      exact ih h

end TidyRule

/-! ### What is given to an element -/

namespace Markup

open Render (isShadowed joinedValue valueAt)

/-- The names and values that an attribute gives to an element; `later` are the names of the
    attributes behind it, which shadow the entries of a spread. -/
def Attr.gives (values : List Value) (later : List String) : Attr → List (String × Value)
  | .flag name => [(name, .bool true)]
  | .fixed name value _ => [(name, .text value)]
  | .dynamic name i _ => [(name, valueAt values i)]
  | .mixed name parts _ => [(name, joinedValue values parts)]
  | .spread i =>
    match valueAt values i with
    | .spread entries =>
      (entries.filter fun e => !isShadowed later e.1).map fun e => (e.1, e.2.toValue)
    | _ => []

/-- All that some attributes give to an element, in order, each with whether it is prebound. -/
def gives (values : List Value) : List (Attr × Bool) → List ((String × Value) × Bool)
  | [] => []
  | (a, prebound) :: rest =>
    (a.gives values (rest.filterMap fun r => r.1.name?)).map (·, prebound) ++ gives values rest

theorem Attr.name_of_gives {a : Attr} {values : List Value} {later : List String}
    {p : String × Value} (h : p ∈ a.gives values later) : ∀ n ∈ a.name?, p.1 = n := by
  intro n hn
  cases a <;> simp_all [gives, name?]

theorem mem_gives {values : List Value} {as : List (Attr × Bool)} {x : (String × Value) × Bool}
    (h : x ∈ gives values as) : ∃ a ∈ as, x.2 = a.2 ∧ ∃ later, x.1 ∈ a.1.gives values later := by
  induction as with
  | nil => cases h
  | cons r rest ih =>
    rcases List.mem_append.mp h with h | h
    · obtain ⟨p, hp, rfl⟩ := List.mem_map.mp h
      exact ⟨r, List.mem_cons_self, rfl, _, hp⟩
    · obtain ⟨b, hb, hx⟩ := ih h
      exact ⟨b, List.mem_cons_of_mem _ hb, hx⟩

/-- What is prebound has no hole, no spread stands before it, and its rule is cloneable. -/
theorem mem_markPrebound {p : Policy} {afterSpread : Bool} {as : List Attr} {a : Attr}
    (h : (a, true) ∈ markPrebound p afterSpread as) :
    afterSpread = false ∧ a.isFixed = true ∧
      ∃ name, a.name? = some name ∧ (p.resolve name).1.cloneable = true := by
  induction as generalizing afterSpread with
  | nil => cases h
  | cons b as ih =>
    rcases List.mem_cons.mp h with heq | h
    · obtain ⟨rfl, hprebound⟩ := Prod.mk.inj heq
      rw [Attr.isPrebound] at hprebound
      cases hname : a.name? with
      | none =>
        rw [hname] at hprebound
        cases hprebound
      | some name =>
        rw [hname] at hprebound
        obtain ⟨⟨hfixed, hafter⟩, hcloneable⟩ := by simpa using hprebound.symm
        exact ⟨hafter, hfixed, name, rfl, hcloneable⟩
    · obtain ⟨hafter, hrest⟩ := ih h
      exact ⟨(Bool.or_eq_false_iff.mp hafter).1, hrest⟩

/-- No attribute that is applied to each copy stands before a prebound one with the same aspect. -/
def Sequenced (aspect : String → Aspect) (as : List (Attr × Bool)) : Prop :=
  as.Pairwise fun x y => x.2 = false → y.2 = true →
    ∀ n ∈ x.1.name?, ∀ m ∈ y.1.name?, aspect n ≠ aspect m

/-- Then nothing that is given to each copy comes before something prebound with the same aspect;
    a spread has nothing prebound behind it. -/
theorem Sequenced.pairwise_gives {aspect : String → Aspect} {p : Policy} {afterSpread : Bool}
    {as : List Attr} (h : Sequenced aspect (markPrebound p afterSpread as)) (values : List Value) :
    (gives values (markPrebound p afterSpread as)).Pairwise fun x y =>
      x.2 = false → y.2 = true → aspect x.1.1 ≠ aspect y.1.1 := by
  induction as generalizing afterSpread with
  | nil => exact .nil
  | cons a as ih =>
    obtain ⟨hhead, htail⟩ := List.pairwise_cons.mp h
    rw [markPrebound, gives, List.pairwise_append]
    refine ⟨?_, ih htail, fun x hx y hy hbound hprebound => ?_⟩
    · refine List.pairwise_map.mpr (List.pairwise_of_forall fun x y hbound hprebound => ?_)
      rw [hbound] at hprebound
      cases hprebound
    · obtain ⟨q, hq, rfl⟩ := List.mem_map.mp hx
      obtain ⟨⟨b, flag⟩, hb, hflag, later, hgives⟩ := mem_gives hy
      obtain rfl : flag = true := hflag.symm.trans hprebound
      obtain ⟨hafter, -, m, hm, -⟩ := mem_markPrebound hb
      have hspread : a.isSpread = false := (Bool.or_eq_false_iff.mp hafter).2
      obtain ⟨n, hn⟩ : ∃ n, n ∈ a.name? := by
        cases a <;> simp_all [Attr.name?, Attr.isSpread]
      rw [Attr.name_of_gives hgives m hm, Attr.name_of_gives hq n hn]
      exact hhead (b, true) hb hbound rfl n hn m hm

end Markup

/-! ### Prebound and bound -/

/-- Things sorted by a mark, with those in front that have it, are for each test the same in the
    same order, unless one without the mark stood before one with it. -/
theorem filter_marked_first {β : Type} (q : β → Bool) {l : List (β × Bool)}
    (h : l.Pairwise fun x y => x.2 = false → y.2 = true → ¬ (q x.1 = true ∧ q y.1 = true)) :
    ((l.filter (·.2)).map (·.1) ++ (l.filter (!·.2)).map (·.1)).filter q =
      (l.map (·.1)).filter q := by
  induction l with
  | nil => rfl
  | cons x l ih =>
    obtain ⟨hhead, htail⟩ := List.pairwise_cons.mp h
    have hrest := ih htail
    obtain ⟨x, marked⟩ := x
    cases marked with
    | true =>
      by_cases hx : q x = true
      · simpa [hx] using hrest
      · simpa [hx] using hrest
    | false =>
      rw [List.filter_append] at hrest ⊢
      by_cases hx : q x = true
      · have hnone : ((l.filter (·.2)).map (·.1)).filter q = [] := by
          rw [List.filter_eq_nil_iff]
          intro y hy hqy
          obtain ⟨z, hz, rfl⟩ := List.mem_map.mp hy
          obtain ⟨hmem, hmarked⟩ := List.mem_filter.mp hz
          exact hhead z hmem rfl hmarked ⟨hx, hqy⟩
        rw [hnone, List.nil_append] at hrest
        simp [hnone, hx, ← hrest]
      · simp only [Bool.not_eq_true] at hx
        simpa [hx] using hrest

namespace Setup

open Markup

variable {κ : Type} {s : Setup κ}

/-- A value applied under a name by the rule for the name. -/
def give (s : Setup κ) (p : String × Value) (e : ElementState) : ElementState :=
  (s.policy.resolve p.1).1.setter.write s.config (s.policy.resolve p.1).2 p.2 e

/-- Values applied under names, in order. -/
def giveAll (s : Setup κ) (ps : List (String × Value)) (e : ElementState) : ElementState :=
  ps.foldl (fun e p => s.give p e) e

/-- All that a tag gives to an element, in the order of the source. -/
def given (s : Setup κ) (values : List Value) (t : Tag) : List (String × Value) :=
  (gives values (markPrebound s.policy false t.attrs)).map (·.1)

/-- What of it is applied to the skeleton. -/
def givenFirst (s : Setup κ) (values : List Value) (t : Tag) : List (String × Value) :=
  ((gives values (markPrebound s.policy false t.attrs)).filter (·.2)).map (·.1)

/-- What of it is applied to each copy. -/
def givenLater (s : Setup κ) (values : List Value) (t : Tag) : List (String × Value) :=
  ((gives values (markPrebound s.policy false t.attrs)).filter (!·.2)).map (·.1)

/-- A fresh element for a tag. -/
def fresh (t : Tag) : ElementState := ⟨t.name, if t.svg then .svg else .html, [], [], []⟩

theorem perm_given (s : Setup κ) (values : List Value) (t : Tag) :
    (s.givenFirst values t ++ s.givenLater values t).Perm (s.given values t) := by
  rw [givenFirst, givenLater, ← List.map_append]
  exact (List.filter_append_perm _ _).map _

/-- The element in a skeleton is a fresh one with the prebound attributes applied. -/
theorem elementOf_eq_giveAll (s : Setup κ) (values : List Value) (t : Tag) :
    s.elementOf t = s.giveAll (s.givenFirst values t) (fresh t) := by
  have hfixed : ∀ r ∈ markPrebound s.policy false t.attrs, r.2 = true →
      ∃ name, r.1.name? = some name ∧ ∀ later,
        r.1.gives values later = [(name, r.1.fixedValue)] := by
    rintro ⟨a, prebound⟩ hr rfl
    obtain ⟨-, hfixed, -⟩ := mem_markPrebound hr
    cases a <;> simp_all [Attr.isFixed, Attr.gives, Attr.name?, Attr.fixedValue]
  rw [elementOf, applyPrebound, givenFirst, giveAll, ← fresh]
  generalize fresh t = e
  generalize markPrebound s.policy false t.attrs = as at hfixed
  induction as generalizing e with
  | nil => rfl
  | cons r as ih =>
    obtain ⟨hr, has⟩ := List.forall_mem_cons.mp hfixed
    obtain ⟨a, prebound⟩ := r
    rw [List.foldl_cons, ih _ has, gives, List.filter_append, List.map_append, List.foldl_append]
    cases prebound with
    | false =>
      have hnone (ps : List (String × Value)) : (ps.map (·, false)).filter (·.2) = [] := by
        simp [List.filter_eq_nil_iff]
      rw [hnone]
      rfl
    | true =>
      obtain ⟨name, hname, hgives⟩ := hr rfl
      rw [hgives]
      simp [hname, give]

variable {aspect : String → Aspect} {a : Aspect} {e e' : ElementState}

/-- An aspect depends only on what is given to it. -/
theorem agree_giveAll (hcovers : ∀ p, (aspect p.1).Covers (s.give p)) (h : a.Agree e e')
    (ps : List (String × Value)) :
    a.Agree (s.giveAll ps e) (s.giveAll (ps.filter fun p => aspect p.1 = a) e') := by
  induction ps generalizing e e' with
  | nil => exact h
  | cons p ps ih =>
    rw [giveAll, List.foldl_cons]
    by_cases hp : aspect p.1 = a
    · rw [List.filter_cons_of_pos (by simpa using hp)]
      exact ih ((hp ▸ hcovers p).reads h)
    · rw [List.filter_cons_of_neg (by simpa using hp)]
      exact ih (((hcovers p).other hp e).trans h)

/-- What is prebound is about attributes. -/
theorem aspect_givenFirst (hcloneable : ∀ name, (s.policy.resolve name).1.cloneable = true →
      ∃ k, aspect name = .attr k) {values : List Value} {t : Tag} {p : String × Value}
    (hp : p ∈ s.givenFirst values t) : ∃ k, aspect p.1 = .attr k := by
  obtain ⟨x, hx, rfl⟩ := List.mem_map.mp hp
  obtain ⟨hmem, hmarked⟩ := List.mem_filter.mp hx
  obtain ⟨⟨b, flag⟩, hb, hflag, later, hgives⟩ := mem_gives hmem
  obtain rfl : flag = true := hflag.symm.trans hmarked
  obtain ⟨-, -, name, hbname, hrule⟩ := mem_markPrebound hb
  rw [Attr.name_of_gives hgives name hbname]
  exact hcloneable name hrule

/-- The element in a skeleton has neither properties nor listeners, so a copy of it has all that
    it has. -/
theorem copied_elementOf (hcovers : ∀ p, (aspect p.1).Covers (s.give p))
    (hcloneable : ∀ name, (s.policy.resolve name).1.cloneable = true → ∃ k, aspect name = .attr k)
    (t : Tag) : { s.elementOf t with properties := [], listeners := [] } = s.elementOf t := by
  have hfilter (a : Aspect) (ha : ∀ k, a ≠ .attr k) :
      (s.givenFirst [] t).filter (fun p => aspect p.1 = a) = [] := by
    rw [List.filter_eq_nil_iff]
    intro p hp hpa
    obtain ⟨k, hk⟩ := aspect_givenFirst hcloneable hp
    exact ha k ((of_decide_eq_true hpa).symm.trans hk)
  have hproperties : (s.elementOf t).properties = [] := by
    rw [elementOf_eq_giveAll s []]
    have hagree :=
      agree_giveAll hcovers (Aspect.Agree.refl .properties (fresh t)) (s.givenFirst [] t)
    rwa [hfilter _ (by simp)] at hagree
  have hlisteners : (s.elementOf t).listeners = [] := by
    rw [elementOf_eq_giveAll s []]
    have hagree :=
      agree_giveAll hcovers (Aspect.Agree.refl .listeners (fresh t)) (s.givenFirst [] t)
    rwa [hfilter _ (by simp)] at hagree
  rw [← hproperties, ← hlisteners]

/-- A copy of the element in a skeleton, with the rest applied to it, is in each aspect what a
    fresh element is with everything applied in order. -/
theorem agree_prebound (hcovers : ∀ p, (aspect p.1).Covers (s.give p))
    (hcloneable : ∀ name, (s.policy.resolve name).1.cloneable = true → ∃ k, aspect name = .attr k)
    {t : Tag} (horder : Sequenced aspect (markPrebound s.policy false t.attrs))
    (values : List Value) (a : Aspect) :
    a.Agree
      (s.giveAll (s.givenLater values t) { s.elementOf t with properties := [], listeners := [] })
      (s.giveAll (s.given values t) (fresh t)) := by
  have hsorted : (s.givenFirst values t ++ s.givenLater values t).filter (fun p => aspect p.1 = a) =
      (s.given values t).filter (fun p => aspect p.1 = a) := by
    refine filter_marked_first _ ((horder.pairwise_gives values).imp fun h hbound hprebound => ?_)
    rintro ⟨hx, hy⟩
    exact h hbound hprebound ((of_decide_eq_true hx).trans (of_decide_eq_true hy).symm)
  have hboth : s.giveAll (s.givenLater values t) (s.elementOf t) =
      s.giveAll (s.givenFirst values t ++ s.givenLater values t) (fresh t) := by
    rw [elementOf_eq_giveAll s values, giveAll, giveAll, giveAll, List.foldl_append]
  have hfirst := agree_giveAll hcovers (Aspect.Agree.refl a (fresh t))
    (s.givenFirst values t ++ s.givenLater values t)
  have hall := agree_giveAll hcovers (Aspect.Agree.refl a (fresh t)) (s.given values t)
  rw [copied_elementOf hcovers hcloneable, hboth]
  rw [hsorted] at hfirst
  exact hfirst.trans hall.symm

theorem giveAll_keeps (aspect : String → Aspect) (hcovers : ∀ p, (aspect p.1).Covers (s.give p))
    (ps : List (String × Value)) (e : ElementState) :
    (s.giveAll ps e).name = e.name ∧ (s.giveAll ps e).space = e.space := by
  induction ps generalizing e with
  | nil => exact ⟨rfl, rfl⟩
  | cons p ps ih =>
    obtain ⟨hname, hspace⟩ := (hcovers p).keeps e
    obtain ⟨hname', hspace'⟩ := ih (s.give p e)
    exact ⟨hname'.trans hname, hspace'.trans hspace⟩

end Setup
end Stencil
