/-
  Stencil/Proofs/Attribute/Usual.lean
  ===================================
  **What the usual rules do to an element.**

  None of the usual rules selects a setter of the application, so the element keeps its
  name and its namespace whatever value is applied under whatever name.  A name without
  marks passes no test and is the name of an attribute (`resolve_usual_plain`).
-/
import Stencil.Template.Skeleton

namespace Stencil

theorem firstMatch_mem {name : String} {rules : List AttrRule} {r : AttrRule} {stripped : String}
    (h : Policy.firstMatch name rules = some (r, stripped)) : r ∈ rules := by
  induction rules with
  | nil => cases h
  | cons rule rules ih =>
    rw [Policy.firstMatch] at h
    split at h
    · obtain ⟨rfl, -⟩ := by simpa using h
      exact List.mem_cons_self
    · exact List.mem_cons_of_mem _ (ih h)

/-- The rule for a name is one of the usual ones or the fallback. -/
theorem resolve_usual (name : String) :
    (Policy.usual.resolve name).1 ∈ Policy.usual.rules ∨
      Policy.usual.resolve name = (Policy.fallback, name) := by
  rw [Policy.resolve]
  rcases h : Policy.firstMatch name Policy.usual.rules with _ | ⟨r, stripped⟩
  · exact Or.inr rfl
  · exact Or.inl (firstMatch_mem h)

/-- The characters that set the beginning of a name apart from a plain name. -/
def ruleMarks : List Char := ['@', ':', '.', '?']

/-- Whether a test asks for a mark in the name, or for the name `ref`. -/
def Matcher.asksForMark : Matcher → Bool
  | .starts front => front.toList.any ruleMarks.contains
  | .exact name => name == "ref"
  | .satisfies _ => false

theorem match?_eq_none {m : Matcher} (h : m.asksForMark = true) {name : String}
    (hmarks : ∀ c ∈ ruleMarks, c ∉ name.toList) (href : name ≠ "ref") : m.match? name = none := by
  cases m with
  | starts front =>
    obtain ⟨c, hc, hmark⟩ := List.any_eq_true.mp h
    rw [Matcher.match?, if_neg]
    intro hfront
    have hname : c ∈ name.toList := (List.isPrefixOf_iff_prefix.mp hfront).subset hc
    exact hmarks c (by simpa using hmark) hname
  | exact n =>
    obtain rfl : n = "ref" := by simpa [Matcher.asksForMark] using h
    rw [Matcher.match?, if_neg href]
  | satisfies test => cases h

theorem firstMatch_eq_none {name : String} {rules : List AttrRule}
    (h : ∀ r ∈ rules, r.matcher.match? name = none) : Policy.firstMatch name rules = none := by
  induction rules with
  | nil => rfl
  | cons r rules ih =>
    rw [Policy.firstMatch, h r List.mem_cons_self]
    exact ih fun r hr => h r (List.mem_cons_of_mem _ hr)

/-- A name without marks is the name of an attribute. -/
theorem resolve_usual_plain {name : String} (hmarks : ∀ c ∈ ruleMarks, c ∉ name.toList)
    (href : name ≠ "ref") : Policy.usual.resolve name = (Policy.fallback, name) := by
  have hasks : ∀ r ∈ Policy.usual.rules, r.matcher.asksForMark = true := by
    rw [← List.all_eq_true]
    decide +kernel
  have hnone : Policy.firstMatch name Policy.usual.rules = none :=
    firstMatch_eq_none fun r hr => match?_eq_none (hasks r hr) hmarks href
  rw [Policy.resolve, hnone, Option.getD_none]

namespace Setter

/-- Whether a setter is one of the built-in ones. -/
def isBuiltIn : Setter → Bool
  | custom _ => false
  | _ => true

theorem isBuiltIn_usual (name : String) :
    (Policy.usual.resolve name).1.setter.isBuiltIn = true := by
  rcases resolve_usual name with hmem | heq
  · have hall : ∀ r ∈ Policy.usual.rules, r.setter.isBuiltIn = true := by
      simp [Policy.usual, isBuiltIn]
    exact hall _ hmem
  · rw [heq]
    rfl

/-- A built-in setter changes neither the name nor the namespace of an element. -/
theorem write_keeps {s : Setter} (h : s.isBuiltIn = true) (config : Config) (name : String)
    (v : Value) (e : ElementState) :
    (s.write config name v e).name = e.name ∧ (s.write config name v e).space = e.space := by
  have hattribute (space : Option String) (name : String) (v : Value) :
      (writeAttribute space name v e).name = e.name ∧
        (writeAttribute space name v e).space = e.space := by
    rw [writeAttribute]
    cases content v <;> exact ⟨rfl, rfl⟩
  cases s with
  | plain => exact hattribute none name v
  | event =>
    rw [write, writeListener]
    cases action? v <;> exact ⟨rfl, rfl⟩
  | property => exact ⟨rfl, rfl⟩
  | presence => exact hattribute none name _
  | ref => exact ⟨rfl, rfl⟩
  | className => exact ⟨rfl, rfl⟩
  | style =>
    simp only [write, writeStyle]
    split
    · exact ⟨rfl, rfl⟩
    · cases content v <;> exact ⟨rfl, rfl⟩
  | xlink => exact hattribute _ _ v
  | xml => exact hattribute _ _ v
  | custom apply => cases h

end Setter

theorem Markup.map_markPrebound (p : Policy) (afterSpread : Bool) (as : List Markup.Attr) :
    (markPrebound p afterSpread as).map (·.1) = as := by
  induction as generalizing afterSpread with
  | nil => rfl
  | cons a as ih => rw [markPrebound, List.map_cons, ih]

namespace Setup

open Markup

variable {κ : Type} {s : Setup κ}

/-- A named attribute applied to an element with the value that `value` gives it. -/
def applyAttr (s : Setup κ) (value : Attr → Value) (a : Attr) (e : ElementState) :
    ElementState :=
  match a.name? with
  | some name =>
    (s.policy.resolve name).1.setter.write s.config (s.policy.resolve name).2 (value a) e
  | none => e

/-- Attributes applied to an element, in order. -/
def applyAttrs (s : Setup κ) (value : Attr → Value) (as : List Attr) (e : ElementState) :
    ElementState :=
  as.foldl (fun e a => s.applyAttr value a e) e

/-- The attributes of a tag that are applied to what is copied. -/
def preboundAttrs (s : Setup κ) (t : Tag) : List Attr :=
  ((markPrebound s.policy false t.attrs).filter (·.2)).map (·.1)

/-- The attributes of a tag that are applied to each copy. -/
def boundAttrs (s : Setup κ) (t : Tag) : List Attr :=
  ((markPrebound s.policy false t.attrs).filter (!·.2)).map (·.1)

/-- The two kinds of attributes of a tag are all of them. -/
theorem perm_boundAttrs (s : Setup κ) (t : Tag) :
    (s.boundAttrs t ++ s.preboundAttrs t).Perm t.attrs := by
  have hperm := List.filter_append_perm (fun r : Attr × Bool => r.2)
    (markPrebound s.policy false t.attrs)
  have hmap := hperm.map (fun r : Attr × Bool => r.1)
  rw [map_markPrebound, List.map_append] at hmap
  exact List.perm_append_comm.trans hmap

theorem elementOf_eq (s : Setup κ) (t : Tag) :
    s.elementOf t = s.applyAttrs Attr.fixedValue (s.preboundAttrs t)
      ⟨t.name, if t.svg then .svg else .html, [], [], []⟩ := by
  rw [elementOf, applyPrebound, preboundAttrs]
  generalize markPrebound s.policy false t.attrs = as
  generalize (⟨t.name, if t.svg then .svg else .html, [], [], []⟩ : ElementState) = e
  induction as generalizing e with
  | nil => rfl
  | cons a as ih =>
    obtain ⟨a, prebound⟩ := a
    rw [List.foldl_cons, ih]
    cases prebound with
    | false => rfl
    | true =>
      simp only [List.filter_cons, if_true, List.map_cons, applyAttrs, List.foldl_cons, applyAttr]
      cases a.name? <;> rfl

theorem applyAttrs_keeps (hpolicy : s.policy = .usual) (value : Attr → Value) (as : List Attr)
    (e : ElementState) :
    (s.applyAttrs value as e).name = e.name ∧ (s.applyAttrs value as e).space = e.space := by
  induction as generalizing e with
  | nil => exact ⟨rfl, rfl⟩
  | cons a as ih =>
    obtain ⟨hname, hspace⟩ := ih (s.applyAttr value a e)
    have hone : (s.applyAttr value a e).name = e.name ∧
        (s.applyAttr value a e).space = e.space := by
      rw [applyAttr]
      cases a.name? with
      | none => exact ⟨rfl, rfl⟩
      | some name =>
        rw [hpolicy]
        exact Setter.write_keeps (Setter.isBuiltIn_usual _) _ _ _ _
    exact ⟨hname.trans hone.1, hspace.trans hone.2⟩

/-- The element of a tag has the name and the namespace of the tag. -/
theorem elementOf_keeps (hpolicy : s.policy = .usual) (t : Tag) :
    (s.elementOf t).name = t.name ∧
      (s.elementOf t).space = if t.svg then .svg else .html := by
  rw [elementOf_eq]
  exact applyAttrs_keeps hpolicy _ _ _

end Setup
end Stencil
