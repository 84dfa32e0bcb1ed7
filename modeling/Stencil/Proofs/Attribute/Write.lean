/-
  Stencil/Proofs/Attribute/Write.lean
  ===================================
  **The attributes of an element as a map, and what it is made of.**

  Every built-in setter writes at most one attribute, its *target*.  So an element that
  is written under different targets only wears, for each of them, what that one write
  makes of a bare element, in whatever order they came (`Wears`).  A write under a
  setter that sets or removes its attribute can be repeated with another scalar: what
  it said before leaves no trace (`Wears.rewrite`).
-/
import Mathlib.Data.List.Nodup
import Stencil.Proofs.Attribute.Usual

namespace Stencil

open Document

/-! ### One attribute list -/

theorem findAttribute_setAttribute (as : Attributes) (space : Option String)
    (name value other : String) :
    findAttribute (setAttribute as space name value) other =
      if other = name then some ⟨name, value, space⟩ else findAttribute as other := by
  induction as with
  | nil =>
    by_cases h : other = name
    · simp [setAttribute, findAttribute, h]
    · simp [setAttribute, findAttribute, h, Ne.symm h]
  | cons a rest ih =>
    rw [findAttribute] at ih
    by_cases ha : a.name = name <;> by_cases ho : a.name = other <;>
      grind [setAttribute, findAttribute]

theorem findAttribute_removeAttribute (as : Attributes) (name other : String) :
    findAttribute (removeAttribute as name) other =
      if other = name then none else findAttribute as other := by
  induction as with
  | nil => simp [removeAttribute, findAttribute]
  | cons a rest ih =>
    rw [findAttribute, removeAttribute] at ih
    by_cases ha : a.name = name <;> by_cases ho : a.name = other <;>
      grind [removeAttribute, findAttribute]

/-- A change of attributes that is about one name: the others stay, and what it makes of the name
    if that is not there depends on nothing else. -/
structure Confined (change : Attributes → Attributes) (name : String) : Prop where
  other : ∀ as k, k ≠ name → findAttribute (change as) k = findAttribute as k
  absent : ∀ as, findAttribute as name = none →
    findAttribute (change as) name = findAttribute (change []) name

theorem confined_id (name : String) : Confined id name :=
  ⟨fun _ _ _ => rfl, fun _ h => h⟩

theorem confined_set (space : Option String) (name value : String) :
    Confined (fun as => setAttribute as space name value) name where
  other as k hk := by rw [findAttribute_setAttribute, if_neg hk]
  absent as _ := by
    rw [findAttribute_setAttribute, findAttribute_setAttribute, if_pos rfl, if_pos rfl]

theorem confined_remove (name : String) : Confined (fun as => removeAttribute as name) name where
  other as k hk := by rw [findAttribute_removeAttribute, if_neg hk]
  absent as _ := by
    rw [findAttribute_removeAttribute, findAttribute_removeAttribute, if_pos rfl, if_pos rfl]

/-- A class is put on or off within the attribute `class`. -/
theorem confined_toggleClass (name : String) (on : Bool) :
    Confined (fun as => toggleClass as name on) "class" where
  other as k hk := by
    rw [toggleClass]
    split
    · rfl
    · exact (confined_set none "class" _).other as k hk
  absent as h := by
    have hnone : classes as = classes [] := by
      rw [classes, attributeValue, h]
      rfl
    simp only [toggleClass, hnone]
    split
    · exact h
    · exact (confined_set none "class" _).absent as h

/-- A style property is set or taken away within the attribute `style`. -/
theorem confined_setStyle (property : String) (value : Option String) :
    Confined (fun as => setStyle as property value) "style" := by
  obtain ⟨next, hnext⟩ : ∃ next : List Style → List Style, ∀ as, setStyle as property value =
      if (next (styles as)).isEmpty then removeAttribute as "style"
      else setAttribute as none "style" ("; ".intercalate ((next (styles as)).map styleText)) := by
    cases value with
    | none => exact ⟨fun rest => rest.filter (·.1 != property), fun as => rfl⟩
    | some v => exact ⟨fun rest => rest.filter (·.1 != property) ++ [(property, v)], fun as => rfl⟩
  refine ⟨fun as k hk => ?_, fun as h => ?_⟩
  · simp only [hnext]
    split
    · exact (confined_remove "style").other as k hk
    · exact (confined_set none "style" _).other as k hk
  · have hnone : styles as = styles [] := by
      rw [styles, attributeValue, h]
      rfl
    simp only [hnext, hnone]
    split
    · exact (confined_remove "style").absent as h
    · exact (confined_set none "style" _).absent as h

/-- A change of attributes that is about one name and looks at no other. -/
structure Local (change : Attributes → Attributes) (name : String) : Prop
    extends Confined change name where
  reads : ∀ as as', findAttribute as name = findAttribute as' name →
    findAttribute (change as) name = findAttribute (change as') name

theorem local_id (name : String) : Local id name where
  toConfined := confined_id name
  reads _ _ h := h

theorem local_set (space : Option String) (name value : String) :
    Local (fun as => setAttribute as space name value) name where
  toConfined := confined_set space name value
  reads as as' _ := by
    rw [findAttribute_setAttribute, findAttribute_setAttribute, if_pos rfl, if_pos rfl]

theorem local_remove (name : String) : Local (fun as => removeAttribute as name) name where
  toConfined := confined_remove name
  reads as as' _ := by
    rw [findAttribute_removeAttribute, findAttribute_removeAttribute, if_pos rfl, if_pos rfl]

theorem local_toggleClass (name : String) (on : Bool) :
    Local (fun as => toggleClass as name on) "class" where
  toConfined := confined_toggleClass name on
  reads as as' h := by
    have hsame : classes as = classes as' := by
      rw [classes, classes, attributeValue, attributeValue, h]
    simp only [toggleClass, hsame]
    split
    · exact h
    · exact (local_set none "class" _).reads as as' h

theorem local_setStyle (property : String) (value : Option String) :
    Local (fun as => setStyle as property value) "style" where
  toConfined := confined_setStyle property value
  reads as as' h := by
    have hsame : styles as = styles as' := by rw [styles, styles, attributeValue, attributeValue, h]
    -- what is written back is the same, whatever stands beside it
    have hback (next : List Style) :
        findAttribute (if next.isEmpty then removeAttribute as "style"
            else setAttribute as none "style" ("; ".intercalate (next.map styleText))) "style" =
          findAttribute (if next.isEmpty then removeAttribute as' "style"
            else setAttribute as' none "style"
              ("; ".intercalate (next.map styleText))) "style" := by
      split
      · exact (local_remove "style").reads as as' h
      · exact (local_set none "style" _).reads as as' h
    simp only [setStyle, hsame]
    exact hback _

/-! ### One write -/

namespace Setter

/-- The attribute that a setter writes, if it writes one. -/
def target? (s : Setter) (name : String) : Option String :=
  match s with
  | plain => some name
  | presence => some name
  | className => some "class"
  | style => some "style"
  | xlink => some ("xlink:" ++ name)
  | xml => some ("xml:" ++ name)
  | _ => none

/-- Whether a setter sets or removes its attribute as a whole. -/
def isWhole : Setter → Bool
  | plain => true
  | presence => true
  | xlink => true
  | xml => true
  | _ => false

theorem writeAttribute_local (space : Option String) (name : String) (v : Value) :
    ∃ change, Local change name ∧
      ∀ e : ElementState, writeAttribute space name v e =
        { e with attributes := change e.attributes } := by
  rcases hv : content v with _ | value | _
  · exact ⟨_, local_remove name, fun e => by rw [writeAttribute, hv]⟩
  · exact ⟨_, local_set space name value, fun e => by rw [writeAttribute, hv]⟩
  · exact ⟨id, local_id name, fun e => by rw [writeAttribute, hv]; rfl⟩

theorem writeStyle_local (name : String) (v : Value) :
    ∃ change, Local change "style" ∧
      ∀ e : ElementState, writeStyle name v e = { e with attributes := change e.attributes } := by
  by_cases htrue : v = .bool true
  · exact ⟨id, local_id _, fun e => by rw [htrue]; rfl⟩
  · rcases hv : content v with _ | value | _
    · refine ⟨_, local_setStyle name none, fun e => ?_⟩
      rw [writeStyle, hv]
      exact htrue
    · refine ⟨_, local_setStyle name (some value), fun e => ?_⟩
      rw [writeStyle, hv]
      exact htrue
    · refine ⟨id, local_id _, fun e => ?_⟩
      rw [writeStyle, hv]
      · rfl
      · exact htrue

/-- A setter with a target changes this attribute, looks at no other, and does nothing else. -/
theorem write_local {s : Setter} {name k : String} (htarget : s.target? name = some k)
    (config : Config) (v : Value) : ∃ change, Local change k ∧
      ∀ e : ElementState, s.write config name v e =
        { e with attributes := change e.attributes } := by
  cases s with
  | plain =>
    obtain rfl := Option.some.inj htarget
    exact writeAttribute_local none name v
  | presence =>
    obtain rfl := Option.some.inj htarget
    exact writeAttribute_local none name (.bool v.isTruthy)
  | className =>
    obtain rfl := Option.some.inj htarget
    exact ⟨_, local_toggleClass name v.isTruthy, fun e => rfl⟩
  | style =>
    obtain rfl := Option.some.inj htarget
    exact writeStyle_local name v
  | xlink =>
    obtain rfl := Option.some.inj htarget
    exact writeAttribute_local (some xlinkSpace) ("xlink:" ++ name) v
  | xml =>
    obtain rfl := Option.some.inj htarget
    exact writeAttribute_local (some xmlSpace) ("xml:" ++ name) v
  | _ => cases htarget

/-- What a setter makes of the attributes of an element. -/
theorem write_attributes {s : Setter} (h : s.isBuiltIn = true) (config : Config) (name : String)
    (v : Value) : ∃ change : Attributes → Attributes,
      (∀ e : ElementState, (s.write config name v e).attributes = change e.attributes) ∧
      (∀ k, s.target? name = some k → Confined change k) ∧
      (s.target? name = none → change = id) := by
  rcases htarget : s.target? name with _ | k
  · refine ⟨id, fun e => ?_, fun k hk => (by cases hk), fun _ => rfl⟩
    cases s with
    | event =>
      rw [write, writeListener]
      cases action? v <;> rfl
    | property => rfl
    | ref => rfl
    | custom apply => cases h
    | _ => cases htarget
  · obtain ⟨change, hlocal, hchange⟩ := write_local htarget config v
    refine ⟨change, fun e => by rw [hchange], fun k' hk' => ?_, fun hnone => by cases hnone⟩
    obtain rfl := Option.some.inj hk'
    exact hlocal.toConfined

end Setter

/-- A value applied under a name. -/
structure Write where
  setter : Setter
  name : String
  value : Value

namespace Write

/-- The attribute written, if one is. -/
def target? (w : Write) : Option String := w.setter.target? w.name

def apply (config : Config) (w : Write) (e : ElementState) : ElementState :=
  w.setter.write config w.name w.value e

/-- What a write makes of an attribute of an element without attributes. -/
def entry (config : Config) (w : Write) (k : String) : Option Attribute :=
  findAttribute (w.apply config ⟨"", .html, [], [], []⟩).attributes k

variable {config : Config} {w : Write} {e : ElementState} {k : String}

theorem apply_other (h : w.setter.isBuiltIn = true) (hk : w.target? ≠ some k) :
    findAttribute (w.apply config e).attributes k = findAttribute e.attributes k := by
  obtain ⟨change, hchange, hconfined, hnone⟩ := Setter.write_attributes h config w.name w.value
  rw [apply, hchange]
  rcases htarget : w.setter.target? w.name with _ | target
  · rw [hnone htarget]
    rfl
  · refine (hconfined target htarget).other _ _ fun heq => hk ?_
    rw [target?, htarget, heq]

theorem apply_absent (h : w.setter.isBuiltIn = true) (hk : w.target? = some k)
    (habsent : findAttribute e.attributes k = none) :
    findAttribute (w.apply config e).attributes k = w.entry config k := by
  obtain ⟨change, hchange, hconfined, -⟩ := Setter.write_attributes h config w.name w.value
  rw [entry, apply, apply, hchange, hchange]
  exact (hconfined k hk).absent _ habsent

/-- A usable value under a setter that sets or removes its attribute says all about it. -/
theorem apply_whole (h : w.setter.isWhole = true) (hk : w.target? = some k)
    (hvalue : Setter.content w.value ≠ .unusable) :
    findAttribute (w.apply config e).attributes k = w.entry config k := by
  have hattribute (space : Option String) (v : Value) (hv : Setter.content v ≠ .unusable)
      (e' : ElementState) : findAttribute (Setter.writeAttribute space k v e).attributes k =
        findAttribute (Setter.writeAttribute space k v e').attributes k := by
    rw [Setter.writeAttribute, Setter.writeAttribute]
    rcases hcontent : Setter.content v with _ | s | _
    · simp only [findAttribute_removeAttribute, if_true]
    · simp only [findAttribute_setAttribute, if_true]
    · exact absurd hcontent hv
  obtain ⟨setter, name, value⟩ := w
  cases setter with
  | plain =>
    obtain rfl := Option.some.inj hk
    exact hattribute none value hvalue _
  | presence =>
    obtain rfl := Option.some.inj hk
    refine hattribute none (.bool value.isTruthy) ?_ _
    cases value.isTruthy <;> simp [Setter.content]
  | xlink =>
    obtain rfl := Option.some.inj hk
    exact hattribute _ value hvalue _
  | xml =>
    obtain rfl := Option.some.inj hk
    exact hattribute _ value hvalue _
  | _ => cases h

end Write

/-! ### Several writes -/

/-- The attributes are those that the writes make, each by itself, and no others. -/
structure Wears (config : Config) (ws : List Write) (as : Attributes) : Prop where
  written : ∀ w ∈ ws, ∀ k, w.target? = some k → findAttribute as k = w.entry config k
  others : ∀ k, (∀ w ∈ ws, w.target? ≠ some k) → findAttribute as k = none

namespace Wears

variable {config : Config} {ws ws' : List Write} {w : Write} {as as' : Attributes}
  {e : ElementState}

theorem nil : Wears config [] [] where
  written w hw := by cases hw
  others k _ := rfl

/-- One more write under a new target. -/
theorem add (h : Wears config ws e.attributes) (hbuiltin : w.setter.isBuiltIn = true)
    (hnew : ∀ k, w.target? = some k → ∀ u ∈ ws, u.target? ≠ some k) :
    Wears config (w :: ws) (w.apply config e).attributes where
  written u hu k hk := by
    rcases List.mem_cons.mp hu with rfl | hu
    · exact Write.apply_absent hbuiltin hk (h.others k (hnew k hk))
    · rw [Write.apply_other hbuiltin fun hw => hnew k hw u hu hk]
      exact h.written u hu k hk
  others k hk := by
    obtain ⟨hw, hws⟩ := List.forall_mem_cons.mp hk
    rw [Write.apply_other hbuiltin hw]
    exact h.others k hws

/-- The order of the writes does not matter. -/
theorem congr (h : Wears config ws as) (hsame : ∀ w, w ∈ ws' ↔ w ∈ ws) :
    Wears config ws' as where
  written w hw := h.written w ((hsame w).mp hw)
  others k hk := h.others k fun w hw => hk w ((hsame w).mpr hw)

/-- One of the writes repeated with another value. -/
theorem rewrite {v : Value} (h : Wears config (ws ++ w :: ws') e.attributes)
    (hdistinct : ((ws ++ w :: ws').filterMap Write.target?).Nodup)
    (hbuiltin : w.setter.isBuiltIn = true) (hwhole : w.setter.isWhole = true)
    (hvalue : Setter.content v ≠ .unusable) :
    Wears config (ws ++ { w with value := v } :: ws')
      (({ w with value := v } : Write).apply config e).attributes := by
  have hapart (k : String) (hk : w.target? = some k) (u : Write) (hu : u ∈ ws ++ ws') :
      u.target? ≠ some k := by
    intro huk
    rw [List.filterMap_append, List.filterMap_cons_some hk, List.nodup_append,
      List.nodup_cons] at hdistinct
    obtain ⟨-, ⟨hback, -⟩, hfront⟩ := hdistinct
    rcases List.mem_append.mp hu with hu | hu
    · exact hfront k (List.mem_filterMap.mpr ⟨u, hu, huk⟩) k List.mem_cons_self rfl
    · exact hback (List.mem_filterMap.mpr ⟨u, hu, huk⟩)
  have hmem {u v : Write} (hu : u ∈ ws ++ v :: ws') : u = v ∨ u ∈ ws ++ ws' := by
    simp only [List.mem_append, List.mem_cons] at hu ⊢
    tauto
  have hold (u : Write) (hu : u ∈ ws ++ ws') : u ∈ ws ++ w :: ws' := by
    simp only [List.mem_append, List.mem_cons] at hu ⊢
    tauto
  have hframe (k : String) (hk : w.target? ≠ some k) :
      findAttribute (({ w with value := v } : Write).apply config e).attributes k =
        findAttribute e.attributes k :=
    Write.apply_other (w := { w with value := v }) hbuiltin hk
  constructor
  · intro u hu k hk
    rcases hmem hu with rfl | hu
    · exact Write.apply_whole hwhole hk hvalue
    · rw [hframe k fun hw => hapart k hw u hu hk]
      exact h.written u (hold u hu) k hk
  · intro k hk
    have hself : w.target? ≠ some k := hk { w with value := v } (by simp)
    rw [hframe k hself]
    refine h.others k fun u hu => ?_
    rcases hmem hu with rfl | hu
    · exact hself
    · refine hk u ?_
      simp only [List.mem_append, List.mem_cons] at hu ⊢
      tauto

/-- The writes determine the attributes, but for their order. -/
theorem unique (h : Wears config ws as) (h' : Wears config ws as') (k : String) :
    findAttribute as k = findAttribute as' k := by
  by_cases hk : ∀ w ∈ ws, w.target? ≠ some k
  · rw [h.others k hk, h'.others k hk]
  · obtain ⟨w, hw, hwk⟩ : ∃ w ∈ ws, w.target? = some k := by
      by_contra hno
      exact hk fun w hw hwk => hno ⟨w, hw, hwk⟩
    rw [h.written w hw k hwk, h'.written w hw k hwk]

end Wears
end Stencil
