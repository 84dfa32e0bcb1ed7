/-
  Stencil/Document/Attribute.lean
  ===============================
  **Attribute lists.**

  The attributes of an element stand in the order in which they were first set; a
  name occurs once.  The classes and the inline styles of an element have no place
  of their own: they are read from the attributes `class` and `style` and written
  back to them, so a copy or the written form of an element has them too.
-/
import Stencil.Text.Split

namespace Stencil.Document

/-- An attribute: its name as written, its value, and the namespace it was set in. -/
structure Attribute where
  name : String
  value : String
  space : Option String
deriving DecidableEq, Repr

abbrev Attributes := List Attribute

def findAttribute (as : Attributes) (name : String) : Option Attribute :=
  as.find? (·.name == name)

def attributeValue (as : Attributes) (name : String) : Option String :=
  (findAttribute as name).map (·.value)

/-- The list with an attribute set: in its old place if the name is there already,
    at the end if not. -/
def setAttribute (as : Attributes) (space : Option String) (name value : String) : Attributes :=
  match as with
  | [] => [⟨name, value, space⟩]
  | a :: rest =>
    if a.name = name then ⟨name, value, space⟩ :: rest else a :: setAttribute rest space name value

def removeAttribute (as : Attributes) (name : String) : Attributes :=
  as.filter (·.name != name)

theorem attributeValue_setAttribute (as : Attributes) (space : Option String)
    (name value other : String) :
    attributeValue (setAttribute as space name value) other =
      if other = name then some value else attributeValue as other := by
  induction as with
  | nil =>
    by_cases h : other = name
    · simp [setAttribute, attributeValue, findAttribute, h]
    · simp [setAttribute, attributeValue, findAttribute, h, Ne.symm h]
  | cons a rest ih =>
    simp only [attributeValue, findAttribute] at ih ⊢
    by_cases ha : a.name = name <;> by_cases ho : a.name = other <;> grind [setAttribute]

theorem attributeValue_removeAttribute (as : Attributes) (name other : String) :
    attributeValue (removeAttribute as name) other =
      if other = name then none else attributeValue as other := by
  induction as with
  | nil => simp [removeAttribute, attributeValue, findAttribute]
  | cons a rest ih =>
    simp only [attributeValue, findAttribute, removeAttribute] at ih ⊢
    by_cases ha : a.name = name <;> by_cases ho : a.name = other <;> grind

/-! ### Classes -/

def classes (as : Attributes) : List String :=
  match attributeValue as "class" with
  | some value => Text.words value
  | none => []

/-- A class put on or off.  Nothing is written if it is so already. -/
def toggleClass (as : Attributes) (name : String) (on : Bool) : Attributes :=
  let present := classes as
  if on = present.contains name then as
  else
    let next := if on then present ++ [name] else present.filter (· != name)
    setAttribute as none "class" (" ".intercalate next)

/-! ### Inline styles -/

abbrev Style := String × String

/-- The property and the value in one part of a `style` attribute. -/
def readStyle (part : List Char) : Option Style :=
  match Text.splitFirst? ':' part with
  | none => none
  | some (name, value) =>
    let name := Text.trimChars name
    if name.isEmpty then none
    else some (String.ofList name, String.ofList (Text.trimChars value))

/-- The inline styles of an element, in order. -/
def styles (as : Attributes) : List Style :=
  match attributeValue as "style" with
  | some value => (Text.splitAll (· == ';') value.toList).filterMap readStyle
  | none => []

/-- A style as written. -/
def styleText (s : Style) : String := s.1 ++ ": " ++ s.2

/-- A style property set or, with no value, taken away.  It moves to the end; when no
    property is left there is no `style` attribute. -/
def setStyle (as : Attributes) (property : String) (value : Option String) : Attributes :=
  let rest := (styles as).filter (·.1 != property)
  let next :=
    match value with
    | some v => rest ++ [(property, v)]
    | none => rest
  if next.isEmpty then removeAttribute as "style"
  else setAttribute as none "style" ("; ".intercalate (next.map styleText))

def styleValue (as : Attributes) (property : String) : Option String :=
  ((styles as).find? (·.1 == property)).map (·.2)

end Stencil.Document
