/-
  Stencil/Attribute/Setter.lean
  =============================
  **What giving a value to an attribute does to an element.**

  A setter is a way of applying a value under a name: as an attribute, as a listener,
  as a property, by its truth alone, to a class or to a style.  Applied to an element
  it changes that element and nothing else.  Only a `ref` reaches outside: it changes
  nothing and calls the value with the element, which `Setter.callback?` says.

  A value that a setter has no use for leaves the element as it is.
-/
import Stencil.Template.Config
import Stencil.Value.Diagnostic

namespace Stencil

abbrev ElementState := Document.ElementData Value Action

inductive Setter where
  | plain
  | event
  | property
  | presence
  | ref
  | className
  | style
  | xlink
  | xml
  /-- A way of the application's own. -/
  | custom (apply : Config → String → Value → ElementState → ElementState)

/-- A callback together with what it takes: a node. -/
inductive Callback where
  | ref (label : String)
  | func (f : Func)

namespace Setter

/-- The namespace of links in SVG. -/
def xlinkSpace : String := "http://www.w3.org/1999/xlink"

def xmlSpace : String := "http://www.w3.org/XML/1998/namespace"

/-- What a value says about an attribute: that it is absent, that it has a text, or
    nothing. -/
inductive Content where
  | absent
  | present (value : String)
  | unusable
deriving DecidableEq, Repr

def content : Value → Content
  | .empty => .absent
  | .bool false => .absent
  | .bool true => .present ""
  | .text s => .present s
  | .number n => .present n.text
  | _ => .unusable

/-- An attribute set or taken away, as the value says. -/
def writeAttribute (space : Option String) (name : String) (v : Value) (e : ElementState) :
    ElementState :=
  match content v with
  | .absent => { e with attributes := Document.removeAttribute e.attributes name }
  | .present s => { e with attributes := Document.setAttribute e.attributes space name s }
  | .unusable => e

/-- A style property set or taken away.  Truth alone is no style. -/
def writeStyle (name : String) (v : Value) (e : ElementState) : ElementState :=
  match v with
  | .bool true => e
  | _ =>
    match content v with
    | .absent => { e with attributes := Document.setStyle e.attributes name none }
    | .present s => { e with attributes := Document.setStyle e.attributes name (some s) }
    | .unusable => e

/-- What a listener runs that is made of a value. -/
def action? : Value → Option Action
  | .handler h => some (.handler h)
  | .reactive r => some (.read r)
  | .func f => some (.call f)
  | _ => none

def writeListener (config : Config) (name : String) (v : Value) (e : ElementState) :
    ElementState :=
  match action? v with
  | some a => { e with listeners := e.listeners ++ [⟨name, a, config.delegated.contains name⟩] }
  | none => e

def write (config : Config) (s : Setter) (name : String) (v : Value) (e : ElementState) :
    ElementState :=
  match s with
  | plain => writeAttribute none name v e
  | event => writeListener config name v e
  | property => { e with properties := Document.setPropertyIn e.properties name v }
  | presence => writeAttribute none name (.bool v.isTruthy) e
  | ref => e
  | className => { e with attributes := Document.toggleClass e.attributes name v.isTruthy }
  | style => writeStyle name v e
  | xlink => writeAttribute (some xlinkSpace) ("xlink:" ++ name) v e
  | xml => writeAttribute (some xmlSpace) ("xml:" ++ name) v e
  | custom apply => apply config name v e

/-- What a setter calls with the element. -/
def callback? (s : Setter) (v : Value) : Option Callback :=
  match s, v with
  | ref, .ref label => some (.ref label)
  | ref, .func f => some (.func f)
  | _, _ => none

/-! ### Two setters that an application may bring -/

/-- The text of the value in upper case as an attribute. -/
def upperCase : Setter :=
  .custom fun _ name v e =>
    { e with attributes := Document.setAttribute e.attributes none name (Text.upper v.toText) }

/-- The value as a diagnostic shows it, as a `data-` attribute. -/
def exhibit : Setter :=
  .custom fun _ name v e =>
    { e with attributes := Document.setAttribute e.attributes none ("data-" ++ name) v.diagnostic }

end Setter
end Stencil
