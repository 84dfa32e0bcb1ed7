/-
  Stencil/Render/Bind.lean
  ========================
  **Binding values to elements and to places.**

  A value that is no reader is applied once.  A reader becomes a binding, unless the rule
  for the attribute wants the reader itself.  A spread gives way to every attribute that
  is written behind it.
-/
import Stencil.Render.Effect

namespace Stencil.Render

open Markup (Attr AttrPart Tag)

def bindValue (f : Factory) (c : Calls) (node : NodeId) (name : String) (v : Value) : Run Unit :=
  let (rule, stripped) := f.policy.resolve name
  match v, rule.reactive with
  | .reactive r, true => newBinding f c (.attribute node rule.setter stripped r)
  | _, _ => applySetter f c node rule.setter stripped v

/-- The entries of a spread bound to an element, except the shadowed ones. -/
def bindEntries (f : Factory) (c : Calls) (node : NodeId) (shadowed : List String) :
    Props → Run Unit
  | [] => pure ()
  | (name, e) :: rest => do
    if isShadowed shadowed name then pure () else bindValue f c node name e.toValue
    bindEntries f c node shadowed rest

def bindSpread (f : Factory) (c : Calls) (node : NodeId) (shadowed : List String) (v : Value) :
    Run Unit :=
  match v with
  | .spread entries => bindEntries f c node shadowed entries
  | .reactive r => newBinding f c (.spread node shadowed r)
  | _ => pure ()

/-! ### The attributes of an element -/

def partValue (values : List Value) : AttrPart → Value
  | .text s => .text s
  | .hole i => valueAt values i

/-- The value of an attribute that is joined from pieces: a reader if one of them is. -/
def joinedValue (values : List Value) (parts : List AttrPart) : Value :=
  let pieces := parts.map (partValue values)
  if pieces.any Value.isReactive then .reactive (.join pieces)
  else .text (String.join (pieces.map Value.toText))

/-- An attribute bound to an element; `later` are the names of those behind it. -/
def bindAttr (f : Factory) (c : Calls) (values : List Value) (node : NodeId)
    (later : List String) : Attr → Run Unit
  | .flag name => bindValue f c node name (.bool true)
  | .fixed name value _ => bindValue f c node name (.text value)
  | .dynamic name i _ => bindValue f c node name (valueAt values i)
  | .mixed name parts _ => bindValue f c node name (joinedValue values parts)
  | .spread i => bindSpread f c node later (valueAt values i)

/-- Attributes bound to an element, in order and without those that it has already. -/
def bindAttrs (f : Factory) (c : Calls) (values : List Value) (node : NodeId) :
    List (Attr × Bool) → Run Unit
  | [] => pure ()
  | (a, prebound) :: rest => do
    if prebound then pure ()
    else bindAttr f c values node (rest.filterMap fun r => r.1.name?) a
    bindAttrs f c values node rest

def bindTag (f : Factory) (c : Calls) (values : List Value) (node : NodeId) (t : Tag) : Run Unit :=
  bindAttrs f c values node (Markup.markPrebound f.policy false t.attrs)

/-! ### Content -/

/-- A value put where a marker stands.  A reader keeps the marker, other values take its
    place. -/
def insertValue (f : Factory) (c : Calls) (marker : NodeId) (v : Value) : Run Unit :=
  match v with
  | .reactive r => newBinding f c (.content marker r [])
  | _ => do
    let nodes ← nodesOf c v
    match (← page).parent? marker with
    | none => pure ()
    | some parent => changePage fun d => (insertAll d parent (some marker) nodes).detach marker

def mount (f : Factory) (c : Calls) (parent : NodeId) (v : Value) : Run Unit := do
  let marker ← onPage (·.createComment "")
  changePage fun d => d.append parent marker
  insertValue f c marker v

end Stencil.Render
