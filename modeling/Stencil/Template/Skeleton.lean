/-
  Stencil/Template/Skeleton.lean
  ==============================
  **Compiling a literal: the fragments that renders copy.**

  A container is the literal itself or the content of a component.  It gets a
  *skeleton*, a fragment that holds all of it that does not depend on values, if it has
  a plain element among its direct children; without one there is nothing worth
  copying.  In a skeleton

  * a text is a text node;
  * a hole or a component is an empty comment, which marks the place;
  * an element is an element with its prebound attributes applied.

  The content of a component is a container of its own, filled in at its slot.  A
  capitalized element without a component is an error under strict components, and an
  element like others otherwise.  Nodes made before an error stay in the document; no
  other node refers to them.
-/
import Stencil.Attribute.Policy
import Stencil.Template.Registry

namespace Stencil

open Markup

/-- What decides how literals are compiled. -/
structure Setup (κ : Type) where
  config : Config
  policy : Policy
  registry : Registry κ

namespace Setup

variable {κ : Type}

/-- Whether a node is an element that is no component. -/
def isPlainElement (s : Setup κ) : Node → Bool
  | .element tag _ => !s.registry.isComponent tag
  | _ => false

/-- Whether a container has a skeleton. -/
def needsSkeleton (s : Setup κ) (children : List Node) : Bool := children.any s.isPlainElement

/-- What compiling works on: the document and the skeletons so far, by slot. -/
structure Workshop where
  page : Page
  skeletons : List (Option NodeId)

/-- An action of compiling.  The document keeps its nodes when it fails. -/
abbrev Making := ExceptT TemplateError (StateM Workshop)

def make (c : Document.Content Value Action) : Making NodeId :=
  modifyGet fun w =>
    let (id, page) := w.page.create c
    (id, { w with page })

/-- A new node put at the end of a parent. -/
def makeIn (parent : NodeId) (c : Document.Content Value Action) : Making NodeId := do
  let id ← make c
  modify fun w => { w with page := w.page.append parent id }
  pure id

/-- An element that is neither lower case nor a component is refused, if components are
    strict. -/
def checkComponent (s : Setup κ) (t : Tag) : Making Unit :=
  if t.slot.isSome && !s.registry.isComponent t && s.config.strict then
    throw (.unknownComponent t.name)
  else pure ()

/-- The prebound attributes of an element applied to it, in order. -/
def applyPrebound (s : Setup κ) (t : Tag) (e : ElementState) : ElementState :=
  (markPrebound s.policy false t.attrs).foldl
    (fun e (a, prebound) =>
      match prebound, a.name? with
      | true, some name =>
        let (rule, stripped) := s.policy.resolve name
        rule.setter.write s.config stripped a.fixedValue e
      | _, _ => e)
    e

/-- The element that stands for a tag in a skeleton. -/
def elementOf (s : Setup κ) (t : Tag) : ElementState :=
  s.applyPrebound t ⟨t.name, if t.svg then .svg else .html, [], [], []⟩

def fillSlot (slot : Option Nat) (skeleton : Option NodeId) : Making Unit :=
  match slot with
  | some i => modify fun w => { w with skeletons := w.skeletons.set i skeleton }
  | none => pure ()

/-- A new fragment for a container, if it needs one. -/
def makeTop (s : Setup κ) (children : List Node) : Making (Option NodeId) :=
  if s.needsSkeleton children then do return some (← make .fragment) else pure none

mutual

/-- One node of a container, built into `parent` if the container has a skeleton. -/
def buildNode (s : Setup κ) (parent : Option NodeId) : Node → Making Unit
  | .text value =>
    match parent with
    | some p => discard (makeIn p (.text value))
    | none => pure ()
  | .hole _ =>
    match parent with
    | some p => discard (makeIn p (.comment ""))
    | none => pure ()
  | .element tag children => do
    let inner ←
      match parent with
      | none => pure none
      | some p => do
        s.checkComponent tag
        if s.registry.isComponent tag then
          let _ ← makeIn p (.comment "")
          pure none
        else
          let id ← makeIn p (.element (s.elementOf tag))
          pure (some id)
    match inner with
    | some id => buildNodes s (some id) children
    | none =>
      if tag.slot.isSome then
        let top ← s.makeTop children
        buildNodes s top children
        fillSlot tag.slot top
      else pure ()

def buildNodes (s : Setup κ) (parent : Option NodeId) : List Node → Making Unit
  | [] => pure ()
  | n :: ns => do
    buildNode s parent n
    buildNodes s parent ns

end

def build (s : Setup κ) (t : Template) : Making Compiled := do
  let top ← s.makeTop t.children
  s.buildNodes top t.children
  fillSlot (some rootSlot) top
  return ⟨t, (← get).skeletons⟩

def compile (s : Setup κ) (l : Literal) (page : Page) : Except TemplateError Compiled × Page :=
  match l.parse s.config with
  | .error e => (.error (.parse e), page)
  | .ok tree =>
    let (outcome, w) := (s.build tree).run ⟨page, List.replicate tree.slotCount none⟩
    (outcome, w.page)

end Setup
end Stencil
