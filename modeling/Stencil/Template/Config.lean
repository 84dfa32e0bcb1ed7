/-
  Stencil/Template/Config.lean
  ============================
  **What a factory of templates is set up with, and how a template can fail.**
-/
import Stencil.Markup.Nesting

namespace Stencil

/-- The element tables, the events that are delegated, and whether a capitalized
    element without a component is an error or just an element. -/
structure Config where
  void : NameSet
  rawText : NameSet
  delegated : NameSet
  strict : Bool
deriving DecidableEq, Repr

/-- The usual tables, and strict components. -/
def Config.usual : Config :=
  ⟨NameSet.voidElements, NameSet.rawTextElements, NameSet.delegatedEvents, true⟩

/-- Why a literal with its values cannot be rendered. -/
inductive TemplateError where
  /-- The literal has no tree. -/
  | parse (e : Markup.ParseError)
  /-- A capitalized element has no component. -/
  | unknownComponent (name : String)
  /-- There are more or fewer values than holes. -/
  | holeCount (expected found : Nat)
deriving DecidableEq, Repr

/-- The error of a literal in words, if that is where it lies. -/
def TemplateError.source : TemplateError → Option String
  | .parse e => some e.message
  | _ => none

def TemplateError.message : TemplateError → String
  | .parse e => "template parse error: " ++ e.message
  | .unknownComponent name => "no component registered for <" ++ name ++ ">"
  | .holeCount expected found =>
    "template has " ++ toString expected ++ " holes but " ++ toString found ++
      " values were supplied"

/-- A literal as it stands in a program: its segments, and a name that tells it from
    other literals with equal segments. -/
structure Literal where
  name : String
  segments : List String
deriving DecidableEq, Repr

namespace Literal

/-- The number of holes: one between each two segments. -/
def holeCount (l : Literal) : Nat := l.segments.length - 1

/-- What tells literals apart.  Literals without segments are all one. -/
def key (l : Literal) : Option String :=
  if l.segments.isEmpty then none else some l.name

def parse (config : Config) (l : Literal) : Except Markup.ParseError Markup.Template :=
  Markup.parse config.void config.rawText l.segments

end Literal
end Stencil
