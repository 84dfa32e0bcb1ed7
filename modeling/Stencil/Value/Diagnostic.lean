/-
  Stencil/Value/Diagnostic.lean
  =============================
  **Values as diagnostics show them, and values as an observer sees them.**

  A diagnostic names the kind of a value and shows its content as far as it can be
  shown.  A `Described` value is what somebody outside can tell of it: scalars as
  they are, nodes in their written form, and of everything that can only be called
  that it is so.
-/
import Stencil.Document.Walk
import Stencil.Value.Basic

namespace Stencil

/-! ### Diagnostics -/

mutual

/-- A value in a diagnostic. -/
def Value.diagnostic : Value → String
  | .empty => "Empty"
  | .bool b => "Bool(" ++ (if b then "true" else "false") ++ ")"
  | .number n => "Number(" ++ n.diagnostic ++ ")"
  | .text s => "Text(" ++ Text.quoted s ++ ")"
  | .node id => "Node(NodeId(" ++ toString id ++ "))"
  | .list items => "List([" ++ ", ".intercalate (Value.diagnostics items) ++ "])"
  | .reactive _ => "Reactive(..)"
  | .handler _ => "Handler(..)"
  | .ref _ => "Ref(..)"
  | .func _ => "Func(..)"
  | .spread entries => "Spread(\x7b" ++ ", ".intercalate (Entry.diagnostics entries) ++ "\x7d)"

def Value.diagnostics : List Value → List String
  | [] => []
  | v :: vs => v.diagnostic :: Value.diagnostics vs

def Entry.diagnostic : Entry → String
  | .immediate v => "Immediate(" ++ v.diagnostic ++ ")"
  | .reactive _ => "Reactive(..)"

def Entry.diagnostics : List (String × Entry) → List String
  | [] => []
  | (name, e) :: rest => (Text.quoted name ++ ": " ++ e.diagnostic) :: Entry.diagnostics rest

end

def Props.diagnostic (ps : Props) : String :=
  "\x7b" ++ ", ".intercalate (Entry.diagnostics ps) ++ "\x7d"

/-! ### Descriptions -/

/-- Things that can only be called or read. -/
inductive Callable where
  | reactive
  | handler
  | ref
  | func
deriving DecidableEq, Repr

/-- What can be told of a value from outside. -/
inductive Described where
  | nothing
  | bool (b : Bool)
  | number (n : Number)
  | text (s : String)
  | node (html : String) (kind : Document.Kind)
  | list (items : List Described)
  | callable (what : Callable)
  | spread (entries : List (String × Described))
deriving Repr, Inhabited

mutual

/-- What can be told of a value, given the document that its nodes are in. -/
def Value.describe (d : Page) : Value → Described
  | .empty => .nothing
  | .bool b => .bool b
  | .number n => .number n
  | .text s => .text s
  | .node id => .node (d.toHtml id) ((d.kind id).getD .fragment)
  | .list items => .list (Value.describeAll d items)
  | .reactive _ => .callable .reactive
  | .handler _ => .callable .handler
  | .ref _ => .callable .ref
  | .func _ => .callable .func
  | .spread entries => .spread (Entry.describeAll d entries)

def Value.describeAll (d : Page) : List Value → List Described
  | [] => []
  | v :: vs => v.describe d :: Value.describeAll d vs

def Entry.describe (d : Page) : Entry → Described
  | .immediate v => v.describe d
  | .reactive _ => .callable .reactive

def Entry.describeAll (d : Page) : List (String × Entry) → List (String × Described)
  | [] => []
  | (name, e) :: rest => (name, e.describe d) :: Entry.describeAll d rest

end

end Stencil
