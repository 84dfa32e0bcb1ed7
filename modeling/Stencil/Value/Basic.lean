/-
  Stencil/Value/Basic.lean
  ========================
  **The values that fill the holes of a literal.**

  A value is a scalar, a node, a list, something to call, a set of props to spread
  over an element, or a *reader*: something that can be read again and again and may
  give another value each time.  Readers are first-order.  There are four kinds: a
  script with the props of the component that it was written in, a signal, the text
  joined from the pieces of an attribute, and the children of a component, which hold
  on to the literal and the values that they come from.

  Props are a list of named entries in the order in which the names first came up;
  setting a name again replaces the entry in place.
-/
import Stencil.Document.Basic
import Stencil.Markup.Tree
import Stencil.Number.Text
import Stencil.Value.Script

namespace Stencil

/-- A literal ready to be rendered: its tree, and for each container the fragment that
    is copied to render it, if there is one. -/
structure Compiled where
  tree : Markup.Template
  skeletons : List (Option NodeId)
deriving Inhabited

def Compiled.skeleton? (c : Compiled) (slot : Nat) : Option NodeId :=
  (c.skeletons[slot]?).join

structure Handler where
  label : String
  assigns : Option (String × Script)

/-- A callback of the application that gives a result. -/
structure Func where
  label : String
  result : Option Script

mutual

inductive Value where
  | empty
  | bool (b : Bool)
  | number (n : Number)
  | text (s : String)
  | node (id : NodeId)
  | list (items : List Value)
  | reactive (r : Reader)
  | handler (h : Handler)
  | ref (label : String)
  | func (f : Func)
  | spread (entries : List (String × Entry))

/-- A prop: a value, or something that is read whenever the prop is asked for. -/
inductive Entry where
  | immediate (v : Value)
  | reactive (r : Reader)

/-- Something that gives a value each time it is read. -/
inductive Reader where
  | script (props : Option (List (String × Entry))) (code : Script)
  | signal (name : String)
  | join (pieces : List Value)
  | children (source : Compiled) (values : List Value) (slot : Nat) (nodes : List Markup.Node)

end

instance : Inhabited Value := ⟨.empty⟩

abbrev Props := List (String × Entry)

namespace Value

def isEmpty : Value → Bool
  | empty => true
  | _ => false

def isReactive : Value → Bool
  | reactive _ => true
  | _ => false

/-- Whether a value counts as true: the empty value, `false`, zero, the number that is
    none and the empty text do not. -/
def isTruthy : Value → Bool
  | empty => false
  | bool b => b
  | number n => n.isTruthy
  | text s => s != ""
  | _ => true

/-- The text of a scalar; other values have none. -/
def toText? : Value → Option String
  | text s => some s
  | number n => some n.text
  | bool b => some (if b then "true" else "false")
  | _ => none

/-- The text of a scalar, or the empty text. -/
def toText (v : Value) : String := v.toText?.getD ""

/-- Several values as one: nothing, the only one, or a list. -/
def ofList : List Value → Value
  | [] => empty
  | [v] => v
  | vs => list vs

end Value

namespace Entry

def isReactive : Entry → Bool
  | immediate _ => false
  | reactive _ => true

/-- A prop as a value that can be bound: a reader if it has to be read. -/
def toValue : Entry → Value
  | immediate v => v
  | reactive r => .reactive r

/-- Whether a prop of this name is handed on as it is even if it is a reader: refs and
    whatever looks like an event. -/
def keepsReader (name : String) : Bool :=
  name == "ref" || "on".toList.isPrefixOf name.toList || "@".toList.isPrefixOf name.toList

/-- The prop that a value makes under a name: a reader is read whenever the prop is asked
    for, unless the name keeps it. -/
def forProp (name : String) (v : Value) : Entry :=
  match v with
  | .reactive r => if keepsReader name then .immediate v else .reactive r
  | _ => .immediate v

end Entry

namespace Props

/-- The name of the prop with which a component renders its content. -/
def childrenName : String := "children"

/-- A prop set: in its old place, or at the end. -/
def set (ps : Props) (name : String) (e : Entry) : Props :=
  match ps with
  | [] => [(name, e)]
  | p :: rest => if p.1 = name then (name, e) :: rest else p :: set rest name e

def get? (ps : Props) (name : String) : Option Entry :=
  (ps.find? (·.1 == name)).map (·.2)

def contains (ps : Props) (name : String) : Bool := (get? ps name).isSome

/-- All entries of one list set in another, in order. -/
def setAll (ps more : Props) : Props :=
  more.foldl (fun ps e => set ps e.1 e.2) ps

end Props

/-- What a listener of an element runs: a handler of the application, a reader, which is
    read for the sake of what it does, or a callback, which gets the name of the event. -/
inductive Action where
  | handler (h : Handler)
  | read (r : Reader)
  | call (f : Func)

/-- The documents that the renderer works on. -/
abbrev Page := Document Value Action

end Stencil
