/-
  Stencil/Value/Script.lean
  =========================
  **The code that an application hands to the renderer.**

  Readers, event handlers, callbacks and components are pieces of the application.
  Here they are written in a small language, so that they are data: they can be
  stored in signals, compared and reasoned about.  A script is *built*, which gives a
  value and may do something on the way: make nodes, read or write a signal, render
  another literal, leave a note.

  The last group of forms has a meaning only in the body of a component, where there
  are props to ask for; elsewhere they give the empty value.
-/
import Stencil.Number.Basic

namespace Stencil

inductive Script where
  /-- Values that are what they say. -/
  | empty
  | bool (b : Bool)
  | number (n : Number)
  | text (s : String)
  | list (items : List Script)
  /-- An event handler: it leaves a note, and may then set a signal to a script. -/
  | handler (label : String) (assigns : Option (String × Script))
  /-- A callback that takes a node and leaves a note. -/
  | ref (label : String)
  /-- A callback that leaves a note and gives a result, by default its argument. -/
  | func (label : String) (result : Option Script)
  /-- A reader that builds the script which a signal holds. -/
  | signal (name : String)
  /-- A reader that builds a script each time it is read. -/
  | later (body : Script)
  /-- The script that a signal holds now, built. -/
  | peek (name : String)
  /-- One of two scripts, as a signal is true or not. -/
  | choose (name : String) (yes no : Script)
  /-- A signal is set to a script first. -/
  | write (name : String) (value next : Script)
  /-- A note is left first. -/
  | note (line : String) (next : Script)
  /-- One text out of several values. -/
  | join (pieces : List Script)
  /-- Props for an element.  An entry marked `true` is a reader. -/
  | spread (entries : List (String × Bool × Script))
  /-- Nodes of one's own, and nodes that are there already. -/
  | element (name : String) (children : List Script)
  | fragment (children : List Script)
  | comment (value : String)
  | stored (name : String)
  | container (name : String)
  /-- A literal rendered. -/
  | html (literal : String) (values : List Script)
  /-- In a component: a prop, whether it is there, the children, a note of all props,
      and a callback among the props called. -/
  | prop (name : String)
  | hasProp (name : String)
  | children
  | dump
  | call (name : String) (argument : Script)
deriving Inhabited

/-- Whether a script counts as true where a signal is asked without being built. -/
def Script.isTruthy : Script → Bool
  | bool b => b
  | number n => n.isTruthy
  | text s => s != ""
  | list _ => true
  | _ => false

end Stencil
