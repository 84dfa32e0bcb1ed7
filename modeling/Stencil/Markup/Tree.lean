/-
  Stencil/Markup/Tree.lean
  ========================
  **The tree of a literal.**

  A parsed literal is a list of nodes: texts, holes and elements.  The tree does
  not know a page; it keeps names as written, attributes in their order, and the
  holes by number.  Two things are worked out once, when the tree is built: which
  elements belong to SVG, and the *slot* of every element whose name begins with a
  capital.  Such an element may stand for a component, whose content is rendered
  on its own, so it owns a container; the literal as a whole owns container `0`.
-/
import Stencil.Markup.Token
import Stencil.Text.Case

namespace Stencil.Markup

inductive AttrPart where
  | text (value : String)
  | hole (index : Nat)
deriving DecidableEq, Repr

/-- An attribute of a start tag: a bare name, a fixed value, a value that is one
    hole, a hole that brings attributes of its own, or a value of several pieces.
    The quote is `none` for an unquoted value. -/
inductive Attr where
  | flag (name : String)
  | fixed (name value : String) (quote : Option Quote)
  | dynamic (name : String) (index : Nat) (quote : Option Quote)
  | spread (index : Nat)
  | mixed (name : String) (parts : List AttrPart) (quote : Option Quote)
deriving DecidableEq, Repr

namespace Attr

/-- The name of an attribute; a spread has none. -/
def name? : Attr → Option String
  | flag n => some n
  | fixed n _ _ => some n
  | dynamic n _ _ => some n
  | spread _ => none
  | mixed n _ _ => some n

def isFixed : Attr → Bool
  | flag _ => true
  | fixed _ _ _ => true
  | _ => false

def isSpread : Attr → Bool
  | spread _ => true
  | _ => false

def holes : Attr → List Nat
  | flag _ => []
  | fixed _ _ _ => []
  | dynamic _ i _ => [i]
  | spread i => [i]
  | mixed _ parts _ => parts.filterMap fun
    | .text _ => none
    | .hole i => some i

end Attr

structure Tag where
  name : String
  attrs : List Attr
  svg : Bool
  slot : Option Nat
deriving DecidableEq, Repr

/-- Whether an element may stand for a component. -/
def Tag.isCapitalized (t : Tag) : Bool := Text.startsCapital t.name

inductive Node where
  | text (value : String)
  | hole (index : Nat)
  | element (tag : Tag) (children : List Node)
deriving Repr, Inhabited

/-- The slot of the literal as a whole. -/
def rootSlot : Nat := 0

/-- A parsed literal: its nodes, and the number of containers, which are the
    literal itself and every capitalized element. -/
structure Template where
  children : List Node
  slotCount : Nat
deriving Repr, Inhabited

namespace Node

def children : Node → List Node
  | element _ children => children
  | _ => []

def size : Node → Nat
  | text _ => 1
  | hole _ => 1
  | element _ children => 1 + sizeAll children
where
  /-- The number of nodes of a list of trees. -/
  sizeAll : List Node → Nat
    | [] => 0
    | n :: ns => n.size + sizeAll ns

mutual

def decEq : (a b : Node) → Decidable (a = b)
  | text s, text s' => decidable_of_iff (s = s') (by simp)
  | hole i, hole j => decidable_of_iff (i = j) (by simp)
  | element t ns, element t' ns' =>
    have := decEqAll ns ns'
    decidable_of_iff (t = t' ∧ ns = ns') (by simp)
  | text _, hole _ => isFalse nofun
  | text _, element _ _ => isFalse nofun
  | hole _, text _ => isFalse nofun
  | hole _, element _ _ => isFalse nofun
  | element _ _, text _ => isFalse nofun
  | element _ _, hole _ => isFalse nofun

def decEqAll : (as bs : List Node) → Decidable (as = bs)
  | [], [] => isTrue rfl
  | a :: as, b :: bs =>
    have := decEq a b
    have := decEqAll as bs
    decidable_of_iff (a = b ∧ as = bs) (by simp)
  | [], _ :: _ => isFalse nofun
  | _ :: _, [] => isFalse nofun

end

instance : DecidableEq Node := decEq

end Node

deriving instance DecidableEq for Template

end Stencil.Markup
