/-
  Stencil/Markup/Token.lean
  =========================
  **The pieces of a literal.**

  A literal is a list of static segments with a *hole* between each two of them,
  where a value is put in at run time.  Its markup is cut into tokens, each with
  the place where it stands: the number of its segment and the offset in that
  segment, in bytes of UTF-8.  A hole stands at the end of the segment before it.
-/
import Stencil.Text.Quoted

namespace Stencil.Markup

inductive Quote where
  | single
  | double
deriving DecidableEq, Repr

def Quote.char : Quote → Char
  | .single => '\''
  | .double => '"'

def Quote.ofChar? : Char → Option Quote
  | '\'' => some .single
  | '"' => some .double
  | _ => none

structure Position where
  segment : Nat
  offset : Nat
deriving DecidableEq, Repr, Inhabited

namespace Position

/-- Reading order: by segment, then by offset. -/
def Before (a b : Position) : Prop :=
  a.segment < b.segment ∨ (a.segment = b.segment ∧ a.offset < b.offset)

def describe (p : Position) : String :=
  "segment " ++ toString p.segment ++ " offset " ++ toString p.offset

end Position

/-- What a token is. A `fragment` is a piece of an attribute value; a `commentHole`
    is a hole inside a comment, which keeps its number and shows nothing. -/
inductive TokenKind where
  | openAngle
  | closeAngle
  | slash
  | equals
  | ident (name : String)
  | fragment (value : String)
  | text (value : String)
  | hole (index : Nat)
  | commentHole (index : Nat)
  | quote (mark : Quote)
deriving DecidableEq, Repr

/-- A piece of a literal and the place where it begins. -/
structure Token where
  kind : TokenKind
  pos : Position
deriving DecidableEq, Repr

def holeText (i : Nat) : String := "$\x7b" ++ toString i ++ "\x7d"

/-- A token in words, as error messages and outlines name it. -/
def TokenKind.describe : TokenKind → String
  | .openAngle => "`<`"
  | .closeAngle => "`>`"
  | .slash => "`/`"
  | .equals => "`=`"
  | .ident name => "identifier `" ++ name ++ "`"
  | .fragment value => "attribute value `" ++ value ++ "`"
  | .text value => "text " ++ Text.quoted value
  | .hole i => "expression " ++ holeText i
  | .commentHole i => "commented expression " ++ holeText i
  | .quote q => "quote `" ++ String.ofList [q.char] ++ "`"

/-- A token on a line of its own: its place and what it is. -/
def Token.line (t : Token) : String :=
  toString t.pos.segment ++ ":" ++ toString t.pos.offset ++ " " ++ t.kind.describe

def Token.lines (ts : List Token) : List String := ts.map Token.line

end Stencil.Markup
