/-
  Stencil/Markup/Error.lean
  =========================
  **Why a literal has no tree.**

  Characters never fail; only the structure can.  Each cause carries the names it
  is about and the place where it shows, and `ParseError.message` puts it in
  words.
-/
import Stencil.Markup.Token

namespace Stencil.Markup

/-- What is wrong with the structure of a literal. -/
inductive ParseFault where
  /-- The input ended while an element was open. -/
  | unclosed (name : String)
  /-- A close tag names another element than the innermost open one. -/
  | mismatched (expected found : String)
  /-- A close tag stands where nothing is open. -/
  | strayClose (name : String)
  /-- The mark `...` is not directly followed by a hole. -/
  | spreadWithoutHole
  /-- A token stands where it can neither begin nor continue anything. -/
  | unexpected (found : TokenKind)
  /-- The input ended inside a tag. -/
  | unexpectedEnd
deriving DecidableEq, Repr

/-- A fault and its place. -/
structure ParseError where
  fault : ParseFault
  pos : Position
deriving DecidableEq, Repr

def ParseError.message (e : ParseError) : String :=
  let place := e.pos.describe
  match e.fault with
  | .unclosed name => "unclosed element <" ++ name ++ "> opened at " ++ place
  | .mismatched expected found =>
    "mismatched close tag at " ++ place ++ ": expected </" ++ expected ++ ">, found </" ++ found ++
      ">"
  | .strayClose name => "close tag </" ++ name ++ "> at " ++ place ++ " has no open element"
  | .spreadWithoutHole => "spread marker at " ++ place ++ " is not followed by an expression"
  | .unexpected found => "unexpected " ++ found.describe ++ " at " ++ place
  | .unexpectedEnd => "unexpected end of input inside a tag at " ++ place

instance decidableEqExcept {ε α : Type} [DecidableEq ε] [DecidableEq α] :
    DecidableEq (Except ε α)
  | .ok a, .ok b => decidable_of_iff (a = b) (by simp)
  | .error e, .error e' => decidable_of_iff (e = e') (by simp)
  | .ok _, .error _ => .isFalse nofun
  | .error _, .ok _ => .isFalse nofun

end Stencil.Markup
