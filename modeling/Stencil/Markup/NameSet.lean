/-
  Stencil/Markup/NameSet.lean
  ===========================
  **Small tables of element and event names, whatever their case.**

  A table keeps its names in lower case and in the order in which they came in.
  Membership ignores the case of ASCII letters, so a name enters at most once.
  The two element tables at the end are the ones used unless a page brings its
  own: elements that never have content, and elements whose content is text to
  the letter.
-/
import Stencil.Text.Case

namespace Stencil

structure NameSet where
  names : List String
deriving DecidableEq, Repr

namespace NameSet

def empty : NameSet := ⟨[]⟩

/-- Membership, up to the case of ASCII letters. -/
def contains (s : NameSet) (name : String) : Bool :=
  s.names.any fun n => Text.sameName n name

/-- The table with one more name; a name it has already changes nothing. -/
def insert (s : NameSet) (name : String) : NameSet :=
  if s.contains name then s else ⟨s.names ++ [Text.lower name]⟩

def erase (s : NameSet) (name : String) : NameSet :=
  ⟨s.names.filter fun n => !Text.sameName n name⟩

def ofList (names : List String) : NameSet :=
  names.foldl insert empty

def size (s : NameSet) : Nat := s.names.length

def isEmpty (s : NameSet) : Bool := s.names.isEmpty

/-- What a table holds depends on a name only up to its case. -/
theorem contains_congr (s : NameSet) {a b : String} (h : Text.sameName a b = true) :
    s.contains a = s.contains b := by
  simp only [Text.sameName, beq_iff_eq] at h
  simp [contains, Text.sameName, h]

/-! ### The usual element tables -/

/-- Elements that never have content. -/
def voidElements : NameSet :=
  ofList ["area", "base", "br", "col", "embed", "hr", "img", "input", "keygen", "link", "meta",
    "param", "source", "track", "wbr"]

/-- Elements whose content is never read as markup. -/
def rawTextElements : NameSet :=
  ofList ["script", "style", "textarea", "title"]

/-- Event names that bubble to one listener of the whole page. -/
def delegatedEvents : NameSet :=
  ofList ["beforeinput", "click", "contextmenu", "dblclick", "focusin", "focusout", "input",
    "keydown", "keyup", "mousedown", "mousemove", "mouseout", "mouseover", "mouseup",
    "pointerdown", "pointermove", "pointerout", "pointerover", "pointerup", "touchend",
    "touchmove", "touchstart"]

end NameSet
end Stencil
