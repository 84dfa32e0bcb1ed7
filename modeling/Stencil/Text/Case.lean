/-
  Stencil/Text/Case.lean
  ======================
  **Names that differ only in the case of ASCII letters.**

  Element and attribute names are ASCII in all the tables of this library, so
  folding touches the letters `A`–`Z` and leaves every other character alone.
-/

namespace Stencil.Text

/-- The text with its ASCII letters in lower case. -/
def lower (s : String) : String := s.map Char.toLower

/-- The text with its ASCII letters in upper case. -/
def upper (s : String) : String := s.map Char.toUpper

/-- Equality up to the case of ASCII letters. -/
def sameName (a b : String) : Bool := lower a == lower b

/-- Whether the first character is an ASCII capital. -/
def startsCapital (s : String) : Bool :=
  match s.toList with
  | [] => false
  | c :: _ => c.isUpper

theorem sameName_refl (a : String) : sameName a a = true := by simp [sameName]

theorem sameName_comm (a b : String) : sameName a b = sameName b a := by
  simp [sameName, Bool.beq_comm]

theorem sameName_trans {a b c : String} (hab : sameName a b = true) (hbc : sameName b c = true) :
    sameName a c = true := by
  simp only [sameName, beq_iff_eq] at *
  exact hab.trans hbc

end Stencil.Text
