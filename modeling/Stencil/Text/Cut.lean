/-
  Stencil/Text/Cut.lean
  =====================
  **Cutting a text at the first place where something begins.**

  Most scanning in this library is of one form: go on up to the first place where
  the rest of the text satisfies a test (it begins a tag, it closes a raw body,
  it ends a comment).  `cutAt` does this for any test on the rest; what is in
  front and what is left always add up to the whole.
-/

namespace Stencil.Text

/-- The characters before the first place whose rest passes the test, and that
    rest; everything and nothing when no place does. -/
def cutAt (test : List Char → Bool) : List Char → List Char × List Char
  | [] => ([], [])
  | c :: cs =>
    if test (c :: cs) then ([], c :: cs)
    else ((c :: (cutAt test cs).1), (cutAt test cs).2)

@[simp] theorem cutAt_append (test : List Char → Bool) (cs : List Char) :
    (cutAt test cs).1 ++ (cutAt test cs).2 = cs := by
  induction cs with
  | nil => rfl
  | cons c cs ih => by_cases h : test (c :: cs) <;> simp [cutAt, h, ih]

/-- The number of bytes that characters take in UTF-8. -/
def byteLength : List Char → Nat
  | [] => 0
  | c :: cs => c.utf8Size + byteLength cs

@[simp] theorem byteLength_nil : byteLength [] = 0 := rfl

@[simp] theorem byteLength_cons (c : Char) (cs : List Char) :
    byteLength (c :: cs) = c.utf8Size + byteLength cs := rfl

@[simp] theorem byteLength_append (a b : List Char) :
    byteLength (a ++ b) = byteLength a + byteLength b := by
  induction a with
  | nil => simp
  | cons c a ih => rw [List.cons_append, byteLength_cons, byteLength_cons, ih, Nat.add_assoc]

end Stencil.Text
