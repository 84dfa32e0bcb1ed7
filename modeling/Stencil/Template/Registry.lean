/-
  Stencil/Template/Registry.lean
  ==============================
  **Components by name.**

  A component stands for the elements that bear its name; the name is compared to the
  letter, and only an element that owns a slot can be one.
-/
import Stencil.Markup.Tree

namespace Stencil

/-- The components of a factory, each name once. -/
structure Registry (κ : Type) where
  components : List (String × κ)

namespace Registry

variable {κ : Type}

def empty : Registry κ := ⟨[]⟩

def get? (r : Registry κ) (name : String) : Option κ :=
  (r.components.find? (·.1 == name)).map (·.2)

def contains (r : Registry κ) (name : String) : Bool := (r.get? name).isSome

/-- The registry with one more component; one of the same name gives way. -/
def register (r : Registry κ) (name : String) (component : κ) : Registry κ :=
  ⟨(name, component) :: r.components.filter (·.1 != name)⟩

/-- The registry of the given components, of which later ones win. -/
def ofList (components : List (String × κ)) : Registry κ :=
  components.foldl (fun r c => r.register c.1 c.2) empty

def size (r : Registry κ) : Nat := r.components.length

def isEmpty (r : Registry κ) : Bool := r.components.isEmpty

def componentFor? (r : Registry κ) (t : Markup.Tag) : Option κ :=
  if t.slot.isSome then r.get? t.name else none

def isComponent (r : Registry κ) (t : Markup.Tag) : Bool := (r.componentFor? t).isSome

/-- The names in alphabetical order, as diagnostics show a registry. -/
def diagnostic (r : Registry κ) : String :=
  let names := (r.components.map (·.1)).mergeSort (· ≤ ·)
  "ComponentRegistry \x7b components: [" ++ ", ".intercalate (names.map Text.quoted) ++ "] \x7d"

end Registry
end Stencil
