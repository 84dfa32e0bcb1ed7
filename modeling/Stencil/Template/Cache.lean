/-
  Stencil/Template/Cache.lean
  ===========================
  **Every literal is compiled once.**

  The cache keeps the outcome of the first compilation of each key, success or
  failure, for good.  It counts how often it compiled and how often it did not have
  to.  What a compiled template is does not matter here; compiling may change a state
  of its own.
-/
import Stencil.Template.Config

namespace Stencil

/-- The outcomes so far, the latest first, with the two counters. -/
structure Cache (κ : Type) where
  entries : List (Option String × Except TemplateError κ)
  parses : Nat
  hits : Nat

namespace Cache

variable {κ σ : Type}

def empty : Cache κ := ⟨[], 0, 0⟩

def lookup (c : Cache κ) (key : Option String) : Option (Except TemplateError κ) :=
  (c.entries.find? (·.1 == key)).map (·.2)

def size (c : Cache κ) : Nat := c.entries.length

def isEmpty (c : Cache κ) : Bool := c.entries.isEmpty

/-- What a request comes back with: the outcome, and whether it was compiled now. -/
structure Answer (κ : Type) where
  outcome : Except TemplateError κ
  compiled : Bool

/-- The outcome for a key, compiled on the first request. -/
def getOrCompile (c : Cache κ) (key : Option String)
    (compile : σ → Except TemplateError κ × σ) (s : σ) : Answer κ × Cache κ × σ :=
  match c.lookup key with
  | some outcome => (⟨outcome, false⟩, { c with hits := c.hits + 1 }, s)
  | none =>
    let (outcome, s) := compile s
    (⟨outcome, true⟩, ⟨(key, outcome) :: c.entries, c.parses + 1, c.hits⟩, s)

end Cache
end Stencil
