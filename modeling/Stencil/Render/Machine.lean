/-
  Stencil/Render/Machine.lean
  ===========================
  **Closing the circle.**

  The parts of the renderer call each other through `Calls`.  `machine f n` is the
  renderer that may go `n` levels deep: at level `0` every call fails, and a call at level
  `n + 1` runs its part with the renderer of level `n`.  A result, once there is one, is
  the same for every larger `n`; the level only says how far a circle is followed that has
  no end, such as a signal that reads itself.
-/
import Stencil.Render.Script

namespace Stencil.Render

/-- The text joined from the pieces of an attribute, each read until it is no reader. -/
def joinPieces (c : Calls) : List Value → Run String
  | [] => pure ""
  | v :: vs => do
    let v ← c.resolve v
    let s ← joinPieces c vs
    pure (v.toText ++ s)

def readReader (c : Calls) : Reader → Run Value
  | .script props code => c.build props code
  | .signal name => do
    let code ← readSignal name
    c.build none code
  | .join pieces => do
    let s ← joinPieces c pieces
    pure (.text s)
  | .children source values slot nodes => c.container source values slot nodes

def resolveValue (c : Calls) (v : Value) : Run Value :=
  match v with
  | .reactive r => do
    let v ← c.read r
    c.resolve v
  | _ => pure v

/-- The renderer that may not go any deeper. -/
def Calls.none : Calls where
  build _ _ := failure
  read _ := failure
  resolve _ := failure
  nodes _ := failure
  container _ _ _ _ := failure
  effect _ := failure

/-- The renderer one level above another. -/
def Calls.above (f : Factory) (c : Calls) : Calls where
  build := buildScript f c
  read := readReader c
  resolve := resolveValue c
  nodes := nodesOf c
  container := renderContainer f c
  effect := runEffect f c

/-- The renderer that may go a number of levels deep.  A level is made when it is called,
    so that a renderer costs no more than the levels it goes down to. -/
def machine (f : Factory) : Nat → Calls
  | 0 => Calls.none
  | n + 1 =>
    { build := fun env code w => buildScript f (machine f n) env code w
      read := fun r w => readReader (machine f n) r w
      resolve := fun v w => resolveValue (machine f n) v w
      nodes := fun v w => nodesOf (machine f n) v w
      container := fun source values slot nodes w =>
        renderContainer f (machine f n) source values slot nodes w
      effect := fun id w => runEffect f (machine f n) id w }

/-- With one level more, every part runs on the renderer that has one level less. -/
theorem machine_succ (f : Factory) (n : Nat) :
    machine f (n + 1) = Calls.above f (machine f n) := rfl

end Stencil.Render
