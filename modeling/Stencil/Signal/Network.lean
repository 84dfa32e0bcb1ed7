/-
  Stencil/Signal/Network.lean
  ===========================
  **Programs over signals.**

  A `Program` reads and writes signals, opens untracked stretches and registers
  effects, whose bodies are programs again; what it does next may depend on what it
  has read.  A network is a graph whose effects are programs, together with the lines
  that they have logged.

  A run can only be as deep as effects trigger each other.  `Program.run` takes a
  bound on that depth and has no result beyond it; a result does not depend on the
  bound.  A *rule* is an effect of a fixed shape: it reads a list of signals, logs what
  it has read, and then sets signals to the sum of its tracked readings and a constant.
-/
import Stencil.Signal.Tracking

namespace Stencil.Signal

/-- A program over signals with integer values.  It ends with a list of numbers. -/
inductive Program where
  | done (result : List Int)
  | get (name : String) (next : Int → Program)
  | peek (name : String) (next : Int → Program)
  | set (name : String) (value : Int) (next : Program)
  | untracked (body : Program) (next : List Int → Program)
  | effect (body : Program) (next : Program)
  | log (line : String) (next : Program)

/-- A graph whose effects are programs, and the lines logged so far. -/
structure Network where
  graph : Graph Int Program
  lines : List String

/-- An action on a network, or none if it goes deeper than allowed. -/
abbrev Net := StateT Network Option

instance : MonadStateOf (Graph Int Program) Net where
  get := do return (← getThe Network).graph
  set g := modifyThe Network fun n => { n with graph := g }
  modifyGet f := modifyGetThe Network fun n =>
    let (a, g) := f n.graph
    (a, { n with graph := g })

namespace Program

/-- A program run, where `exec` runs an effect. -/
def runWith (exec : Nat → Net Unit) : Program → Net (List Int)
  | done result => pure result
  | get name next => do
    let v ← read (σ := Int) (β := Program) name
    (next (v.getD 0)).runWith exec
  | peek name next => do
    let n ← getThe Network
    (next ((n.graph.peek? name).getD 0)).runWith exec
  | set name value next => do
    write (σ := Int) (β := Program) exec name value
    next.runWith exec
  | untracked body next => do
    let result ← Signal.untracked (σ := Int) (β := Program) (body.runWith exec)
    (next result).runWith exec
  | effect body next => do
    register (σ := Int) (β := Program) exec body
    next.runWith exec
  | log line next => do
    modifyThe Network fun n => { n with lines := n.lines ++ [line] }
    next.runWith exec

/-- An effect run, with effects in effects at most `depth` deep. -/
def exec : Nat → Nat → Net Unit
  | 0, _ => failure
  | depth + 1, id =>
    execute (σ := Int) (β := Program)
      (fun body => do
        let _ ← body.runWith (exec depth)
        pure body)
      id

def run (depth : Nat) (p : Program) : Net (List Int) := p.runWith (exec depth)

/-- Read signals one after the other; the next program gets the readings. -/
def getAll (names : List String) (next : List Int → Program) : Program :=
  match names with
  | [] => next []
  | name :: rest => get name fun v => getAll rest fun vs => next (v :: vs)

/-- Write signals one after the other. -/
def setAll : List (String × Int) → Program
  | [] => done []
  | (name, v) :: rest => set name v (setAll rest)

end Program

/-- An effect of a fixed shape. -/
structure Rule where
  label : String
  reads : List String
  untracked : List String
  writes : List (String × Int)
deriving DecidableEq, Repr

def bracketed (ns : List Int) : String :=
  "[" ++ ", ".intercalate (ns.map toString) ++ "]"

def Rule.program (r : Rule) : Program :=
  .getAll r.reads fun seen =>
    .untracked (.getAll r.untracked .done) fun passed =>
      .log (r.label ++ " " ++ bracketed seen ++ " " ++ bracketed passed)
        (.setAll (r.writes.map fun (name, k) => (name, seen.foldr (· + ·) k)))

namespace Network

def ofValues (values : List (String × Int)) : Network := ⟨.ofValues values, []⟩

/-- What can be done to a network from outside. -/
inductive Step where
  | rule (r : Rule)
  | set (name : String) (value : Int)
  | peek (name : String)
deriving DecidableEq, Repr

def Step.program : Step → Program
  | rule r => .effect r.program (.done [])
  | set name value => .set name value (.done [])
  | peek name => .peek name fun v => .done [v]

/-- A step of a network whose effects are rules.  Runs nest no deeper than there are
    effects, one of which the step itself may add. -/
def step (s : Step) (n : Network) : Option (List Int × Network) :=
  (s.program.run (n.graph.effects.size + 2)).run { n with lines := [] }

end Network
end Stencil.Signal
