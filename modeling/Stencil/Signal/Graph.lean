/-
  Stencil/Signal/Graph.lean
  =========================
  **Signals, the effects that read them, and who is reading right now.**

  A signal has a value and a list of *subscribers*: the effects that are to run again
  when it is written.  An effect becomes a subscriber by reading the signal in the
  course of its own run.  Who is reading is decided by a stack of scopes: the run of
  an effect opens a scope, and so does a stretch that is to leave no subscriptions.
  Only the innermost scope counts.

  The graph does not know what values are, nor what running an effect means; `σ` is
  the type of the values and `β` that of the bodies of the effects.
-/

namespace Stencil.Signal

/-- A value that can be watched, with the effects that watch it in the order of their
    first reading. -/
structure Cell (σ : Type) where
  value : σ
  subscribers : List Nat

structure Effect (β : Type) where
  body : β
  running : Bool

/-- What a reading counts for: a run of an effect, or nothing. -/
inductive Scope where
  | effect (id : Nat)
  | untracked
deriving DecidableEq, Repr

/-- All signals, all effects in the order of their registration, and the open scopes,
    the innermost first. -/
structure Graph (σ β : Type) where
  cells : List (String × Cell σ)
  effects : Array (Effect β)
  scopes : List Scope

namespace Graph

variable {σ β : Type}

def ofValues (values : List (String × σ)) : Graph σ β :=
  ⟨values.map fun (name, v) => (name, ⟨v, []⟩), #[], []⟩

def cell? (g : Graph σ β) (name : String) : Option (Cell σ) :=
  (g.cells.find? (·.1 == name)).map (·.2)

def updateCell (g : Graph σ β) (name : String) (f : Cell σ → Cell σ) : Graph σ β :=
  { g with cells := g.cells.map fun (n, c) => if n = name then (n, f c) else (n, c) }

/-- The effect that a reading counts for. -/
def observer? (g : Graph σ β) : Option Nat :=
  match g.scopes with
  | .effect id :: _ => some id
  | _ => none

/-- The value of a signal, looked at without a trace. -/
def peek? (g : Graph σ β) (name : String) : Option σ := (g.cell? name).map (·.value)

/-- A subscriber added, unless it is one already. -/
def Cell.subscribe (c : Cell σ) (id : Nat) : Cell σ :=
  if c.subscribers.contains id then c else { c with subscribers := c.subscribers ++ [id] }

/-- The value of a signal; the effect that reads it becomes a subscriber. -/
def read (g : Graph σ β) (name : String) : Option σ × Graph σ β :=
  (g.peek? name,
    match g.observer? with
    | some id => g.updateCell name fun c => Cell.subscribe c id
    | none => g)

/-- A signal given a new value, and the effects that have to run. -/
def write (g : Graph σ β) (name : String) (value : σ) : List Nat × Graph σ β :=
  (((g.cell? name).map (·.subscribers)).getD [],
    g.updateCell name fun c => { c with value := value })

/-- A new effect; its number is the next one. -/
def register (g : Graph σ β) (body : β) : Nat × Graph σ β :=
  (g.effects.size, { g with effects := g.effects.push ⟨body, false⟩ })

/-- The start of a run: the body to run, unless the effect is running already. -/
def start (g : Graph σ β) (id : Nat) : Option β × Graph σ β :=
  match g.effects[id]? with
  | none => (none, g)
  | some e =>
    if e.running then (none, g)
    else
      (some e.body,
        { g with
          effects := g.effects.modify id fun e => { e with running := true }
          scopes := .effect id :: g.scopes })

/-- The end of a run, which leaves the effect with the given body. -/
def finish (g : Graph σ β) (id : Nat) (body : β) : Graph σ β :=
  { g with
    effects := g.effects.modify id fun _ => ⟨body, false⟩
    scopes := g.scopes.tail }

/-- The start of a stretch that leaves no subscriptions. -/
def openUntracked (g : Graph σ β) : Graph σ β := { g with scopes := .untracked :: g.scopes }

def closeScope (g : Graph σ β) : Graph σ β := { g with scopes := g.scopes.tail }

def subscriberCounts (g : Graph σ β) : List (String × Nat) :=
  g.cells.map fun (name, c) => (name, c.subscribers.length)

def values (g : Graph σ β) : List (String × σ) :=
  g.cells.map fun (name, c) => (name, c.value)

end Graph
end Stencil.Signal
