/-
  Stencil/Render/Script.lean
  ==========================
  **Building scripts.**

  Scripts are built from left to right, parts before wholes, except that a node is made
  before its children are.
-/
import Stencil.Render.Container

namespace Stencil.Render

/-! ### Props of a component -/

def entryValue (c : Calls) : Entry → Run Value
  | .immediate v => pure v
  | .reactive r => c.read r

/-- The value of a prop now; one that is not there is empty. -/
def propValue (c : Calls) (ps : Props) (name : String) : Run Value :=
  match ps.get? name with
  | some e => entryValue c e
  | none => pure .empty

/-- What can be told of props, each read in order. -/
def listProps (c : Calls) : Props → Run (List (String × Bool × Described))
  | [] => pure []
  | (name, e) :: rest => do
    let v ← entryValue c e
    let described := v.describe (← page)
    let others ← listProps c rest
    return (name, e.isReactive, described) :: others

/-! ### Nodes -/

/-- A value as one node: a node as it is, other values as a text node. -/
def nodeFor (v : Value) : Run NodeId :=
  match v with
  | .node id => pure id
  | _ => onPage (·.createText v.toText)

/-- The container of a name, made when it is first asked for. -/
def container (name : String) : Run NodeId := do
  match (← getThe World).containers.find? (·.1 == name) with
  | some (_, id) => pure id
  | none => do
    let id ← onPage (·.createElement "root" .html)
    modifyThe World fun w => { w with containers := w.containers ++ [(name, id)] }
    pure id

def storedValue (name : String) : Run Value := do
  return (((← getThe World).stored.find? (·.1 == name)).map (·.2)).getD .empty

/-- A literal of the application rendered with values for its holes.  Once the factory is
    gone, every literal comes to nothing. -/
def renderNamed (f : Factory) (c : Calls) (literal : String) (values : List Value) :
    Run (Except TemplateError Value) := do
  if (← getThe World).live then renderLiteral f c (f.literal literal) values
  else pure (.ok .empty)

/-- What rendering has come to, as a value: an error is a text. -/
def outcomeValue : Except TemplateError Value → Value
  | .ok v => v
  | .error e => .text ("!" ++ e.message)

/-! ### Scripts -/

mutual

/-- A script built, in the body of a component with the given props. -/
def buildScript (f : Factory) (c : Calls) (env : Option Props) : Script → Run Value
  | .empty => pure .empty
  | .bool b => pure (.bool b)
  | .number n => pure (.number n)
  | .text s => pure (.text s)
  | .list items => do
    let vs ← buildScripts f c env items
    pure (.list vs)
  | .handler label assigns => pure (.handler ⟨label, assigns⟩)
  | .ref label => pure (.ref label)
  | .func label result => pure (.func ⟨label, result⟩)
  | .signal name => pure (.reactive (.signal name))
  | .later body => pure (.reactive (.script env body))
  | .peek name => do
    let code ← readSignal name
    c.build none code
  | .choose name yes no => do
    let code ← readSignal name
    if code.isTruthy then buildScript f c env yes else buildScript f c env no
  | .write name value next => do
    writeSignal c name value
    buildScript f c env next
  | .note line next => do
    log (.noted line)
    buildScript f c env next
  | .join pieces => do
    let s ← joinScripts f c env pieces
    pure (.text s)
  | .spread entries => do
    let ps ← buildEntries f c env [] entries
    pure (.spread ps)
  | .element name children => do
    let id ← onPage (·.createElement name .html)
    buildInto f c env id children
    pure (.node id)
  | .fragment children => do
    let id ← onPage (·.createFragment)
    buildInto f c env id children
    pure (.node id)
  | .comment value => do
    let id ← onPage (·.createComment value)
    pure (.node id)
  | .stored name => storedValue name
  | .container name => do
    let id ← container name
    pure (.node id)
  | .html literal values => do
    let vs ← buildScripts f c env values
    let outcome ← renderNamed f c literal vs
    pure (outcomeValue outcome)
  | .prop name =>
    match env with
    | some ps => propValue c ps name
    | none => pure .empty
  | .hasProp name =>
    match env with
    | some ps => pure (.bool (ps.contains name))
    | none => pure .empty
  | .children =>
    match env with
    | some ps => propValue c ps Props.childrenName
    | none => pure .empty
  | .dump =>
    match env with
    | some ps => do
      let entries ← listProps c ps
      log (.listed entries)
      pure .empty
    | none => pure .empty
  | .call name argument =>
    match env with
    | some ps => do
      let v ← propValue c ps name
      match ← c.resolve v with
      | .func fn => do
        let a ← buildScript f c env argument
        callFunc c fn a
      | _ => pure (.text "!not a func")
    | none => pure .empty

def buildScripts (f : Factory) (c : Calls) (env : Option Props) : List Script → Run (List Value)
  | [] => pure []
  | code :: rest => do
    let v ← buildScript f c env code
    let vs ← buildScripts f c env rest
    pure (v :: vs)

def joinScripts (f : Factory) (c : Calls) (env : Option Props) : List Script → Run String
  | [] => pure ""
  | code :: rest => do
    let v ← buildScript f c env code
    let v ← c.resolve v
    let s ← joinScripts f c env rest
    pure (v.toText ++ s)

def buildEntries (f : Factory) (c : Calls) (env : Option Props) (ps : Props) :
    List (String × Bool × Script) → Run Props
  | [] => pure ps
  | (name, true, code) :: rest =>
    buildEntries f c env (ps.set name (.reactive (.script env code))) rest
  | (name, false, code) :: rest => do
    let v ← buildScript f c env code
    buildEntries f c env (ps.set name (.immediate v)) rest

/-- Several scripts built and put into a node, in order. -/
def buildInto (f : Factory) (c : Calls) (env : Option Props) (parent : NodeId) :
    List Script → Run Unit
  | [] => pure ()
  | code :: rest => do
    let v ← buildScript f c env code
    let id ← nodeFor v
    changePage fun d => d.append parent id
    buildInto f c env parent rest

end

end Stencil.Render
