/-
  Stencil/Inspect/Report.lean
  ===========================
  **What a literal in a file comes to: its tokens, its tree, its written form.**

  For the written form every hole is filled with its own code, as a text.  Holes whose
  text would not be seen are left empty: those that spread props, and those of listeners
  and references.  Nothing is tracked, and capitalized elements are elements like others.

  A section that fails ends the report; what was reported before it stands.
-/
import Stencil.Inspect.Options
import Stencil.Inspect.Source
import Stencil.Markup.Outline
import Stencil.Render.Machine

namespace Stencil.Inspect

/-! ### Complaints -/

/-- Why a file has no content. -/
inductive ReadFailure where
  /-- The system says so, in words and by a number. -/
  | system (reason : String) (code : Nat)
  /-- The bytes of the file are no text. -/
  | notText
deriving DecidableEq, Repr

def ReadFailure.message : ReadFailure → String
  | system reason code => reason ++ " (os error " ++ toString code ++ ")"
  | notText => "stream did not contain valid UTF-8"

/-- Why a report is not complete. -/
inductive Fault where
  | noFile
  | unreadable (path : String) (why : ReadFailure)
  | unterminated (hole : Unterminated)
  | malformed (path : String) (e : Markup.ParseError)
  | unrendered (path : String) (e : TemplateError)
deriving DecidableEq, Repr

def Fault.message : Fault → String
  | noFile => usage
  | unreadable path why => "cannot read " ++ path ++ ": " ++ why.message
  | unterminated hole => "unterminated hole starting at byte " ++ toString hole.offset
  | malformed path e => path ++ ": " ++ e.message
  | unrendered path e => path ++ ": " ++ e.message

/-! ### The written form -/

/-- The usual tables, and capitalized elements as they are. -/
def config : Config := { Config.usual with strict := false }

/-- What renders the literal. -/
def factory : Factory where
  config := config
  policy := .usual
  registry := .empty
  literals := []
  tracking := false

/-- Whether the text of a hole under this name would not be seen. -/
def isSilentName (name : String) : Bool :=
  name == "ref" || "@".toList.isPrefixOf name.toList || "on:".toList.isPrefixOf name.toList

/-- The hole of an attribute that is left empty. -/
def silentHole? : Markup.Attr → Option Nat
  | .spread i => some i
  | .dynamic name i _ => if isSilentName name then some i else none
  | _ => none

def silentHoles (t : Markup.Template) : List Nat :=
  t.tags.flatMap fun tag => tag.attrs.filterMap silentHole?

def placeholder (code : String) : String := "$\x7b" ++ code ++ "\x7d"

/-- The values that fill the holes of a literal. -/
def placeholders (l : Literal) (holes : List String) : List Value :=
  let silent :=
    match l.parse config with
    | .ok t => silentHoles t
    | .error _ => []
  holes.mapIdx fun i code =>
    if silent.contains i then .empty else .text (placeholder code)

/-- The written form of a literal mounted in an element of its own.  Its values are texts,
    so nothing is called on the way, and one level is deep enough (`writtenForm_eq`). -/
def writtenForm (l : Literal) (values : List Value) : Render.Run (Except TemplateError String) := do
  let c := Render.machine factory 1
  match ← Render.renderLiteral factory c l values with
  | .error e => pure (.error e)
  | .ok v => do
    let body ← Render.onPage (·.createElement "body" .html)
    Render.mount factory c body v
    return .ok ((← Render.page).innerHtml body)

/-! ### The report -/

/-- Writing a report that may break off. -/
abbrev Writing := ExceptT Fault (StateM String)

/-- Lines written, each with its end. -/
def write (lines : List String) : Writing Unit :=
  modify fun out => out ++ String.join (lines.map (· ++ "\n"))

def writeTokens (l : Literal) : Writing Unit := do
  write ["# tokens"]
  write (Markup.Token.lines (Markup.tokenize config.rawText l.segments))

def writeOutline (path : String) (l : Literal) : Writing Unit := do
  write ["# ast"]
  match l.parse config with
  | .ok t => write t.outline
  | .error e => throw (.malformed path e)

/-- The written form.  There always is one, or an error (`writeHtml_eq`). -/
def writeHtml (path : String) (l : Literal) (holes : List String) : Writing Unit := do
  write ["# html"]
  match ((writtenForm l (placeholders l holes)).run' (Render.World.initial [])).getD (.ok "") with
  | .ok html => write [html]
  | .error e => throw (.unrendered path e)

/-- The sections asked for, of a file with the given content. -/
def writeReport (o : Options) (path content : String) : Writing Unit := do
  match Source.read content with
  | .error hole => throw (.unterminated hole)
  | .ok source => do
    let l : Literal := ⟨path, source.segments⟩
    if o.tokens then writeTokens l else pure ()
    if o.ast then writeOutline path l else pure ()
    if o.html then writeHtml path l source.holes else pure ()

/-- What the program leaves behind: the report, the complaint and the exit code. -/
structure Outcome where
  report : String
  complaint : String
  code : Nat
deriving DecidableEq, Repr

/-- The outcome of a report written in full or in part. -/
def Outcome.of (written : Except Fault Unit × String) : Outcome :=
  match written with
  | (.ok (), report) => ⟨report, "", 0⟩
  | (.error f, report) => ⟨report, "litdom: " ++ f.message ++ "\n", 1⟩

/-- The program, given a way of reading files. -/
def run {m : Type → Type} [Monad m] (readFile : String → m (Except ReadFailure String))
    (arguments : List String) : m Outcome := do
  match Options.read arguments with
  | .error misuse => pure ⟨"", misuse.message ++ "\n", 2⟩
  | .ok o =>
    match o.path with
    | none => pure (.of (.error .noFile, ""))
    | some path => do
      match ← readFile path with
      | .error why => pure (.of (.error (.unreadable path why), ""))
      | .ok content => pure (.of ((writeReport o path content).run.run ""))

end Stencil.Inspect
