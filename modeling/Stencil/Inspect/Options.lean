/-
  Stencil/Inspect/Options.lean
  ============================
  **The arguments of the command line.**

  Flags choose the sections of the report; without any, all of them are shown.  The other
  argument is the file.  Arguments are read from left to right, and the first that is
  wrong decides the complaint.
-/

namespace Stencil.Inspect

/-- What to report, and on which file. -/
structure Options where
  tokens : Bool
  ast : Bool
  html : Bool
  path : Option String
deriving DecidableEq, Repr

/-- Why there is nothing to report. -/
inductive Misuse where
  | help
  | unknownFlag (flag : String)
  | unexpected (argument : String)
deriving DecidableEq, Repr

def usage : String := "usage: litdom [--tokens] [--ast] [--html] <file>"

def Misuse.message : Misuse → String
  | help => usage
  | unknownFlag flag => "unknown flag " ++ flag ++ "\n" ++ usage
  | unexpected argument => "unexpected argument " ++ argument

namespace Options

def none : Options := ⟨false, false, false, .none⟩

/-- One more argument. -/
def add (o : Options) (argument : String) : Except Misuse Options :=
  match argument with
  | "--tokens" => .ok { o with tokens := true }
  | "--ast" => .ok { o with ast := true }
  | "--html" => .ok { o with html := true }
  | "-h" => .error .help
  | "--help" => .error .help
  | _ =>
    if "--".toList.isPrefixOf argument.toList then .error (.unknownFlag argument)
    else if o.path.isSome then .error (.unexpected argument)
    else .ok { o with path := some argument }

/-- All sections, if no flag chooses any. -/
def orAll (o : Options) : Options :=
  if o.tokens || o.ast || o.html then o
  else { o with tokens := true, ast := true, html := true }

/-- The options that arguments stand for. -/
def read (arguments : List String) : Except Misuse Options :=
  (arguments.foldlM add none).map orAll

end Options
end Stencil.Inspect
