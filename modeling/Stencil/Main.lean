/-
  Stencil/Main.lean
  =================
  **The command line: reading the file, writing the report and the complaint.**
-/
import Stencil.Inspect.Report

namespace Stencil.Inspect

/-- The words and the number of an error of the system. -/
def ReadFailure.ofError : IO.Error → ReadFailure
  | .otherError code reason | .resourceBusy code reason | .resourceVanished code reason
  | .unsupportedOperation code reason | .hardwareFault code reason
  | .unsatisfiedConstraints code reason | .illegalOperation code reason
  | .protocolError code reason | .timeExpired code reason => .system reason code.toNat
  | .interrupted _ code reason | .noFileOrDirectory _ code reason => .system reason code.toNat
  | .alreadyExists _ code reason | .invalidArgument _ code reason
  | .permissionDenied _ code reason | .resourceExhausted _ code reason
  | .inappropriateType _ code reason | .noSuchThing _ code reason => .system reason code.toNat
  | .unexpectedEof => .notText
  | .userError reason => .system reason 0

def readBytes (path : String) : IO ByteArray := do
  let file ← IO.FS.Handle.mk path .read
  file.readBinToEnd

def readTextFile (path : String) : IO (Except ReadFailure String) := do
  match ← (readBytes path).toBaseIO with
  | .error e => pure (.error (.ofError e))
  | .ok bytes =>
    match String.fromUTF8? bytes with
    | some text => pure (.ok text)
    | none => pure (.error .notText)

end Stencil.Inspect

def main (arguments : List String) : IO UInt32 := do
  let outcome ← Stencil.Inspect.run Stencil.Inspect.readTextFile arguments
  IO.print outcome.report
  IO.eprint outcome.complaint
  pure outcome.code.toUInt32
