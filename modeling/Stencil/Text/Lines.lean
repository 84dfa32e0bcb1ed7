/-
  Stencil/Text/Lines.lean
  =======================
  **Where two lists of lines begin to differ.**

  The report shows the first line that differs with up to two lines on either
  side, the expected one above the actual one, and ends with the two lengths.  A
  list that has run out counts as having the line `<missing>`.
-/

namespace Stencil.Text

def lineAt (lines : List String) (i : Nat) : String :=
  lines.getD i "<missing>"

/-- The first index at which two lists of lines differ. -/
def firstMismatch (expected actual : List String) : Option Nat :=
  (List.range (max expected.length actual.length)).find? fun i =>
    lineAt expected i != lineAt actual i

def fourColumns (n : Nat) : String :=
  let s := toString n
  String.ofList (List.replicate (4 - s.length) ' ') ++ s

/-- The two rows of the report for one line. -/
def mismatchRows (expected actual : List String) (here i : Nat) : String :=
  let mark := if i = here then ">" else " "
  mark ++ " " ++ fourColumns (i + 1) ++ "  expected: " ++ lineAt expected i ++ "\n" ++
    mark ++ " " ++ fourColumns (i + 1) ++ "    actual: " ++ lineAt actual i ++ "\n"

def diffReport (expected actual : List String) : String :=
  let shown :=
    match firstMismatch expected actual with
    | none => ""
    | some i =>
      let start := i - 2
      let stop := min (i + 3) (max expected.length actual.length)
      "first mismatch at line " ++ toString (i + 1) ++ " (showing " ++ toString (start + 1) ++
        "..=" ++ toString stop ++ "):\n" ++
        String.join ((List.range' start (stop - start)).map (mismatchRows expected actual i))
  shown ++ "expected " ++ toString expected.length ++ " lines, actual " ++
    toString actual.length ++ " lines\n"

end Stencil.Text
