import MatrixLang.Run.Execute
import MatrixLang.Tree.Parse
import MatrixLang.Typing.Check

/-!
# From a text to the report of its run

A text is scanned, parsed and checked before it runs. Mistakes of the scanner
and of the parser are reported together; the checker only looks at a program
that had neither. A program with any report does not run.
-/

namespace MatrixLang

/-- What is known of a text before it runs. The program is what was read before
the first syntax error. -/
structure Reviewed where
  program : Program
  diagnostics : List Diagnostic

def review (source : String) : Reviewed :=
  let scanned := scan source
  let parsed := parse scanned.tokens
  let mistakes := scanned.errors ++ parsed.errors
  { program := parsed.program
    diagnostics := if mistakes.isEmpty then check parsed.program else mistakes }

/-- The report of a run. -/
structure RunReport where
  diagnostics : List Diagnostic
  output : Transcript
  ending : Ending

namespace RunReport

def error? (r : RunReport) : Option RunError :=
  match r.ending with
  | .halted (.fault e) => some e
  | _ => none

def crash? (r : RunReport) : Option Crash :=
  match r.ending with
  | .halted (.crash c) => some c
  | _ => none

def value? (r : RunReport) : Option Value :=
  match r.ending with
  | .finished v => v
  | _ => none

/-- Nothing was reported and the program ran to an end of its own. -/
def succeeded (r : RunReport) : Bool :=
  r.diagnostics.isEmpty &&
    match r.ending with
    | .finished _ => true
    | _ => false

end RunReport

/-- Rounds of a loop that no run gets through in practice. -/
def ampleBudget : Nat := 0x4000000000000000

/-- Runs a text, if there is nothing to report of it. -/
def runSource (budget : Nat) (source : String) : RunReport :=
  let reviewed := review source
  if reviewed.diagnostics.isEmpty then
    let outcome := runFrom budget .initial reviewed.program
    ⟨[], outcome.state.output, outcome.ending⟩
  else ⟨reviewed.diagnostics, .empty, .finished none⟩

end MatrixLang
