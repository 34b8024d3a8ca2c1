import MatrixLang.Diagnostic.Code

/-!
# Diagnostics

A diagnostic is a mistake found before the program runs: its code, the line it
is on, a message and possibly notes. Diagnostics are collected and returned; a
phase that found some still finishes its walk.
-/

namespace MatrixLang

/-- A mistake and where it is. Lines count from one. -/
structure Diagnostic where
  code : Code
  line : Nat
  message : String
  notes : List String
deriving Repr, DecidableEq

namespace Diagnostic

def text (d : Diagnostic) : String := s!"Line {d.line}: {d.message}"

/-- The long form adds the code and one line per note. -/
def verbose (d : Diagnostic) : String :=
  s!"{d.text} [{d.code.text}]" ++ String.join (d.notes.map ("\n  = note: " ++ ·))

def shown (inFull : Bool) (d : Diagnostic) : String :=
  if inFull then d.verbose else d.text

end Diagnostic

end MatrixLang
