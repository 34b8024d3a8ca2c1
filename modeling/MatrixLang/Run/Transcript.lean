/-!
# What a program prints

The lines printed so far. They are kept with the last one in front, so that a
print is one step whatever was printed before; `lines` and `text` show them in
the order in which they were printed.
-/

namespace MatrixLang

/-- The printed lines, the last one first. -/
structure Transcript where
  latest : List String
deriving Repr, DecidableEq

namespace Transcript

def empty : Transcript := ⟨[]⟩

def println (t : Transcript) (line : String) : Transcript := ⟨line :: t.latest⟩

def lines (t : Transcript) : List String := t.latest.reverse

def text (t : Transcript) : String := String.join (t.lines.map (· ++ "\n"))

@[simp] theorem lines_empty : empty.lines = [] := rfl

@[simp] theorem lines_println (t : Transcript) (line : String) :
    (t.println line).lines = t.lines ++ [line] := by
  simp [lines, println]

end Transcript

end MatrixLang
