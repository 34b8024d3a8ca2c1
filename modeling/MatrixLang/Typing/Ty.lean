import MatrixLang.Shape

/-!
# Static types

What the checker knows about a value before the program runs: its kind and, for
arrays, its shape if it could be inferred. An expression whose type makes no
sense after a mistake has no type at all, which the checker writes as `none`;
nothing is ever reported against a missing type, so one mistake gives one
report.
-/

namespace MatrixLang

/-- The coarse category of a value. -/
inductive Kind where
  | int | float | string | vector | matrix
deriving Repr, DecidableEq

namespace Kind

def text : Kind → String
  | .int => "int"
  | .float => "float"
  | .string => "string"
  | .vector => "vector"
  | .matrix => "matrix"

def all : List Kind := [.int, .float, .string, .vector, .matrix]

def ofText? (s : String) : Option Kind := all.find? (·.text = s)

def isNumeric : Kind → Bool
  | .int | .float => true
  | _ => false

def isArray : Kind → Bool
  | .vector | .matrix => true
  | _ => false

end Kind

/-- The static type of an expression. -/
structure Ty where
  kind : Kind
  /-- Known dimensions; scalars and strings have none. -/
  shape : Option Shape
deriving Repr, DecidableEq

namespace Ty

/-- A type without a shape: a scalar, a string, or an array whose dimensions
are unknown. -/
def ofKind (kind : Kind) : Ty := ⟨kind, none⟩

def int : Ty := ofKind .int

def float : Ty := ofKind .float

def string : Ty := ofKind .string

def vector (length : Nat) : Ty := ⟨.vector, some (.vector length)⟩

def matrix (rows cols : Nat) : Ty := ⟨.matrix, some (.matrix rows cols)⟩

def text (t : Ty) : String :=
  match t.shape with
  | some s => s!"{t.kind.text} {s.text}"
  | none => t.kind.text

end Ty

def tyText : Option Ty → String
  | some t => t.text
  | none => "unknown"

end MatrixLang
