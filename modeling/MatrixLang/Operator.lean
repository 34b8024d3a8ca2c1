/-!
# Operators

The arithmetic, relational and assignment operators of the language and the
matrix constructors, each with the text it has in a program. Messages and
outlines quote the same texts.
-/

namespace MatrixLang

/-- Arithmetic. The dotted operators always work position by position; the
plain ones differ from them only where two matrices are multiplied. -/
inductive BinaryOp where
  | add | sub | mul | div
  | dotAdd | dotSub | dotMul | dotDiv
deriving Repr, DecidableEq

namespace BinaryOp

def all : List BinaryOp :=
  [.add, .sub, .mul, .div, .dotAdd, .dotSub, .dotMul, .dotDiv]

def text : BinaryOp → String
  | .add => "+"
  | .sub => "-"
  | .mul => "*"
  | .div => "/"
  | .dotAdd => ".+"
  | .dotSub => ".-"
  | .dotMul => ".*"
  | .dotDiv => "./"

def isDotted : BinaryOp → Bool
  | .dotAdd | .dotSub | .dotMul | .dotDiv => true
  | _ => false

def ofText? (s : String) : Option BinaryOp := all.find? (·.text = s)

/-- The text of an operator names it. -/
@[simp] theorem ofText?_text (op : BinaryOp) : ofText? op.text = some op := by
  cases op <;> decide

end BinaryOp

/-- What an arithmetic operator does to the entries of two tensors; an operator and
its dotted form share it. -/
inductive Arithmetic where
  | add | sub | mul | div
deriving Repr, DecidableEq

def BinaryOp.arithmetic : BinaryOp → Arithmetic
  | .add | .dotAdd => .add
  | .sub | .dotSub => .sub
  | .mul | .dotMul => .mul
  | .div | .dotDiv => .div

/-- Comparison of scalars. -/
inductive Relation where
  | eq | ne | lt | gt | le | ge
deriving Repr, DecidableEq

namespace Relation

def all : List Relation := [.eq, .ne, .lt, .gt, .le, .ge]

def text : Relation → String
  | .eq => "=="
  | .ne => "!="
  | .lt => "<"
  | .gt => ">"
  | .le => "<="
  | .ge => ">="

def ofText? (s : String) : Option Relation := all.find? (·.text = s)

@[simp] theorem ofText?_text (op : Relation) : ofText? op.text = some op := by
  cases op <;> decide

end Relation

/-- Assignment. Only `set` gives a variable its first value. -/
inductive AssignOp where
  | set | add | sub | mul | div
deriving Repr, DecidableEq

namespace AssignOp

def all : List AssignOp := [.set, .add, .sub, .mul, .div]

def text : AssignOp → String
  | .set => "="
  | .add => "+="
  | .sub => "-="
  | .mul => "*="
  | .div => "/="

def ofText? (s : String) : Option AssignOp := all.find? (·.text = s)

/-- The arithmetic that a compound assignment applies to the old value. -/
def base? : AssignOp → Option BinaryOp
  | .set => none
  | .add => some .add
  | .sub => some .sub
  | .mul => some .mul
  | .div => some .div

@[simp] theorem ofText?_text (op : AssignOp) : ofText? op.text = some op := by
  cases op <;> decide

end AssignOp

/-- The matrix constructors. -/
inductive Constructor where
  | zeros | ones | eye
deriving Repr, DecidableEq

namespace Constructor

def all : List Constructor := [.zeros, .ones, .eye]

def text : Constructor → String
  | .zeros => "zeros"
  | .ones => "ones"
  | .eye => "eye"

def ofText? (s : String) : Option Constructor := all.find? (·.text = s)

@[simp] theorem ofText?_text (f : Constructor) : ofText? f.text = some f := by
  cases f <;> decide

end Constructor

/-- The sizes written in a matrix constructor, as they stand in the program:
they may be zero or negative. -/
inductive Dims where
  | square (n : Int64)
  | rect (rows cols : Int64)
deriving Repr, DecidableEq

namespace Dims

/-- Rows and columns; a single size stands for both. -/
def rowsCols : Dims → Int64 × Int64
  | .square n => (n, n)
  | .rect rows cols => (rows, cols)

def text : Dims → String
  | .square n => toString n.toInt
  | .rect rows cols => s!"({rows.toInt}, {cols.toInt})"

end Dims

end MatrixLang
