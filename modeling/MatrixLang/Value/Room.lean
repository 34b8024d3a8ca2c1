import MatrixLang.Value.Operate

/-!
# Room for matrices

The entries of a matrix are counted in a machine word and stored at once, and
there is room for `Tensor.maxSize` of them at most. A constructor looks at its
sizes before, and faults if there is no room. A product of matrices does not: it
has the rows of one operand and the columns of the other, and if these are too
many then the program crashes.

The operators themselves know nothing of room and give the matrix that the
program would need. `Value.operate` is what becomes of them in a program.
-/

namespace MatrixLang

/-- What happens when a matrix is stored whose sizes nobody looked at. -/
def Tensor.crash? (rows cols : Nat) : Option Crash :=
  if UInt64.size ≤ rows * cols then some .overflow
  else if maxSize < rows * cols then some .noRoom
  else none

/-- The shapes of the operands are compared before the product is stored. -/
def Tensor.productCrash? (a b : Tensor) : Option Crash :=
  match a.shape, b.shape with
  | .matrix m k, .matrix k' n => if k = k' then crash? m n else none
  | _, _ => none

/-- No other operator gives an array larger than its operands. -/
def Value.binaryCrash? (op : BinaryOp) (left right : Value) : Option Crash :=
  match op, left, right with
  | .mul, .tensor a, .tensor b => a.productCrash? b
  | _, _, _ => none

def Value.operate (op : BinaryOp) (left right : Value) :
    Except (Halt Fault) Value :=
  match Value.binaryCrash? op left right with
  | some crash => .error (.crash crash)
  | none => (Value.binary op left right).mapError .fault

end MatrixLang
