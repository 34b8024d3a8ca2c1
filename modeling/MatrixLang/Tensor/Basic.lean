import MatrixLang.Double
import MatrixLang.Operator
import MatrixLang.Shape

/-!
# Tensors

Vectors and matrices of doubles. The entries stand in one row after another, and
a flag tells whether they are meant as integers or as floats: it decides how an
entry is read back and how the tensor is written. There is no broadcasting;
operations that need equal shapes fail on unequal ones.

A tensor is well formed when it has as many entries as its shape says
(`Tensor.WellFormed`). The operations build well-formed tensors from well-formed
ones and never look outside the entries of such a tensor.
-/

namespace MatrixLang

/-- Whether entries are integers or floats. -/
inductive EntryKind where
  | int | float
deriving Repr, DecidableEq

namespace EntryKind

def join : EntryKind → EntryKind → EntryKind
  | .int, .int => .int
  | _, _ => .float

def text : EntryKind → String
  | .int => "int"
  | .float => "float"

end EntryKind

/-- A single number: what a scalar is, and what is read from a tensor. -/
inductive Number where
  | int (n : Int64)
  | float (x : Float)

namespace Number

def toDouble : Number → Float
  | .int n => nearestDouble n
  | .float x => x

def entryKind : Number → EntryKind
  | .int _ => .int
  | .float _ => .float

end Number

/-- The ways in which an operation on tensors fails. -/
inductive TensorFault where
  | shapeMismatch (left right : Shape)
  | productOfVectors (left right : Shape)
  | productMismatch (left right : Shape)
  | outOfBounds (index : Int64) (axis size : Nat)
  | tooManyIndices
  | rowNotVector (shape : Shape)
  | raggedRows (lengths : List Nat)
  | rowLength (got : Shape) (expected : Nat)
  | sequenceIntoElement
  | tooBig (rows cols : Nat)
deriving Repr, DecidableEq

def TensorFault.message : TensorFault → String
  | .shapeMismatch l r =>
      s!"operands could not be combined with shapes {l.text} {r.text}"
  | .productOfVectors l r =>
      s!"matmul requires two matrices, got shapes {l.text} and {r.text}"
  | .productMismatch l r =>
      s!"matmul: inner dimensions of {l.text} and {r.text} do not match"
  | .outOfBounds i axis size =>
      s!"index {i.toInt} is out of bounds for axis {axis} with size {size}"
  | .tooManyIndices =>
      "too many indices for array: array is 1-dimensional, but 2 were indexed"
  | .rowNotVector shape =>
      s!"matrix rows must be vectors, found shape {shape.text}"
  | .raggedRows lengths =>
      "matrix rows have inhomogeneous lengths [" ++ ", ".intercalate (lengths.map toString) ++ "]"
  | .rowLength got expected =>
      s!"cannot assign array of shape {got.text} to a row of length {expected}"
  | .sequenceIntoElement => "setting an array element with a sequence"
  | .tooBig rows cols =>
      s!"array is too big: ({rows}, {cols}) exceeds the maximum possible size"

/-- A vector or matrix of numbers. -/
structure Tensor where
  shape : Shape
  entryKind : EntryKind
  /-- The entries, row by row. -/
  data : Array Float

namespace Tensor

/-- There are as many entries as the shape says. -/
def WellFormed (a : Tensor) : Prop := a.data.size = a.shape.size

def rank (a : Tensor) : Nat := a.shape.rank

def size (a : Tensor) : Nat := a.data.size

/-- The entry at an offset. Offsets that a well-formed tensor does not have
never come up. -/
def entry (a : Tensor) (offset : Nat) : Float := a.data.getD offset 0.0

def numberAt (a : Tensor) (offset : Nat) : Number :=
  match a.entryKind with
  | .int => .int (wholeNumber (a.entry offset))
  | .float => .float (a.entry offset)

/-- What is stored of a double: an integer tensor takes the whole part. -/
def stored (a : Tensor) (x : Float) : Float :=
  match a.entryKind with
  | .int => wholePart x
  | .float => x

/-- Equal shapes, equal kinds, and equal doubles at every offset; so a NaN makes
a tensor differ from itself. -/
def same (a b : Tensor) : Bool :=
  a.shape = b.shape && a.entryKind = b.entryKind && a.data == b.data

/-! ## Building -/

/-- A vector. It holds integers if it holds something and all of it is integers. -/
def ofNumbers (items : List Number) : Tensor where
  shape := .vector items.length
  entryKind :=
    if !items.isEmpty && items.all (·.entryKind = .int) then .int else .float
  data := (items.map Number.toDouble).toArray

def vectorLength (a : Tensor) : Except TensorFault Nat :=
  match a.shape with
  | .vector n => .ok n
  | s => .error (.rowNotVector s)

def joinedKind : List Tensor → EntryKind
  | [] => .float
  | row :: rest => rest.foldl (fun k r => k.join r.entryKind) row.entryKind

/-- A matrix from its rows, which are vectors of one length. No rows make the
matrix without rows and columns. -/
def ofRows (rows : List Tensor) : Except TensorFault Tensor := do
  let lengths ← rows.mapM vectorLength
  let cols := lengths.headD 0
  if lengths.all (· = cols) then
    .ok ⟨.matrix rows.length cols, joinedKind rows, (rows.flatMap (·.data.toList)).toArray⟩
  else .error (.raggedRows lengths)

/-- The most entries that a tensor can have: eight bytes each, in half of a
64-bit address space. -/
def maxSize : Nat := 0xFFFFFFFFFFFFFFF

def checkedSize (rows cols : Nat) : Except TensorFault Nat :=
  if rows * cols ≤ maxSize then .ok (rows * cols) else .error (.tooBig rows cols)

def filled (rows cols : Nat) (x : Float) : Tensor :=
  ⟨.matrix rows cols, .float, Array.replicate (rows * cols) x⟩

def zeros (rows cols : Nat) : Tensor := filled rows cols 0.0

def ones (rows cols : Nat) : Tensor := filled rows cols 1.0

def eye (rows cols : Nat) : Tensor :=
  ⟨.matrix rows cols, .float,
    Array.ofFn fun p : Fin (rows * cols) => if p.val / cols = p.val % cols then 1.0 else 0.0⟩

def construct : Constructor → Nat → Nat → Tensor
  | .zeros => zeros
  | .ones => ones
  | .eye => eye

end Tensor

end MatrixLang
