import MatrixLang.Tensor.Basic

/-!
# Reading and writing entries

An index counts from zero, and a negative one from the end. One index names an
entry of a vector or a row of a matrix, two name an entry of a matrix. Writing
keeps shape and kind: an integer tensor stores the whole part of a number.

Indices are machine integers, and so is the size that is added to a negative one. If
an axis is longer than any of them, as it may be in a matrix without entries, then the
greatest of them is added.

A tensor is written by making the new one; when an operation fails there is
none, so the old one stands.
-/

namespace MatrixLang.Tensor

/-- The greatest index. -/
def maxIndex : Nat := 0x7FFFFFFFFFFFFFFF

/-- How far back the indices from the end count. -/
def reach (size : Nat) : Nat := min size maxIndex

/-- The position that an index names on an axis. -/
def resolve (i : Int64) (axis size : Nat) : Except TensorFault Nat :=
  let k := if i.toInt < 0 then i.toInt + reach size else i.toInt
  if 0 ≤ k ∧ k < size then .ok k.toNat else .error (.outOfBounds i axis size)

/-- What one index names. -/
inductive Item where
  | entry (n : Number)
  | row (a : Tensor)

def rowAt (a : Tensor) (cols i : Nat) : Tensor :=
  ⟨.vector cols, a.entryKind, a.data.extract (i * cols) ((i + 1) * cols)⟩

/-- `a[i]`. -/
def get (a : Tensor) (i : Int64) : Except TensorFault Item :=
  match a.shape with
  | .vector n => do
      let k ← resolve i 0 n
      .ok (.entry (a.numberAt k))
  | .matrix rows cols => do
      let k ← resolve i 0 rows
      .ok (.row (a.rowAt cols k))

/-- The offset of `a[i, j]`. The row is looked at first. -/
def offset (a : Tensor) (i j : Int64) : Except TensorFault Nat :=
  match a.shape with
  | .vector _ => .error .tooManyIndices
  | .matrix rows cols => do
      let k ← resolve i 0 rows
      let l ← resolve j 1 cols
      .ok (k * cols + l)

def get₂ (a : Tensor) (i j : Int64) : Except TensorFault Number := do
  let k ← a.offset i j
  .ok (a.numberAt k)

/-- Replaces the entries from `start` up to `stop`; the new ones may depend on
their offset. -/
def overwrite (a : Tensor) (start stop : Nat) (new : Nat → Float) : Tensor :=
  { a with data := a.data.mapIdx fun p x => if start ≤ p ∧ p < stop then new p else x }

/-- `a[i] = x`: sets an entry of a vector, or all of a row of a matrix. -/
def set (a : Tensor) (i : Int64) (x : Number) : Except TensorFault Tensor :=
  let y := a.stored x.toDouble
  match a.shape with
  | .vector n => do
      let k ← resolve i 0 n
      .ok (a.overwrite k (k + 1) fun _ => y)
  | .matrix rows cols => do
      let k ← resolve i 0 rows
      .ok (a.overwrite (k * cols) ((k + 1) * cols) fun _ => y)

/-- `a[i] = v`: replaces a row of a matrix by a vector of its length. -/
def setRow (a : Tensor) (i : Int64) (row : Tensor) :
    Except TensorFault Tensor :=
  match a.shape with
  | .vector _ => .error .sequenceIntoElement
  | .matrix rows cols =>
      if row.shape = .vector cols then do
        let k ← resolve i 0 rows
        .ok (a.overwrite (k * cols) ((k + 1) * cols) fun p => a.stored (row.entry (p - k * cols)))
      else .error (.rowLength row.shape cols)

def set₂ (a : Tensor) (i j : Int64) (x : Number) :
    Except TensorFault Tensor := do
  let k ← a.offset i j
  .ok (a.overwrite k (k + 1) fun _ => a.stored x.toDouble)

end MatrixLang.Tensor
