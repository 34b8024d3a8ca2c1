import MatrixLang.Tensor.Basic

/-!
# Arithmetic on tensors

Entry by entry, the matrix product, transposition and the negative. All entries
are doubles, so that the arithmetic is that of doubles whatever the kind of the
entries; a quotient always has floats.
-/

namespace MatrixLang

/-- What is done to the entries at one position. -/
def Arithmetic.onDoubles : Arithmetic → Float → Float → Float
  | .add, a, b => a + b
  | .sub, a, b => a - b
  | .mul, a, b => a * b
  | .div, a, b => a / b

namespace Tensor

def resultKind : Arithmetic → EntryKind → EntryKind → EntryKind
  | .div, _, _ => .float
  | _, k, l => k.join l

def entrywise (op : Arithmetic) (a b : Tensor) : Except TensorFault Tensor :=
  if a.shape = b.shape then
    .ok ⟨a.shape, resultKind op a.entryKind b.entryKind,
      Array.zipWith op.onDoubles a.data b.data⟩
  else .error (.shapeMismatch a.shape b.shape)

/-- Row `i` of `a`, which has `k` columns, times column `j` of `b`, which has
`n`: the products are added up from the left, starting with zero. -/
def dot (a b : Tensor) (k n i j : Nat) : Float :=
  (List.range k).foldl (fun sum t => sum + a.entry (i * k + t) * b.entry (t * n + j)) 0.0

def product (a b : Tensor) : Except TensorFault Tensor :=
  match a.shape, b.shape with
  | .matrix m k, .matrix k' n =>
      if k = k' then
        .ok ⟨.matrix m n, a.entryKind.join b.entryKind,
          Array.ofFn fun p : Fin (m * n) => dot a b k n (p.val / n) (p.val % n)⟩
      else .error (.productMismatch a.shape b.shape)
  | _, _ => .error (.productOfVectors a.shape b.shape)

/-- Rows become columns. A vector is its own transpose. -/
def transpose (a : Tensor) : Tensor :=
  match a.shape with
  | .vector _ => a
  | .matrix m n =>
      ⟨.matrix n m, a.entryKind,
        Array.ofFn fun p : Fin (n * m) => a.entry (p.val % m * n + p.val / m)⟩

def neg (a : Tensor) : Tensor := { a with data := a.data.map fun x => -x }

end Tensor

end MatrixLang
