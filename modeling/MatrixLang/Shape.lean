/-!
# Shapes

The dimensions of a vector or matrix. The checker infers shapes and tensors
carry them, so that what is known before a run and what is there during it are
compared as values of one type.
-/

namespace MatrixLang

/-- The dimensions of an array of numbers. -/
inductive Shape where
  | vector (length : Nat)
  | matrix (rows cols : Nat)
deriving Repr, DecidableEq

namespace Shape

def size : Shape → Nat
  | .vector n => n
  | .matrix rows cols => rows * cols

def rank : Shape → Nat
  | .vector _ => 1
  | .matrix _ _ => 2

/-- Rows and columns change places; a vector has nothing to change. -/
def transposed : Shape → Shape
  | .vector n => .vector n
  | .matrix rows cols => .matrix cols rows

def text : Shape → String
  | .vector n => s!"({n},)"
  | .matrix rows cols => s!"({rows}, {cols})"

@[simp] theorem size_vector (n : Nat) : (Shape.vector n).size = n := rfl

@[simp] theorem size_matrix (rows cols : Nat) :
    (Shape.matrix rows cols).size = rows * cols := rfl

@[simp] theorem transposed_transposed (s : Shape) :
    s.transposed.transposed = s := by
  cases s <;> rfl

end Shape

end MatrixLang
