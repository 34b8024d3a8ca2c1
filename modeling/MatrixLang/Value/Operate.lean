import MatrixLang.Tensor.Algebra
import MatrixLang.Value.Fault

/-!
# Operators on values

Two integers give an integer, or a fault when the result does not fit in 64
bits; a float on either side makes the operation one on doubles; two tensors are
combined entry by entry, except that `*` on two matrices is their product. All
other pairs of values are a fault. Dividing a scalar by zero is a fault, dividing
an entry of a tensor is not.
-/

namespace MatrixLang

/-! ## Arithmetic -/

def fitting (n : Int) (operation : Overflow) : Except Fault Value :=
  if Int64.minValue.toInt ≤ n ∧ n ≤ Int64.maxValue.toInt then .ok (.int (Int64.ofInt n))
  else .error (.integerOverflow operation)

namespace BinaryOp

/-- A quotient of integers is cut off towards zero. -/
def onInts (op : BinaryOp) (a b : Int64) : Except Fault Value :=
  match op with
  | .add | .dotAdd => fitting (a.toInt + b.toInt) .addition
  | .sub | .dotSub => fitting (a.toInt - b.toInt) .subtraction
  | .mul | .dotMul => fitting (a.toInt * b.toInt) .multiplication
  | .div | .dotDiv =>
      if b.toInt = 0 then .error .divisionByZero
      else fitting (a.toInt.tdiv b.toInt) .division

/-- Scalars have a table of their own, in which a division may fault. -/
def onFloats (op : BinaryOp) (a b : Float) : Except Fault Value :=
  match op with
  | .add | .dotAdd => .ok (.float (a + b))
  | .sub | .dotSub => .ok (.float (a - b))
  | .mul | .dotMul => .ok (.float (a * b))
  | .div | .dotDiv =>
      if b == 0.0 then .error .divisionByZero else .ok (.float (a / b))

def onTensors (op : BinaryOp) (a b : Tensor) :
    Except TensorFault Tensor :=
  if op = .mul ∧ a.rank = 2 ∧ b.rank = 2 then a.product b
  else Tensor.entrywise op.arithmetic a b

end BinaryOp

namespace Value

def binary (op : BinaryOp) (left right : Value) : Except Fault Value :=
  match left, right with
  | .int a, .int b => op.onInts a b
  | .tensor a, .tensor b => do
      let c ← TensorFault.lift (op.onTensors a b)
      .ok (.tensor c)
  | l, r =>
      match l.number?, r.number? with
      | some a, some b => op.onFloats a.toDouble b.toDouble
      | _, _ => .error (.invalidOperands op.text l.kind? r.kind?)

/-- The operator that a compound assignment applies: it never is the matrix
product, so that the target keeps its shape. -/
def compoundOp (op : BinaryOp) (current value : Value) : BinaryOp :=
  match op, current, value with
  | .mul, .tensor _, .tensor _ => .dotMul
  | op, _, _ => op

def neg : Value → Except Fault Value
  | .int n => fitting (-n.toInt) .negation
  | .float x => .ok (.float (-x))
  | .tensor a => .ok (.tensor a.neg)
  | v => .error (.invalidOperand "-" v.kind?)

def transpose : Value → Except Fault Value
  | .tensor a => .ok (.tensor a.transpose)
  | v => .error (.invalidOperand "'" v.kind?)

end Value

/-! ## Comparison -/

def Relation.onInts (op : Relation) (a b : Int64) : Bool :=
  match op with
  | .eq => a.toInt = b.toInt
  | .ne => a.toInt ≠ b.toInt
  | .lt => a.toInt < b.toInt
  | .gt => b.toInt < a.toInt
  | .le => a.toInt ≤ b.toInt
  | .ge => b.toInt ≤ a.toInt

/-- Every comparison with a NaN fails, but for the one that asks for a
difference. -/
def Relation.onFloats (op : Relation) (a b : Float) : Bool :=
  match op with
  | .eq => a == b
  | .ne => a != b
  | .lt => a < b
  | .gt => b < a
  | .le => a <= b
  | .ge => b <= a

namespace Value

def ofBool (b : Bool) : Value := .int (if b then 1 else 0)

def compare (op : Relation) (left right : Value) : Except Fault Value :=
  match left, right with
  | .int a, .int b => .ok (ofBool (op.onInts a b))
  | l, r =>
      match l.number?, r.number? with
      | some a, some b => .ok (ofBool (op.onFloats a.toDouble b.toDouble))
      | _, _ => .error (.invalidOperands op.text l.kind? r.kind?)

/-! ## Conditions and bounds -/

/-- Whether a value counts as true: numbers other than zero and strings that are
not empty do. -/
def truth : Value → Except Fault Bool
  | .int n => .ok (n.toInt ≠ 0)
  | .float x => .ok (x != 0.0)
  | .str s => .ok (!s.isEmpty)
  | v => .error (.invalidCondition v.kind?)

/-- A bound of a range; a float is cut off. -/
def bound : Value → Except Fault Int64
  | .int n => .ok n
  | .float x => .ok (wholeNumber x)
  | v => .error (.invalidBound v.kind?)

/-- The bounds of a range; the start is looked at first. -/
def bounds (start stop : Value) : Except Fault (Int64 × Int64) := do
  let a ← start.bound
  let b ← stop.bound
  .ok (a, b)

end Value

def rangeSize (a b : Int64) : Nat := (b.toInt - a.toInt + 1).toNat

/-- The first integers of a closed range, at most `count` of them. -/
def rangeFront (count : Nat) (a b : Int64) : List Int64 :=
  (List.range (min count (rangeSize a b))).map fun k : Nat => Int64.ofInt (a.toInt + k)

def rangeValues (a b : Int64) : List Int64 := rangeFront (rangeSize a b) a b

end MatrixLang
