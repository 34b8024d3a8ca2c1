import MatrixLang.Run.Memory
import MatrixLang.Value.Room

/-!
# Evaluating expressions

An expression reads the memory and gives one value, or faults at the line of the
smallest expression that is to blame, or crashes at a product for which there is no
room. Operands and items are evaluated from left to right, and what is first to halt
counts.
-/

namespace MatrixLang

/-- The matrix of a constructor: its sizes may be zero, but not negative, and
there must be room for it. -/
def constructValue (f : Constructor) (dims : Dims) : Except Fault Tensor := do
  let (rows, cols) := dims.rowsCols
  if rows.toInt < 0 ∨ cols.toInt < 0 then .error (.negativeDimensions dims)
  else
    let _ ← TensorFault.lift (Tensor.checkedSize rows.toInt.toNat cols.toInt.toNat)
    .ok (Tensor.construct f rows.toInt.toNat cols.toInt.toNat)

def itemNumber (v : Value) : Except Fault Number :=
  match v.number? with
  | some n => .ok n
  | none => .error (.nonNumericElement v.kind?)

def rowTensor : Value → Except Fault Tensor
  | .tensor a => .ok a
  | v => .error (.nonVectorRow v.kind?)

mutual

def evaluate (m : Memory) : Expr → Except (Halt RunError) Value
  | .int _ n => .ok (.int n)
  | .float _ x => .ok (.float x)
  | .str _ s => .ok (.str s)
  | .read line p => Fault.onLine line (m.read p)
  | .binary line op l r => do
      let a ← evaluate m l
      let b ← evaluate m r
      Halt.onLine line (Value.operate op a b)
  | .compare line op l r => do
      let a ← evaluate m l
      let b ← evaluate m r
      Fault.onLine line (Value.compare op a b)
  | .vector _ items => do
      let numbers ← evaluateItems m items
      .ok (.tensor (Tensor.ofNumbers numbers))
  | .matrix line rows => do
      let tensors ← evaluateRows m rows
      let a ← Fault.onLine line (TensorFault.lift (Tensor.ofRows tensors))
      .ok (.tensor a)
  | .construct line f dims => do
      let a ← Fault.onLine line (constructValue f dims)
      .ok (.tensor a)
  | .neg line e => do
      let v ← evaluate m e
      Fault.onLine line v.neg
  | .transpose line e => do
      let v ← evaluate m e
      Fault.onLine line v.transpose

def evaluateItems (m : Memory) : List Expr → Except (Halt RunError) (List Number)
  | [] => .ok []
  | e :: rest => do
      let v ← evaluate m e
      let n ← Fault.onLine e.line (itemNumber v)
      let ns ← evaluateItems m rest
      .ok (n :: ns)

def evaluateRows (m : Memory) : List Expr → Except (Halt RunError) (List Tensor)
  | [] => .ok []
  | e :: rest => do
      let v ← evaluate m e
      let a ← Fault.onLine e.line (rowTensor v)
      let as ← evaluateRows m rest
      .ok (a :: as)

end

/-- To evaluate items is to traverse them, and it is the same with rows. -/
theorem evaluateItems_eq_mapM (m : Memory) (es : List Expr) :
    evaluateItems m es
      = es.mapM fun e => evaluate m e >>= fun v => Fault.onLine e.line (itemNumber v) := by
  induction es with
  | nil => rfl
  | cons e rest ih =>
      rw [evaluateItems, ih, List.mapM_cons]
      cases evaluate m e <;> rfl

theorem evaluateRows_eq_mapM (m : Memory) (es : List Expr) :
    evaluateRows m es
      = es.mapM fun e => evaluate m e >>= fun v => Fault.onLine e.line (rowTensor v) := by
  induction es with
  | nil => rfl
  | cons e rest ih =>
      rw [evaluateRows, ih, List.mapM_cons]
      cases evaluate m e <;> rfl

def holds (m : Memory) (e : Expr) : Except (Halt RunError) Bool := do
  let v ← evaluate m e
  Fault.onLine e.line v.truth

def evaluateRange (m : Memory) (r : Range) :
    Except (Halt RunError) (Int64 × Int64) := do
  let start ← evaluate m r.start
  let stop ← evaluate m r.stop
  Fault.onLine r.line (Value.bounds start stop)

def printed (m : Memory) (values : List Expr) : Except (Halt RunError) String := do
  let vs ← values.mapM (evaluate m)
  .ok (" ".intercalate (vs.map Value.text))

end MatrixLang
