import MatrixLang.Scopes
import MatrixLang.Tensor.Access
import MatrixLang.Tree.Basic
import MatrixLang.Value.Operate

/-!
# The memory of a running program

The variables live in nested scopes, of which a program by itself uses only the
outermost one. This module says what it means to read a place and to assign to
it. An assignment that faults gives no new memory, so the old one stands as it
was.
-/

namespace MatrixLang

/-- The variables and their values. -/
abbrev Memory := Scopes Value

def Memory.initial : Memory := .empty "global"

namespace Memory

/-- The value of a variable; one that was never assigned is `null`. -/
def value (m : Memory) (name : String) : Value := (m.get? name).getD .null

def indexed (m : Memory) (name : String) : Except Fault Tensor :=
  match m.value name with
  | .tensor a => .ok a
  | v => .error (.notIndexable name v.kind?)

def read (m : Memory) : Place → Except Fault Value
  | .var name => .ok (m.value name)
  | .item name i => do
      let a ← m.indexed name
      match ← TensorFault.lift (a.get i) with
      | .entry n => .ok (.ofNumber n)
      | .row r => .ok (.tensor r)
  | .cell name i j => do
      let a ← m.indexed name
      let n ← TensorFault.lift (a.get₂ i j)
      .ok (.ofNumber n)

/-! ## Assigning -/

/-- The value that an assignment gives to a variable: a compound one combines it
with the value that is there. It multiplies no matrices, so it never crashes. -/
def combined (m : Memory) (op : AssignOp) (name : String) (v : Value) :
    Except Fault Value :=
  match op.base? with
  | none => .ok v
  | some base =>
      match m.get? name with
      | none => .error (.undefinedVariable name)
      | some current => Value.binary (Value.compoundOp base current v) current v

def element (v : Value) : Except Fault Number :=
  match v.number? with
  | some n => .ok n
  | none => .error (.invalidElement v.kind?)

/-- Writes one item: a row if the value is a tensor, a number otherwise. -/
def storeItem (i : Int64) (v : Value) (a : Tensor) : Except Fault Tensor :=
  match v with
  | .tensor row => TensorFault.lift (a.setRow i row)
  | v => do
      let n ← element v
      TensorFault.lift (a.set i n)

def storeCell (i j : Int64) (v : Value) (a : Tensor) : Except Fault Tensor := do
  let n ← element v
  TensorFault.lift (a.set₂ i j n)

def update (m : Memory) (name : String)
    (change : Tensor → Except Fault Tensor) :
    Except Fault Memory :=
  match m.get? name with
  | some (.tensor a) => do
      let b ← change a
      .ok (m.assign name (.tensor b))
  | some v => .error (.notIndexable name v.kind?)
  | none => .error (.undefinedVariable name)

/-- Assigns a value to a place. The operator matters for variables only. -/
def write (m : Memory) (op : AssignOp) (p : Place) (v : Value) :
    Except Fault Memory :=
  match p with
  | .var name => do
      let v ← m.combined op name v
      .ok (m.assign name v)
  | .item name i => m.update name (storeItem i v)
  | .cell name i j => m.update name (storeCell i j v)

end Memory

end MatrixLang
