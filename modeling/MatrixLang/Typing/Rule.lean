import MatrixLang.Diagnostic.Problem

/-!
# The table of operators

Which kinds an arithmetic operator takes, the kind it gives, and what it demands
of the shapes:

| operands         | `+ - .+ .- .* ./`   | `*`            | `/`     |
|------------------|---------------------|----------------|---------|
| numbers          | number              | number         | number  |
| two vectors      | vector, same shape  | none           | none    |
| two matrices     | matrix, same shape  | matrix product | none    |

Two integers give an integer and any other two numbers a float. Everything that
is not in the table is a mistake. Shapes are compared only where both are known.
-/

namespace MatrixLang

/-- What an entry of the table demands of the shapes of its operands. -/
inductive ShapeRule where
  | any
  /-- Equal shapes; the result has it too. -/
  | same
  /-- As many columns on the left as rows on the right. -/
  | product
deriving Repr, DecidableEq

def ShapeRule.text : ShapeRule → String
  | .any => "none"
  | .same => "same_shape"
  | .product => "matmul"

def operatorRule (op : BinaryOp) : Kind → Kind → Option (Kind × ShapeRule)
  | .int, .int => some (.int, .any)
  | .int, .float | .float, .int | .float, .float => some (.float, .any)
  | .vector, .vector =>
      match op with
      | .mul | .div => none
      | _ => some (.vector, .same)
  | .matrix, .matrix =>
      match op with
      | .mul => some (.matrix, .product)
      | .div => none
      | _ => some (.matrix, .same)
  | _, _ => none

/-- The type of a result of some kind, once the shapes are held against the
rule. Messages quote the operator as `symbol`. -/
def applyRule (symbol : String) (kind : Kind) :
    ShapeRule → Option Shape → Option Shape → Except Problem Ty
  | .any, _, _ => .ok (.ofKind kind)
  | .same, some l, some r =>
      if l = r then .ok ⟨kind, some l⟩ else .error (.incompatibleShapes symbol l r)
  | .same, l, r => .ok ⟨kind, l.or r⟩
  | .product, some (.matrix m k), some (.matrix k' n) =>
      if k = k' then .ok (.matrix m n) else .error (.productMismatch (.matrix m k) (.matrix k' n))
  | .product, _, _ => .ok (.ofKind kind)

def Ty.binary (op : BinaryOp) (left right : Ty) : Except Problem Ty :=
  match operatorRule op left.kind right.kind with
  | none => .error (.invalidOperands op left.kind right.kind)
  | some (kind, rule) => applyRule op.text kind rule left.shape right.shape

/-- Under a compound assignment the target keeps its shape, so that `*=` on two
matrices is no matrix product. -/
def ShapeRule.keepingTarget : ShapeRule → ShapeRule
  | .product => .same
  | rule => rule

def Ty.compound (op : AssignOp) (target value : Ty) : Except Problem Ty :=
  match op.base? with
  | none => .ok value
  | some base =>
      match operatorRule base target.kind value.kind with
      | none => .error (.invalidCompound op target.kind value.kind)
      | some (kind, rule) =>
          applyRule op.text kind rule.keepingTarget target.shape value.shape

end MatrixLang
