import MatrixLang.Value.Basic

/-!
# Faults and crashes

What goes wrong while a program runs. An operation only knows what is wrong; the
line is added where the operation was asked for. A crash is no fault: it happens
on no line, and the program is gone with it.
-/

namespace MatrixLang

/-- The integer operations that can leave the 64-bit range. -/
inductive Overflow where
  | addition | subtraction | multiplication | division | negation
deriving Repr, DecidableEq

def Overflow.text : Overflow → String
  | .addition => "addition"
  | .subtraction => "subtraction"
  | .multiplication => "multiplication"
  | .division => "division"
  | .negation => "negation"

/-- A fault, with what it is about. Kinds are those of the values met, `none`
for `null`. -/
inductive Fault where
  | divisionByZero
  | integerOverflow (operation : Overflow)
  | invalidOperands (op : String) (left right : Option Kind)
  | invalidOperand (op : String) (operand : Option Kind)
  | undefinedVariable (name : String)
  | notIndexable (name : String) (kind : Option Kind)
  | invalidElement (kind : Option Kind)
  | invalidCondition (kind : Option Kind)
  | invalidBound (kind : Option Kind)
  | nonNumericElement (kind : Option Kind)
  | nonVectorRow (kind : Option Kind)
  | negativeDimensions (dims : Dims)
  | tensor (fault : TensorFault)
deriving Repr, DecidableEq

def Fault.message : Fault → String
  | .divisionByZero => "division by zero"
  | .integerOverflow operation => s!"integer overflow in {operation.text}"
  | .invalidOperands op l r =>
      s!"unsupported operand types for {op}: {kindText l} and {kindText r}"
  | .invalidOperand op k => s!"bad operand type for {op}: {kindText k}"
  | .undefinedVariable name => s!"variable '{name}' is not defined"
  | .notIndexable name k => s!"'{name}' is {kindText k} and cannot be indexed"
  | .invalidElement k => s!"cannot store {kindText k} in an array element"
  | .invalidCondition k => s!"condition must be a number, found {kindText k}"
  | .invalidBound k => s!"range bound must be a number, found {kindText k}"
  | .nonNumericElement k =>
      s!"vector elements must be numbers, found {kindText k}"
  | .nonVectorRow k => s!"matrix rows must be vectors, found {kindText k}"
  | .negativeDimensions dims =>
      s!"negative dimensions are not allowed: {dims.text}"
  | .tensor fault => fault.message

/-- A fault and the line it happened on. -/
structure RunError where
  fault : Fault
  line : Nat
deriving Repr, DecidableEq

def RunError.text (e : RunError) : String :=
  s!"Line {e.line}: {e.fault.message}"

def TensorFault.lift {α : Type} : Except TensorFault α → Except Fault α
  | .ok a => .ok a
  | .error fault => .error (.tensor fault)

/-! ## Crashes -/

/-- What ends a program that needs a matrix for which there is no room. -/
inductive Crash where
  /-- The number of entries is no machine word. -/
  | overflow
  | noRoom
deriving Repr, DecidableEq

def Crash.message : Crash → String
  | .overflow => "attempt to multiply with overflow"
  | .noRoom => "capacity overflow"

/-- Why there is no result: a fault of some kind, or a crash. -/
inductive Halt (F : Type) where
  | fault (fault : F)
  | crash (crash : Crash)
deriving Repr, DecidableEq

def Halt.map {F G : Type} (g : F → G) : Halt F → Halt G
  | .fault f => .fault (g f)
  | .crash c => .crash c

/-- The result of an operation that a line asked for. -/
def Halt.onLine {α : Type} (line : Nat) (x : Except (Halt Fault) α) :
    Except (Halt RunError) α :=
  x.mapError (.map fun fault => ⟨fault, line⟩)

/-- The result of an operation that a line asked for and that does not crash. -/
def Fault.onLine {α : Type} (line : Nat) : Except Fault α → Except (Halt RunError) α
  | .ok a => .ok a
  | .error fault => .error (.fault ⟨fault, line⟩)

end MatrixLang
