/-!
# Diagnostic codes

Every kind of mistake that is found before a program runs has a code of the
form `EXXXX`, whose first digit tells the phase that finds it, and a short
description. `Code.ofText?` finds the code that a user names.
-/

namespace MatrixLang

/-- The phases that report mistakes before a run. -/
inductive Phase where
  | scanning | parsing | checking
deriving Repr, DecidableEq

/-- The mistakes that have a code, in the order of the codes. -/
inductive Code where
  | illegalCharacter
  | invalidNumber
  | unterminatedString
  | unexpectedToken
  | unexpectedEnd
  | undefinedVariable
  | invalidOperands
  | incompatibleShapes
  | productMismatch
  | comparesArrays
  | invalidCompound
  | notIndexable
  | notMatrix
  | outOfBounds
  | malformedMatrix
  | nonPositiveSize
  | nonNumericBound
  | strayLoopControl
  | negatedString
  | transposedNonMatrix
  | nonScalarElement
deriving Repr, DecidableEq

namespace Code

def all : List Code :=
  [.illegalCharacter, .invalidNumber, .unterminatedString, .unexpectedToken, .unexpectedEnd,
    .undefinedVariable, .invalidOperands, .incompatibleShapes, .productMismatch, .comparesArrays,
    .invalidCompound, .notIndexable, .notMatrix, .outOfBounds, .malformedMatrix, .nonPositiveSize,
    .nonNumericBound, .strayLoopControl, .negatedString, .transposedNonMatrix, .nonScalarElement]

def text : Code → String
  | .illegalCharacter => "E0001"
  | .invalidNumber => "E0002"
  | .unterminatedString => "E0003"
  | .unexpectedToken => "E1001"
  | .unexpectedEnd => "E1002"
  | .undefinedVariable => "E2001"
  | .invalidOperands => "E2002"
  | .incompatibleShapes => "E2003"
  | .productMismatch => "E2004"
  | .comparesArrays => "E2005"
  | .invalidCompound => "E2006"
  | .notIndexable => "E2007"
  | .notMatrix => "E2008"
  | .outOfBounds => "E2009"
  | .malformedMatrix => "E2010"
  | .nonPositiveSize => "E2011"
  | .nonNumericBound => "E2012"
  | .strayLoopControl => "E2013"
  | .negatedString => "E2014"
  | .transposedNonMatrix => "E2015"
  | .nonScalarElement => "E2016"

def description : Code → String
  | .illegalCharacter => "illegal character"
  | .invalidNumber => "invalid number literal"
  | .unterminatedString => "unterminated string literal"
  | .unexpectedToken => "syntax error"
  | .unexpectedEnd => "unexpected end of input"
  | .undefinedVariable => "undefined variable"
  | .invalidOperands => "invalid operands"
  | .incompatibleShapes => "incompatible shapes"
  | .productMismatch => "matrix multiplication dimension mismatch"
  | .comparesArrays => "relational operator requires scalars"
  | .invalidCompound => "invalid compound assignment"
  | .notIndexable => "variable is not indexable"
  | .notMatrix => "variable is not a matrix"
  | .outOfBounds => "index out of bounds"
  | .malformedMatrix => "malformed matrix literal"
  | .nonPositiveSize => "non-positive matrix dimension"
  | .nonNumericBound => "range bound must be numeric"
  | .strayLoopControl => "loop control outside loop"
  | .negatedString => "invalid unary minus operand"
  | .transposedNonMatrix => "invalid transpose operand"
  | .nonScalarElement => "non-scalar vector element"

def phase : Code → Phase
  | .illegalCharacter | .invalidNumber | .unterminatedString => .scanning
  | .unexpectedToken | .unexpectedEnd => .parsing
  | _ => .checking

/-! ## Finding a code by its text -/

def isBlank (c : Char) : Bool :=
  let n := c.toNat
  (0x9 ≤ n && n ≤ 0xd) || n == 0x20 || n == 0x85 || n == 0xa0 || n == 0x1680 ||
    (0x2000 ≤ n && n ≤ 0x200a) || n == 0x2028 || n == 0x2029 || n == 0x202f ||
    n == 0x205f || n == 0x3000

def trimmed (cs : List Char) : List Char :=
  ((cs.dropWhile isBlank).reverse.dropWhile isBlank).reverse

/-- The code that a text names: white space around it and the case of its
letters do not matter. -/
def ofText? (s : String) : Option Code :=
  let wanted := (trimmed s.toList).map Char.toUpper
  all.find? (·.text.toList = wanted)

theorem ofText?_text (c : Code) : ofText? c.text = some c := by
  cases c <;> decide

end Code

end MatrixLang
