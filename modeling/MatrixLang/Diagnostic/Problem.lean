import MatrixLang.Operator
import MatrixLang.Typing.Ty
import MatrixLang.Diagnostic.Basic

/-!
# The mistakes that are reported

`Problem` lists the mistakes with what each of them is about; the code, the
wording and the notes follow from it. A phase reports a problem at a line,
`p.onLine line`, and never words a message itself.
-/

namespace MatrixLang

/-- The two statements that are meaningless outside a loop. -/
inductive LoopControl where
  | break_ | continue_
deriving Repr, DecidableEq

def LoopControl.text : LoopControl → String
  | .break_ => "Break"
  | .continue_ => "Continue"

/-- Which end of a range. -/
inductive RangeEnd where
  | start | stop
deriving Repr, DecidableEq

def RangeEnd.text : RangeEnd → String
  | .start => "start"
  | .stop => "end"

/-- The place of an index that lies outside a known shape. -/
inductive BoundsProblem where
  | element (index : Int64) (size : Nat)
  | row (index : Int64) (rows : Nat)
  | column (index : Int64) (cols : Nat)
deriving Repr, DecidableEq

def BoundsProblem.text : BoundsProblem → String
  | .element i n => s!"Index {i.toInt} out of bounds for vector of size {n}"
  | .row i n => s!"Row index {i.toInt} out of bounds for matrix with {n} rows"
  | .column i n =>
      s!"Column index {i.toInt} out of bounds for matrix with {n} columns"

/-- A mistake, with what it is about. -/
inductive Problem where
  | illegalCharacter (c : Char)
  | numberTooLarge (digits : String)
  | unterminatedString
  | unexpectedToken (found : String)
  | unexpectedEnd
  | undefinedVariable (name : String)
  | invalidOperands (op : BinaryOp) (left right : Kind)
  | incompatibleShapes (op : String) (left right : Shape)
  | productMismatch (left right : Shape)
  | comparesArrays (op : Relation)
  | invalidCompound (op : AssignOp) (target value : Kind)
  | notIndexable (name : String)
  | notMatrix (name : String)
  | outOfBounds (place : BoundsProblem)
  | rowNotVector (row : Nat)
  | raggedRows (lengths : List Nat)
  | nonPositiveSize (constructor : Constructor) (dims : Dims)
  | nonNumericBound (bound : RangeEnd)
  | strayLoopControl (control : LoopControl)
  | negated (kind : Kind)
  | transposed (kind : Kind)
  | nonScalarElement (index : Nat) (kind : Kind)
deriving Repr, DecidableEq

namespace Problem

def code : Problem → Code
  | .illegalCharacter _ => .illegalCharacter
  | .numberTooLarge _ => .invalidNumber
  | .unterminatedString => .unterminatedString
  | .unexpectedToken _ => .unexpectedToken
  | .unexpectedEnd => .unexpectedEnd
  | .undefinedVariable _ => .undefinedVariable
  | .invalidOperands .. => .invalidOperands
  | .incompatibleShapes .. => .incompatibleShapes
  | .productMismatch .. => .productMismatch
  | .comparesArrays _ => .comparesArrays
  | .invalidCompound .. => .invalidCompound
  | .notIndexable _ => .notIndexable
  | .notMatrix _ => .notMatrix
  | .outOfBounds _ => .outOfBounds
  | .rowNotVector _ | .raggedRows _ => .malformedMatrix
  | .nonPositiveSize .. => .nonPositiveSize
  | .nonNumericBound _ => .nonNumericBound
  | .strayLoopControl _ => .strayLoopControl
  | .negated _ => .negatedString
  | .transposed _ => .transposedNonMatrix
  | .nonScalarElement .. => .nonScalarElement

def message : Problem → String
  | .illegalCharacter c => s!"Illegal character '{c}'"
  | .numberTooLarge digits => s!"Invalid number literal '{digits}'"
  | .unterminatedString => "Unterminated string literal"
  | .unexpectedToken found => s!"Syntax error at '{found}'"
  | .unexpectedEnd => "Unexpected end of input"
  | .undefinedVariable name => s!"Variable '{name}' not defined"
  | .invalidOperands op l r =>
      s!"Invalid operands for {op.text}: {l.text} and {r.text}"
  | .incompatibleShapes op l r =>
      s!"Incompatible shapes for {op}: {l.text} and {r.text}"
  | .productMismatch l r =>
      s!"Matrix multiplication: incompatible dimensions {l.text} and {r.text}"
  | .comparesArrays op =>
      s!"Relational operator {op.text} requires scalar operands"
  | .invalidCompound op t v =>
      s!"Invalid compound assignment {op.text}: {t.text} and {v.text}"
  | .notIndexable name => s!"Variable '{name}' is not indexable"
  | .notMatrix name => s!"Variable '{name}' is not a matrix"
  | .outOfBounds place => place.text
  | .rowNotVector i => s!"Matrix row {i} is not a vector"
  | .raggedRows lengths =>
      "Matrix rows have different sizes: \x7b" ++ ", ".intercalate (lengths.map toString) ++ "\x7d"
  | .nonPositiveSize f (.square n) =>
      s!"Matrix function '{f.text}' requires positive size, got {n.toInt}"
  | .nonPositiveSize f (.rect m n) =>
      s!"Matrix function '{f.text}' requires positive dimensions, got {(Dims.rect m n).text}"
  | .nonNumericBound bound => s!"Range {bound.text} must be numeric"
  | .strayLoopControl control => s!"{control.text} statement outside loop"
  | .negated kind => s!"Unary minus not applicable to {kind.text}"
  | .transposed kind =>
      s!"Transpose only applicable to matrices, not {kind.text}"
  | .nonScalarElement i kind =>
      s!"Vector element {i} must be a numeric scalar, found {kind.text}"

def notes : Problem → List String
  | .numberTooLarge _ =>
      [s!"integer literals must fit in 64 bits (max {Int64.maxValue.toInt})"]
  | _ => []

def onLine (p : Problem) (line : Nat) : Diagnostic :=
  ⟨p.code, line, p.message, p.notes⟩

end Problem

end MatrixLang
