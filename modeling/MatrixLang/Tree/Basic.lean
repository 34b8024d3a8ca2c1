import MatrixLang.Operator

/-!
# Program trees

A program is a list of statements. Every statement and expression carries the
line of the token that starts it; all reports quote these lines. A *place* is
what an assignment writes and what an expression reads: a variable, or an
element of the array that a variable holds.

The trees are wider than the language: they allow a matrix whose rows are no
vectors, a condition that compares nothing, or an element as the target of a
compound assignment. The checker and the interpreter give all of them a meaning.
-/

namespace MatrixLang

/-- A variable, an item of a vector (or a row of a matrix), or a cell of a
matrix. Indices are literals. -/
inductive Place where
  | var (name : String)
  | item (name : String) (index : Int64)
  | cell (name : String) (row col : Int64)
deriving Repr, DecidableEq

def Place.name : Place → String
  | .var name => name
  | .item name _ => name
  | .cell name _ _ => name

/-- Expressions. The first field is the line. -/
inductive Expr where
  | int (line : Nat) (value : Int64)
  | float (line : Nat) (value : Float)
  | str (line : Nat) (value : String)
  | read (line : Nat) (place : Place)
  | binary (line : Nat) (op : BinaryOp) (left right : Expr)
  | compare (line : Nat) (op : Relation) (left right : Expr)
  | vector (line : Nat) (items : List Expr)
  /-- The rows are meant to be vector literals. -/
  | matrix (line : Nat) (rows : List Expr)
  | construct (line : Nat) (constructor : Constructor) (dims : Dims)
  | neg (line : Nat) (operand : Expr)
  | transpose (line : Nat) (operand : Expr)
deriving Inhabited

namespace Expr

def line : Expr → Nat
  | int line _ | float line _ | str line _ | read line _ | binary line _ _ _
  | compare line _ _ _ | vector line _ | matrix line _ | construct line _ _
  | neg line _ | transpose line _ => line

def isVector : Expr → Bool
  | vector _ _ => true
  | _ => false

def isEmptyMatrix : Expr → Bool
  | matrix _ [] => true
  | _ => false

end Expr

/-- The bounds in a `for` header, both included. -/
structure Range where
  line : Nat
  start : Expr
  stop : Expr
deriving Inhabited

/-- Statements. The first field is the line. Blocks hold statements together
and do nothing else. -/
inductive Stmt where
  | block (line : Nat) (body : List Stmt)
  | assign (line : Nat) (op : AssignOp) (place : Place) (value : Expr)
  | branch (line : Nat) (test : Expr) (yes : Stmt) (no : Option Stmt)
  | loop (line : Nat) (test : Expr) (body : Stmt)
  | count (line : Nat) (var : String) (range : Range) (body : Stmt)
  | break_ (line : Nat)
  | continue_ (line : Nat)
  | ret (line : Nat) (value : Expr)
  | print (line : Nat) (values : List Expr)
deriving Inhabited

namespace Stmt

def line : Stmt → Nat
  | block line _ | assign line _ _ _ | branch line _ _ _ | loop line _ _ | count line _ _ _
  | break_ line | continue_ line | ret line _ | print line _ => line

end Stmt

/-- A program: the statements at its top level. -/
abbrev Program := List Stmt

end MatrixLang
