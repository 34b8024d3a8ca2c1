import MatrixLang.Scopes
import MatrixLang.Tree.Basic
import MatrixLang.Typing.Rule

/-!
# Checking a program

The checker walks a program once, in the order of its text, and infers a type
for every expression. It reports every mistake and never stops early: a mistake
leaves an expression without a type, and nothing is reported against a missing
type. What it remembers is the last type assigned to each variable, wherever the
assignment stands; branches and loop bodies are walked once and open no scope.

Expressions only read what is remembered, so inference is a function of the
symbols; a statement turns the symbols into new ones. Reports come in the order
in which the walk finds them.
-/

namespace MatrixLang

/-- What is remembered of the variables: the type assigned last, or none when it
could not be inferred. -/
abbrev Symbols := Scopes (Option Ty)

def Symbols.initial : Symbols := .empty "root"

/-- The type of an expression, if it has one, and what is wrong with it. -/
structure Judgement where
  ty : Option Ty
  reports : List Diagnostic

namespace Judgement

def known (t : Ty) : Judgement := ⟨some t, []⟩

def wrong (p : Problem) (line : Nat) : Judgement := ⟨none, [p.onLine line]⟩

def ofExcept (line : Nat) : Except Problem Ty → Judgement
  | .ok t => known t
  | .error p => wrong p line

/-- Goes on from the type of an operand; a missing type stays missing. -/
def bind (j : Judgement) (next : Ty → Judgement) : Judgement :=
  match j.ty with
  | none => j
  | some t =>
      let k := next t
      ⟨k.ty, j.reports ++ k.reports⟩

def bind₂ (l r : Judgement) (next : Ty → Ty → Judgement) : Judgement :=
  match l.ty, r.ty with
  | some t, some u =>
      let k := next t u
      ⟨k.ty, l.reports ++ r.reports ++ k.reports⟩
  | _, _ => ⟨none, l.reports ++ r.reports⟩

end Judgement

/-! ## Places -/

/-- Whether an index lies outside an axis. Written indices count from zero. -/
def outside (i : Int64) (size : Nat) : Bool := !(0 ≤ i.toInt && i.toInt < size)

def boundsReport (i : Int64) (size : Nat) (place : BoundsProblem) (line : Nat) :
    List Diagnostic :=
  if outside i size then [(Problem.outOfBounds place).onLine line] else []

/-- `name[i]`, where `name` has type `t`: an entry of a vector, which may be any
number, or a row of a matrix. -/
def itemType (line : Nat) (name : String) (i : Int64) (t : Ty) : Judgement :=
  match t.kind, t.shape with
  | .vector, some (.vector n) =>
      ⟨some .float, boundsReport i n (.element i n) line⟩
  | .vector, _ => .known .float
  | .matrix, some (.matrix rows cols) =>
      ⟨some (.vector cols), boundsReport i rows (.row i rows) line⟩
  | .matrix, _ => .known (.ofKind .vector)
  | _, _ => .wrong (.notIndexable name) line

def cellType (line : Nat) (name : String) (i j : Int64) (t : Ty) : Judgement :=
  match t.kind, t.shape with
  | .matrix, some (.matrix rows cols) =>
      ⟨some .float,
        boundsReport i rows (.row i rows) line ++ boundsReport j cols (.column j cols) line⟩
  | .matrix, _ => .known .float
  | _, _ => .wrong (.notMatrix name) line

def placeType (symbols : Symbols) (line : Nat) (p : Place) : Judgement :=
  match symbols.get? p.name with
  | none => .wrong (.undefinedVariable p.name) line
  | some none => ⟨none, []⟩
  | some (some t) =>
      match p with
      | .var _ => .known t
      | .item name i => itemType line name i t
      | .cell name i j => cellType line name i j t

/-! ## Literals and constructors -/

def insertDistinct (n : Nat) : List Nat → List Nat
  | [] => [n]
  | m :: rest =>
      if n < m then n :: m :: rest
      else if n = m then m :: rest
      else m :: insertDistinct n rest

/-- The different numbers of a list, ascending. -/
def distinct (l : List Nat) : List Nat := l.foldr insertDistinct []

def Expr.rowLength? : Expr → Option Nat
  | .vector _ items => some items.length
  | _ => none

def raggedReport (line : Nat) (rows : List Expr) : List Diagnostic :=
  let lengths := distinct (rows.filterMap Expr.rowLength?)
  if 1 < lengths.length then [(Problem.raggedRows lengths).onLine line] else []

/-- The type of a matrix literal: its shape is known if all rows are vector
literals of one length. -/
def matrixType (rows : List Expr) : Ty :=
  match rows with
  | [] => .matrix 0 0
  | row :: _ =>
      if rows.all Expr.isVector && (distinct (rows.filterMap Expr.rowLength?)).length ≤ 1 then
        .matrix rows.length (row.rowLength?.getD 0)
      else .ofKind .matrix

/-- A constructor makes a matrix of the sizes it is given, which are positive. -/
def constructType (line : Nat) (f : Constructor) (dims : Dims) : Judgement :=
  let (rows, cols) := dims.rowsCols
  if 0 < rows.toInt ∧ 0 < cols.toInt then .known (.matrix rows.toInt.toNat cols.toInt.toNat)
  else .wrong (.nonPositiveSize f dims) line

/-- A comparison gives an integer, whatever is wrong with it. -/
def compareReports (line : Nat) (op : Relation) (l r : Option Ty) :
    List Diagnostic :=
  match l, r with
  | some t, some u =>
      if t.kind.isNumeric && u.kind.isNumeric then []
      else [(Problem.comparesArrays op).onLine line]
  | _, _ => []

/-- Everything but a string has a negative. -/
def negType (line : Nat) (t : Ty) : Judgement :=
  if t.kind = .string then .wrong (.negated t.kind) line else .known t

def transposeType (line : Nat) (t : Ty) : Judgement :=
  if t.kind = .matrix then .known ⟨.matrix, t.shape.map Shape.transposed⟩
  else .wrong (.transposed t.kind) line

def itemReport (line index : Nat) (t : Option Ty) : List Diagnostic :=
  match t with
  | some t => if t.kind.isNumeric then [] else [(Problem.nonScalarElement index t.kind).onLine line]
  | none => []

/-! ## Expressions -/

mutual

def infer (symbols : Symbols) : Expr → Judgement
  | .int _ _ => .known .int
  | .float _ _ => .known .float
  | .str _ _ => .known .string
  | .read line p => placeType symbols line p
  | .binary line op l r =>
      (infer symbols l).bind₂ (infer symbols r) fun t u => .ofExcept line (Ty.binary op t u)
  | .compare line op l r =>
      let l := infer symbols l
      let r := infer symbols r
      ⟨some .int, l.reports ++ r.reports ++ compareReports line op l.ty r.ty⟩
  | .vector _ items =>
      ⟨some (.vector items.length), itemReports symbols 0 items⟩
  | .matrix line rows =>
      ⟨some (matrixType rows), rowReports symbols line 0 rows ++ raggedReport line rows⟩
  | .construct line f dims => constructType line f dims
  | .neg line e => (infer symbols e).bind (negType line)
  | .transpose line e => (infer symbols e).bind (transposeType line)

/-- What is wrong with the items of a vector literal, of which the first has
index `i`. -/
def itemReports (symbols : Symbols) (i : Nat) : List Expr → List Diagnostic
  | [] => []
  | e :: rest =>
      let j := infer symbols e
      j.reports ++ itemReport e.line i j.ty ++ itemReports symbols (i + 1) rest

/-- What is wrong with row `i` of a matrix literal. A row that is no vector
literal is not looked into. -/
def rowReport (symbols : Symbols) (line i : Nat) : Expr → List Diagnostic
  | .vector _ items => itemReports symbols 0 items
  | _ => [(Problem.rowNotVector i).onLine line]

def rowReports (symbols : Symbols) (line i : Nat) : List Expr → List Diagnostic
  | [] => []
  | row :: rest =>
      rowReport symbols line i row ++ rowReports symbols line (i + 1) rest

end

/-! ## Statements -/

/-- The symbols after a statement, and what is wrong with it. -/
structure Checked where
  symbols : Symbols
  reports : List Diagnostic

namespace Checked

def andThen (c : Checked) (next : Symbols → Checked) : Checked :=
  let d := next c.symbols
  ⟨d.symbols, c.reports ++ d.reports⟩

end Checked

/-- An assignment to a variable. A compound one needs a value to start from;
after a mistake the old type stays. -/
def checkVariable (symbols : Symbols) (line : Nat) (op : AssignOp)
    (name : String) (value : Option Ty) : Checked :=
  if op = .set then ⟨symbols.define name value, []⟩
  else
    match symbols.get? name with
    | none => ⟨symbols, [(Problem.undefinedVariable name).onLine line]⟩
    | some target =>
        match target, value with
        | some t, some v =>
            match Ty.compound op t v with
            | .ok result => ⟨symbols.define name (some result), []⟩
            | .error p => ⟨symbols, [p.onLine line]⟩
        | _, _ => ⟨symbols, []⟩

/-- An assignment, after its value was judged. An element is only checked to be
there. -/
def checkAssign (symbols : Symbols) (line : Nat) (op : AssignOp) (p : Place)
    (value : Option Ty) : Checked :=
  match p with
  | .var name => checkVariable symbols line op name value
  | p => ⟨symbols, (placeType symbols line p).reports⟩

def boundReport (line : Nat) (bound : RangeEnd) (t : Option Ty) :
    List Diagnostic :=
  match t with
  | some t => if t.kind.isNumeric then [] else [(Problem.nonNumericBound bound).onLine line]
  | none => []

def rangeReports (symbols : Symbols) (r : Range) : List Diagnostic :=
  let start := infer symbols r.start
  let stop := infer symbols r.stop
  start.reports ++ stop.reports ++ boundReport r.line .start start.ty
    ++ boundReport r.line .stop stop.ty

def controlReport (inLoop : Bool) (line : Nat) (control : LoopControl) :
    List Diagnostic :=
  if inLoop then [] else [(Problem.strayLoopControl control).onLine line]

mutual

/-- Checks a statement; `inLoop` tells whether a loop is around it. -/
def checkStmt (inLoop : Bool) (symbols : Symbols) : Stmt → Checked
  | .block _ body => checkStmts inLoop symbols body
  | .assign line op p e =>
      let value := infer symbols e
      Checked.andThen ⟨symbols, value.reports⟩ fun s => checkAssign s line op p value.ty
  | .branch _ test yes none =>
      Checked.andThen ⟨symbols, (infer symbols test).reports⟩ fun s => checkStmt inLoop s yes
  | .branch _ test yes (some no) =>
      Checked.andThen
        (Checked.andThen ⟨symbols, (infer symbols test).reports⟩ fun s => checkStmt inLoop s yes)
        fun s => checkStmt inLoop s no
  | .loop _ test body =>
      Checked.andThen ⟨symbols, (infer symbols test).reports⟩ fun s => checkStmt true s body
  | .count _ var range body =>
      Checked.andThen ⟨symbols.define var (some .int), rangeReports symbols range⟩
        fun s => checkStmt true s body
  | .break_ line => ⟨symbols, controlReport inLoop line .break_⟩
  | .continue_ line => ⟨symbols, controlReport inLoop line .continue_⟩
  | .ret _ e => ⟨symbols, (infer symbols e).reports⟩
  | .print _ values =>
      ⟨symbols, values.flatMap fun e => (infer symbols e).reports⟩

def checkStmts (inLoop : Bool) (symbols : Symbols) : List Stmt → Checked
  | [] => ⟨symbols, []⟩
  | s :: rest =>
      Checked.andThen (checkStmt inLoop symbols s) fun t => checkStmts inLoop t rest

end

def checkFrom (symbols : Symbols) (p : Program) : Checked :=
  checkStmts false symbols p

def check (p : Program) : List Diagnostic := (checkFrom .initial p).reports

end MatrixLang
