import MatrixLang.Token.Scan
import MatrixLang.Tree.Basic

/-!
# From tokens to trees

The grammar, from the loosest construct to the tightest:

* statements: blocks, `if`, `while`, `for`, assignments, `break`, `continue`,
  `return` and `print`; an `else` belongs to the nearest `if`;
* conditions: two expressions and a relation between them, nowhere else;
* four levels of left-associative operators, `+ -` below `.+ .-` below `* /`
  below `.* ./`;
* unary minus, then the transposition marks after a primary;
* primaries: literals, variables and their elements, bracket lists, matrix
  constructors and parentheses.

A reader takes a list of tokens and gives what it read and the tokens that are
left, or stops. It takes a token off the list only when something can follow
it, so the token at which it stops is the first one that makes the input
hopeless, and it never takes the end of the input off.

Readers that call themselves count down a number that bounds the nesting. Every
level takes at least one token off, so the length of the list is always enough.
-/

namespace MatrixLang

/-- Why a reader stopped. -/
inductive Stop where
  /-- The first of these tokens cannot stand here. -/
  | unexpected (tokens : List Token)
  /-- The bound on the nesting was too small. -/
  | exhausted

/-- A reader of tokens gives what it read and the tokens that are left. -/
abbrev Reader (α : Type) := List Token → Except Stop (α × List Token)

/-- What is reported of a stop. A list of tokens without an end stands for the
end of the input on the first line. -/
def Stop.diagnostic : Stop → Diagnostic
  | .unexpected (t :: _) =>
      if t.lexeme.isEof then Problem.unexpectedEnd.onLine t.line
      else (Problem.unexpectedToken t.lexeme.text).onLine t.line
  | .unexpected [] | .exhausted => Problem.unexpectedEnd.onLine 1

namespace Reader

/-! ## Single tokens -/

def skip? (s : Symbol) : List Token → Option (List Token)
  | ⟨.symbol t, _⟩ :: rest => if t = s then some rest else none
  | _ => none

def expect (s : Symbol) (ts : List Token) : Except Stop (List Token) :=
  match skip? s ts with
  | some rest => .ok rest
  | none => .error (.unexpected ts)

def integer : Reader Int64
  | ⟨.int n, _⟩ :: rest => .ok (n, rest)
  | ts => .error (.unexpected ts)

def identifier : Reader String
  | ⟨.ident name, _⟩ :: rest => .ok (name, rest)
  | ts => .error (.unexpected ts)

/-- A size may have a minus before it. -/
def size (ts : List Token) : Except Stop (Int64 × List Token) :=
  match skip? .minus ts with
  | some rest => do
      let (n, rest) ← integer rest
      .ok (-n, rest)
  | none => integer ts

/-! ## Lists and levels of operators -/

/-- One or more items with commas between them. -/
def separated {α : Type} (item : Reader α) : Nat → Reader (List α)
  | 0, _ => .error .exhausted
  | n + 1, ts => do
      let (a, ts) ← item ts
      match skip? .comma ts with
      | none => .ok ([a], ts)
      | some ts => do
          let (rest, ts) ← separated item n ts
          .ok (a :: rest, ts)

/-- A level of operators, by the symbols that write them. -/
abbrev Level := Symbol → Option BinaryOp

def operator? (level : Level) : List Token → Option (BinaryOp × List Token)
  | ⟨.symbol s, _⟩ :: rest => (level s).map (·, rest)
  | _ => none

/-- The operators of a level and the operands after them, hung on what stands to
their left. A node starts where its left operand does. -/
def operations (level : Level) (operand : Reader Expr) :
    Nat → Expr → Reader Expr
  | 0, _, _ => .error .exhausted
  | n + 1, left, ts =>
      match operator? level ts with
      | none => .ok (left, ts)
      | some (op, ts) => do
          let (right, ts) ← operand ts
          operations level operand n (.binary left.line op left right) ts

def leveled (level : Level) (n : Nat) (operand : Reader Expr) : Reader Expr :=
  fun ts => do
  let (left, ts) ← operand ts
  operations level operand n left ts

def sumLevel : Level
  | .plus => some .add
  | .minus => some .sub
  | _ => none

def dotSumLevel : Level
  | .dotAdd => some .dotAdd
  | .dotSub => some .dotSub
  | _ => none

def productLevel : Level
  | .star => some .mul
  | .slash => some .div
  | _ => none

def dotProductLevel : Level
  | .dotMul => some .dotMul
  | .dotDiv => some .dotDiv
  | _ => none

/-- The levels, loosest first. -/
def levels : List Level :=
  [sumLevel, dotSumLevel, productLevel, dotProductLevel]

/-- An expression, when it is known how to read what no operator stands in. -/
def expressionOf (n : Nat) (unary : Reader Expr) : Reader Expr :=
  levels.foldr (fun level operand => leveled level n operand) unary

/-! ## Primaries -/

def indices (name : String) (ts : List Token) :
    Except Stop (Place × List Token) := do
  let (i, ts) ← integer ts
  match skip? .comma ts with
  | none => do
      let ts ← expect .rbracket ts
      .ok (.item name i, ts)
  | some ts => do
      let (j, ts) ← integer ts
      let ts ← expect .rbracket ts
      .ok (.cell name i j, ts)

def dims (ts : List Token) : Except Stop (Dims × List Token) := do
  let ts ← expect .lparen ts
  let (m, ts) ← size ts
  match skip? .comma ts with
  | none => do
      let ts ← expect .rparen ts
      .ok (.square m, ts)
  | some ts => do
      let (n, ts) ← size ts
      let ts ← expect .rparen ts
      .ok (.rect m n, ts)

def constructor? : Keyword → Option Constructor
  | .zeros => some .zeros
  | .ones => some .ones
  | .eye => some .eye
  | _ => none

/-- Inside a list, `[]` is an empty row. -/
def asRow : Expr → Expr
  | .matrix line _ => .vector line []
  | e => e

/-- What a bracket list means: if every item is a vector literal or `[]`, the
items are the rows of a matrix; otherwise they are the items of a vector. -/
def bracketed (line : Nat) (items : List Expr) : Expr :=
  if items.all fun e => e.isVector || e.isEmptyMatrix then .matrix line (items.map asRow)
  else .vector line items

def transpositions (e : Expr) : List Token → Expr × List Token
  | ⟨.symbol .quote, _⟩ :: ts => transpositions (.transpose e.line e) ts
  | ts => (e, ts)

/-- A bracket list whose opening bracket was just read. -/
def bracketList (line : Nat) (items : Reader (List Expr)) (ts : List Token) :
    Except Stop (Expr × List Token) :=
  match skip? .rbracket ts with
  | some ts => .ok (.matrix line [], ts)
  | none => do
      let (es, ts) ← items ts
      let ts ← expect .rbracket ts
      .ok (bracketed line es, ts)

def primaryOf (n : Nat) (expression : Reader Expr) : Reader Expr
  | ⟨.int k, line⟩ :: ts => .ok (.int line k, ts)
  | ⟨.float x, line⟩ :: ts => .ok (.float line x, ts)
  | ⟨.str s, line⟩ :: ts => .ok (.str line s, ts)
  | ⟨.ident name, line⟩ :: ts =>
      match skip? .lbracket ts with
      | none => .ok (.read line (.var name), ts)
      | some ts => do
          let (place, ts) ← indices name ts
          .ok (.read line place, ts)
  | ⟨.symbol .lparen, _⟩ :: ts => do
      let (e, ts) ← expression ts
      let ts ← expect .rparen ts
      .ok (e, ts)
  | ⟨.symbol .lbracket, line⟩ :: ts =>
      bracketList line (separated expression n) ts
  | ⟨.word k, line⟩ :: ts =>
      match constructor? k with
      | none => .error (.unexpected (⟨.word k, line⟩ :: ts))
      | some f => do
          let (d, ts) ← dims ts
          .ok (.construct line f d, ts)
  | ts => .error (.unexpected ts)

/-! ## Expressions -/

/-- Any number of minus signs, then a primary with its transposition marks. -/
def unary : Nat → Reader Expr
  | 0, _ => .error .exhausted
  | n + 1, ts =>
      match ts with
      | ⟨.symbol .minus, line⟩ :: ts => do
          let (e, ts) ← unary n ts
          .ok (.neg line e, ts)
      | ts => do
          let (e, ts) ← primaryOf n (expressionOf n (unary n)) ts
          .ok (transpositions e ts)

def expression (n : Nat) : Reader Expr := expressionOf n (unary n)

def relation? : Symbol → Option Relation
  | .eq => some .eq
  | .ne => some .ne
  | .lt => some .lt
  | .gt => some .gt
  | .le => some .le
  | .ge => some .ge
  | _ => none

def relation : Reader Relation
  | ⟨.symbol s, line⟩ :: ts =>
      match relation? s with
      | some op => .ok (op, ts)
      | none => .error (.unexpected (⟨.symbol s, line⟩ :: ts))
  | ts => .error (.unexpected ts)

/-- Two expressions with a relation between them. Relations do not chain. -/
def condition (n : Nat) (ts : List Token) :
    Except Stop (Expr × List Token) := do
  let (left, ts) ← expression n ts
  let (op, ts) ← relation ts
  let (right, ts) ← expression n ts
  .ok (.compare left.line op left right, ts)

def test (n : Nat) (ts : List Token) : Except Stop (Expr × List Token) := do
  let ts ← expect .lparen ts
  let (e, ts) ← condition n ts
  let ts ← expect .rparen ts
  .ok (e, ts)

/-! ## Statements -/

def assignOp? : Symbol → Option AssignOp
  | .assign => some .set
  | .addAssign => some .add
  | .subAssign => some .sub
  | .mulAssign => some .mul
  | .divAssign => some .div
  | _ => none

def assignOp : Reader AssignOp
  | ⟨.symbol s, line⟩ :: ts =>
      match assignOp? s with
      | some op => .ok (op, ts)
      | none => .error (.unexpected (⟨.symbol s, line⟩ :: ts))
  | ts => .error (.unexpected ts)

/-- An assignment whose first name was just read. An element is only ever
assigned with `=`. -/
def assignment (n : Nat) (line : Nat) (name : String) (ts : List Token) :
    Except Stop (Stmt × List Token) :=
  match skip? .lbracket ts with
  | none => do
      let (op, ts) ← assignOp ts
      let (e, ts) ← expression n ts
      let ts ← expect .semicolon ts
      .ok (.assign line op (.var name) e, ts)
  | some ts => do
      let (place, ts) ← indices name ts
      let ts ← expect .assign ts
      let (e, ts) ← expression n ts
      let ts ← expect .semicolon ts
      .ok (.assign line .set place e, ts)

/-- The header of a `for` loop after its keyword. A range starts where its first
bound does. -/
def header (n : Nat) (ts : List Token) :
    Except Stop ((String × Range) × List Token) := do
  let (var, ts) ← identifier ts
  let ts ← expect .assign ts
  let (start, ts) ← expression n ts
  let ts ← expect .colon ts
  let (stop, ts) ← expression n ts
  .ok ((var, ⟨start.line, start, stop⟩), ts)

def blockRest (statement : Reader Stmt) : Nat → Reader (List Stmt)
  | 0, _ => .error .exhausted
  | n + 1, ts =>
      match skip? .rbrace ts with
      | some ts => .ok ([], ts)
      | none => do
          let (s, ts) ← statement ts
          let (rest, ts) ← blockRest statement n ts
          .ok (s :: rest, ts)

def elseBranch (statement : Reader Stmt) : Reader (Option Stmt)
  | ⟨.word .else_, _⟩ :: ts => do
      let (s, ts) ← statement ts
      .ok (some s, ts)
  | ts => .ok (none, ts)

def statement : Nat → Reader Stmt
  | 0, _ => .error .exhausted
  | n + 1, ts =>
      match ts with
      | ⟨.symbol .lbrace, line⟩ :: ts => do
          let (body, ts) ← blockRest (statement n) n ts
          .ok (.block line body, ts)
      | ⟨.word .if_, line⟩ :: ts => do
          let (e, ts) ← test n ts
          let (yes, ts) ← statement n ts
          let (no, ts) ← elseBranch (statement n) ts
          .ok (.branch line e yes no, ts)
      | ⟨.word .while_, line⟩ :: ts => do
          let (e, ts) ← test n ts
          let (body, ts) ← statement n ts
          .ok (.loop line e body, ts)
      | ⟨.word .for_, line⟩ :: ts => do
          let ((var, range), ts) ← header n ts
          let (body, ts) ← statement n ts
          .ok (.count line var range body, ts)
      | ⟨.word .break_, line⟩ :: ts => do
          let ts ← expect .semicolon ts
          .ok (.break_ line, ts)
      | ⟨.word .continue_, line⟩ :: ts => do
          let ts ← expect .semicolon ts
          .ok (.continue_ line, ts)
      | ⟨.word .return_, line⟩ :: ts => do
          let (e, ts) ← expression n ts
          let ts ← expect .semicolon ts
          .ok (.ret line e, ts)
      | ⟨.word .print, line⟩ :: ts => do
          let (es, ts) ← separated (expression n) n ts
          let ts ← expect .semicolon ts
          .ok (.print line es, ts)
      | ⟨.ident name, line⟩ :: ts => assignment n line name ts
      | ts => .error (.unexpected ts)

end Reader

/-! ## Programs -/

/-- A program that was read, and the mistake that ended the reading, if any. -/
structure Parse where
  program : Program
  errors : List Diagnostic

namespace Parse

def hasErrors (p : Parse) : Bool := !p.errors.isEmpty

def atEnd : List Token → Bool
  | [] => true
  | t :: _ => t.lexeme.isEof

/-- Reads statements to the end of the input. The statements before a mistake
are kept. -/
def statements : Nat → List Token → Parse
  | 0, _ => ⟨[], [Stop.exhausted.diagnostic]⟩
  | n + 1, ts =>
      if atEnd ts then ⟨[], []⟩
      else
        match Reader.statement n ts with
        | .error stop => ⟨[], [stop.diagnostic]⟩
        | .ok (s, ts) =>
            let rest := statements n ts
            { rest with program := s :: rest.program }

/-- A list of tokens that has no end of the input is read as though its last
token went on for ever. Each copy that is taken closes something opened before,
so as many copies as there are tokens are never used up. -/
def ended (ts : List Token) : List Token :=
  if ts.any (·.lexeme.isEof) then ts
  else
    match ts.getLast? with
    | none => []
    | some last => ts ++ List.replicate ts.length last

end Parse

def parse (ts : List Token) : Parse :=
  let ts := Parse.ended ts
  Parse.statements (ts.length + 2) ts

end MatrixLang
