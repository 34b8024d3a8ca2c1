import MatrixLang.Tree.Parse

/-!
# Walking along tokens

A parser as a machine has its tokens in one array, which stays, and a position in it.
Such a cursor is asked for the token where it stands and told to move on. Past the last
token it stands at the last one for ever, and it does not move from the end of the
input, so to tell it to move on says nothing about whether it does. Here the reader of
each rule is such a walk.

A walk whose loops come around too often, or whose rules are nested too deep, has no
result. A cursor keeps a trace of what happened: the positions at which it was told to
move on, and for each round of a loop that went on where it began and where it ended.
-/

namespace MatrixLang

inductive Step where
  /-- The cursor was told to move on from this position. -/
  | took (pos : Nat)
  /-- A loop came around once more. -/
  | round (start stop : Nat)

def Step.taken? : Step → Option Nat
  | .took pos => some pos
  | .round _ _ => none

structure Cursor where
  tokens : List Token
  pos : Nat
  trace : List Step

namespace Cursor

def start (ts : List Token) : Cursor := ⟨ts, 0, []⟩

/-- Past the end this is the last token. -/
def current? (c : Cursor) : Option Token := c.tokens[c.pos]?.or c.tokens.getLast?

def lexeme (c : Cursor) : Lexeme := (c.current?.map Token.lexeme).getD .eof

def line (c : Cursor) : Nat := (c.current?.map Token.line).getD 1

def atEnd (c : Cursor) : Bool := c.lexeme.isEof

def advance (c : Cursor) : Cursor :=
  { c with
    pos := if c.atEnd then c.pos else c.pos + 1
    trace := c.trace ++ [.took c.pos] }

/-- The end of a round that began at `start`. -/
def round (start : Nat) (c : Cursor) : Cursor :=
  { c with trace := c.trace ++ [.round start c.pos] }

def unexpected (c : Cursor) : Diagnostic :=
  if c.atEnd then Problem.unexpectedEnd.onLine c.line
  else (Problem.unexpectedToken c.lexeme.text).onLine c.line

end Cursor

/-- A walk gives a value or a diagnostic, and the cursor where it came to rest, if it did. -/
abbrev Walk (α : Type) := ExceptT Diagnostic (StateT Cursor Option) α

namespace Walk

variable {α : Type}

def lexeme : Walk Lexeme := do return (← get).lexeme

def line : Walk Nat := do return (← get).line

def position : Walk Nat := do return (← get).pos

def tokenCount : Walk Nat := do return (← get).tokens.length

def advance : Walk Unit := modify Cursor.advance

def round (start : Nat) : Walk Unit := modify (Cursor.round start)

def unexpected : Walk α := do throw (← get).unexpected

/-- The walk did not come to rest within its bound. -/
def lost : Walk α := liftM (none : Option α)

/-! ## Single tokens -/

def check (s : Symbol) : Walk Bool := do
  match ← lexeme with
  | .symbol t => return t = s
  | _ => return false

def eat (s : Symbol) : Walk Bool := do
  if ← check s then
    advance
    return true
  else return false

def expect (s : Symbol) : Walk Unit := do
  if ← check s then advance
  else unexpected

def integer : Walk Int64 := do
  match ← lexeme with
  | .int n =>
      advance
      return n
  | _ => unexpected

def identifier : Walk String := do
  match ← lexeme with
  | .ident name =>
      advance
      return name
  | _ => unexpected

/-- A symbol that stands for something. -/
def tabled (table : Symbol → Option α) : Walk α := do
  match ← lexeme with
  | .symbol s =>
      match table s with
      | some x =>
          advance
          return x
      | none => unexpected
  | _ => unexpected

def operator (level : Reader.Level) : Walk (Option BinaryOp) := do
  match ← lexeme with
  | .symbol s =>
      match level s with
      | some op =>
          advance
          return some op
      | none => return none
  | _ => return none

/-! ## Parts that do not nest -/

def size : Walk Int64 := do
  if ← eat .minus then
    let n ← integer
    return -n
  else integer

/-- What follows the opening bracket of an element. -/
def indices (name : String) : Walk Place := do
  let i ← integer
  if ← eat .comma then
    let j ← integer
    expect .rbracket
    return .cell name i j
  else
    expect .rbracket
    return .item name i

def variableOrElement : Walk Expr := do
  let line ← line
  let name ← identifier
  if ← eat .lbracket then
    let place ← indices name
    return .read line place
  else return .read line (.var name)

def dims : Walk Dims := do
  expect .lparen
  let m ← size
  if ← eat .comma then
    let n ← size
    expect .rparen
    return .rect m n
  else
    expect .rparen
    return .square m

/-- A constructor whose keyword is the current token. -/
def matrixOf (f : Constructor) : Walk Expr := do
  let line ← line
  advance
  let d ← dims
  return .construct line f d

def transpositions : Nat → Expr → Walk Expr
  | 0, _ => lost
  | m + 1, e => do
      let start ← position
      if ← eat .quote then
        round start
        transpositions m (.transpose e.line e)
      else return e

/-! ## Lists and levels of operators -/

/-- The items of a list after its first one. -/
def furtherItems (item : Walk Expr) : Nat → Walk (List Expr)
  | 0 => lost
  | m + 1 => do
      let start ← position
      if ← eat .comma then
        let e ← item
        round start
        let es ← furtherItems item m
        return e :: es
      else return []

def items (n : Nat) (item : Walk Expr) : Walk (List Expr) := do
  let e ← item
  let es ← furtherItems item n
  return e :: es

def operations (level : Reader.Level) (operand : Walk Expr) : Nat → Expr → Walk Expr
  | 0, _ => lost
  | m + 1, left => do
      let start ← position
      match ← operator level with
      | none => return left
      | some op =>
          let right ← operand
          round start
          operations level operand m (.binary left.line op left right)

/-- The levels of operators from here on, loosest first. -/
def leveled (n : Nat) (unary : Walk Expr) : List Reader.Level → Walk Expr
  | [] => unary
  | level :: tighter => do
      let left ← leveled n unary tighter
      operations level (leveled n unary tighter) n left

/-! ## Expressions -/

def bracketList (n : Nat) (expression : Walk Expr) : Walk Expr := do
  let line ← line
  expect .lbracket
  if ← eat .rbracket then return .matrix line []
  else
    let es ← items n expression
    expect .rbracket
    return Reader.bracketed line es

def primary (n : Nat) (expression : Walk Expr) : Walk Expr := do
  let line ← line
  match ← lexeme with
  | .int k =>
      advance
      return .int line k
  | .float x =>
      advance
      return .float line x
  | .str s =>
      advance
      return .str line s
  | .ident _ => variableOrElement
  | .symbol .lparen =>
      advance
      let e ← expression
      expect .rparen
      return e
  | .symbol .lbracket => bracketList n expression
  | .word k =>
      match Reader.constructor? k with
      | some f => matrixOf f
      | none => unexpected
  | _ => unexpected

def unary : Nat → Walk Expr
  | 0 => lost
  | n + 1 => do
      if ← check .minus then
        let line ← line
        advance
        let e ← unary n
        return .neg line e
      else
        let e ← primary n (leveled n (unary n) Reader.levels)
        -- there are no more marks than tokens
        transpositions ((← tokenCount) + 1) e

def expression (n : Nat) : Walk Expr := leveled n (unary n) Reader.levels

def condition (n : Nat) : Walk Expr := do
  let left ← expression n
  let op ← tabled Reader.relation?
  let right ← expression n
  return .compare left.line op left right

def test (n : Nat) : Walk Expr := do
  expect .lparen
  let e ← condition n
  expect .rparen
  return e

/-! ## Statements -/

def assignment (n : Nat) : Walk Stmt := do
  let line ← line
  let name ← identifier
  if ← eat .lbracket then
    let place ← indices name
    expect .assign
    let e ← expression n
    expect .semicolon
    return .assign line .set place e
  else
    let op ← tabled Reader.assignOp?
    let e ← expression n
    expect .semicolon
    return .assign line op (.var name) e

/-- The header of a `for` loop after its keyword. -/
def header (n : Nat) : Walk (String × Range) := do
  let var ← identifier
  expect .assign
  let start ← expression n
  expect .colon
  let stop ← expression n
  return (var, ⟨start.line, start, stop⟩)

/-- The statements of a block up to its closing brace. -/
def block (statement : Walk Stmt) : Nat → Walk (List Stmt)
  | 0 => lost
  | m + 1 => do
      let start ← position
      if ← check .rbrace then
        advance
        return []
      else if (← lexeme).isEof then unexpected
      else
        let s ← statement
        round start
        let rest ← block statement m
        return s :: rest

def elseBranch (statement : Walk Stmt) : Walk (Option Stmt) := do
  match ← lexeme with
  | .word .else_ =>
      advance
      let s ← statement
      return some s
  | _ => return none

def statement : Nat → Walk Stmt
  | 0 => lost
  | n + 1 => do
      let line ← line
      match ← lexeme with
      | .symbol .lbrace =>
          advance
          let body ← block (statement n) n
          return .block line body
      | .word .if_ =>
          advance
          let e ← test n
          let yes ← statement n
          let no ← elseBranch (statement n)
          return .branch line e yes no
      | .word .while_ =>
          advance
          let e ← test n
          let body ← statement n
          return .loop line e body
      | .word .for_ =>
          advance
          let (var, range) ← header n
          let body ← statement n
          return .count line var range body
      | .word .break_ =>
          advance
          expect .semicolon
          return .break_ line
      | .word .continue_ =>
          advance
          expect .semicolon
          return .continue_ line
      | .word .return_ =>
          advance
          let e ← expression n
          expect .semicolon
          return .ret line e
      | .word .print =>
          advance
          let es ← items n (expression n)
          expect .semicolon
          return .print line es
      | .ident _ => assignment n
      | _ => unexpected

/-! ## Programs -/

/-- Reads statements to the end of the input or to the first mistake. -/
def program : Nat → StateT Cursor Option Parse
  | 0 => fun _ => none
  | n + 1 => do
      let c ← get
      if c.atEnd then return ⟨[], []⟩
      else
        match ← (statement n).run with
        | .error d => return ⟨[], [d]⟩
        | .ok s =>
            modify (Cursor.round c.pos)
            let rest ← program n
            return { rest with program := s :: rest.program }

end Walk

end MatrixLang
