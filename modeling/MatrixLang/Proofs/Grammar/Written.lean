import MatrixLang.Token.Basic
import MatrixLang.Tree.Basic

/-!
# Trees written as tokens

How a tree is written down (`Written`): every node has its tokens, an operand is
written at the rank that its place asks for, and any expression may stand in
parentheses, which is the only way to write a loose one where a tight one is
asked for. The lines of the tokens and those in the tree have nothing to do with
each other.

Nothing is said here of reading. More trees can be written than read back: an
empty row of a matrix and an empty matrix are written alike, and so are a matrix
and a vector of its rows.
-/

namespace MatrixLang

/-! ## Ranks -/

/-- How tightly an expression has to hold together, the loosest first. -/
inductive Rank where
  | sum | dotSum | product | dotProduct | unary | postfixed | primary

/-- The next rank; nothing is tighter than a primary. -/
def Rank.tighter : Rank → Rank
  | .sum => .dotSum
  | .dotSum => .product
  | .product => .dotProduct
  | .dotProduct => .unary
  | .unary => .postfixed
  | .postfixed | .primary => .primary

def BinaryOp.rank : BinaryOp → Rank
  | .add | .sub => .sum
  | .dotAdd | .dotSub => .dotSum
  | .mul | .div => .product
  | .dotMul | .dotDiv => .dotProduct

def BinaryOp.symbol : BinaryOp → Symbol
  | .add => .plus
  | .sub => .minus
  | .mul => .star
  | .div => .slash
  | .dotAdd => .dotAdd
  | .dotSub => .dotSub
  | .dotMul => .dotMul
  | .dotDiv => .dotDiv

def Relation.symbol : Relation → Symbol
  | .eq => .eq
  | .ne => .ne
  | .lt => .lt
  | .gt => .gt
  | .le => .le
  | .ge => .ge

def AssignOp.symbol : AssignOp → Symbol
  | .set => .assign
  | .add => .addAssign
  | .sub => .subAssign
  | .mul => .mulAssign
  | .div => .divAssign

def Constructor.keyword : Constructor → Keyword
  | .zeros => .zeros
  | .ones => .ones
  | .eye => .eye

/-! ## Writing -/

inductive WrittenPlace : Place → List Token → Prop
  | var {name : String} {l : Nat} : WrittenPlace (.var name) [⟨.ident name, l⟩]
  | item {name : String} {i : Int64} {l l₁ l₂ l₃ : Nat} :
      WrittenPlace (.item name i)
        [⟨.ident name, l⟩, ⟨.symbol .lbracket, l₁⟩, ⟨.int i, l₂⟩,
          ⟨.symbol .rbracket, l₃⟩]
  | cell {name : String} {i j : Int64} {l l₁ l₂ l₃ l₄ l₅ : Nat} :
      WrittenPlace (.cell name i j)
        [⟨.ident name, l⟩, ⟨.symbol .lbracket, l₁⟩, ⟨.int i, l₂⟩,
          ⟨.symbol .comma, l₃⟩, ⟨.int j, l₄⟩, ⟨.symbol .rbracket, l₅⟩]

inductive WrittenSize : Int64 → List Token → Prop
  | plain {n : Int64} {l : Nat} : WrittenSize n [⟨.int n, l⟩]
  | minus {n : Int64} {l l₁ : Nat} :
      WrittenSize (-n) [⟨.symbol .minus, l⟩, ⟨.int n, l₁⟩]

inductive WrittenDims : Dims → List Token → Prop
  | square {n : Int64} {ts : List Token} :
      WrittenSize n ts → WrittenDims (.square n) ts
  | rect {m n : Int64} {us vs : List Token} {l : Nat} :
      WrittenSize m us → WrittenSize n vs →
      WrittenDims (.rect m n) (us ++ ⟨.symbol .comma, l⟩ :: vs)

/-- What can be written: an expression where a rank is asked for, a list of
expressions with commas between them, a condition without its parentheses, a
statement, or the statements of a block or a program. -/
inductive Phrase where
  | expr (rank : Rank) (e : Expr)
  | items (es : List Expr)
  | test (e : Expr)
  | stmt (s : Stmt)
  | body (ss : List Stmt)

/-- These tokens write this phrase. -/
inductive Written : Phrase → List Token → Prop
  | int {n : Int64} {k l : Nat} :
      Written (.expr .primary (.int k n)) [⟨.int n, l⟩]
  | float {x : Float} {k l : Nat} :
      Written (.expr .primary (.float k x)) [⟨.float x, l⟩]
  | str {s : String} {k l : Nat} :
      Written (.expr .primary (.str k s)) [⟨.str s, l⟩]
  | read {p : Place} {k : Nat} {ts : List Token} :
      WrittenPlace p ts → Written (.expr .primary (.read k p)) ts
  | construct {f : Constructor} {d : Dims} {k l l₁ l₂ : Nat} {ts : List Token} :
      WrittenDims d ts → Written (.expr .primary (.construct k f d))
        (⟨.word f.keyword, l⟩ :: ⟨.symbol .lparen, l₁⟩ :: ts
          ++ [⟨.symbol .rparen, l₂⟩])
  | emptyMatrix {k l l₁ : Nat} :
      Written (.expr .primary (.matrix k []))
        [⟨.symbol .lbracket, l⟩, ⟨.symbol .rbracket, l₁⟩]
  | emptyVector {k l l₁ : Nat} :
      Written (.expr .primary (.vector k []))
        [⟨.symbol .lbracket, l⟩, ⟨.symbol .rbracket, l₁⟩]
  | matrix {rows : List Expr} {k l l₁ : Nat} {ts : List Token} :
      Written (.items rows) ts →
      Written (.expr .primary (.matrix k rows))
        (⟨.symbol .lbracket, l⟩ :: ts ++ [⟨.symbol .rbracket, l₁⟩])
  | vector {es : List Expr} {k l l₁ : Nat} {ts : List Token} :
      Written (.items es) ts →
      Written (.expr .primary (.vector k es))
        (⟨.symbol .lbracket, l⟩ :: ts ++ [⟨.symbol .rbracket, l₁⟩])
  | paren {e : Expr} {l l₁ : Nat} {ts : List Token} :
      Written (.expr .sum e) ts →
      Written (.expr .primary e)
        (⟨.symbol .lparen, l⟩ :: ts ++ [⟨.symbol .rparen, l₁⟩])
  | transpose {e : Expr} {k l : Nat} {ts : List Token} :
      Written (.expr .postfixed e) ts →
      Written (.expr .postfixed (.transpose k e)) (ts ++ [⟨.symbol .quote, l⟩])
  | neg {e : Expr} {k l : Nat} {ts : List Token} : Written (.expr .unary e) ts →
      Written (.expr .unary (.neg k e)) (⟨.symbol .minus, l⟩ :: ts)
  | binary {op : BinaryOp} {e f : Expr} {k l : Nat} {us vs : List Token} :
      Written (.expr op.rank e) us → Written (.expr op.rank.tighter f) vs →
      Written (.expr op.rank (.binary k op e f)) (us ++ ⟨.symbol op.symbol, l⟩ :: vs)
  | tight {rank : Rank} {e : Expr} {ts : List Token} :
      Written (.expr rank.tighter e) ts →
      Written (.expr rank e) ts
  | one {e : Expr} {ts : List Token} :
      Written (.expr .sum e) ts → Written (.items [e]) ts
  | more {e : Expr} {es : List Expr} {l : Nat} {us vs : List Token} :
      Written (.expr .sum e) us → Written (.items es) vs →
      Written (.items (e :: es)) (us ++ ⟨.symbol .comma, l⟩ :: vs)
  | test {op : Relation} {e f : Expr} {k l : Nat} {us vs : List Token} :
      Written (.expr .sum e) us → Written (.expr .sum f) vs →
      Written (.test (.compare k op e f)) (us ++ ⟨.symbol op.symbol, l⟩ :: vs)
  | block {ss : List Stmt} {k l l₁ : Nat} {ts : List Token} :
      Written (.body ss) ts →
      Written (.stmt (.block k ss))
        (⟨.symbol .lbrace, l⟩ :: ts ++ [⟨.symbol .rbrace, l₁⟩])
  | assign {op : AssignOp} {p : Place} {e : Expr} {k l l₁ : Nat}
      {us vs : List Token} :
      WrittenPlace p us → Written (.expr .sum e) vs →
      Written (.stmt (.assign k op p e))
        (us ++ ⟨.symbol op.symbol, l⟩ :: vs ++ [⟨.symbol .semicolon, l₁⟩])
  | ifThen {e : Expr} {s : Stmt} {k l l₁ l₂ : Nat} {us vs : List Token} :
      Written (.test e) us → Written (.stmt s) vs →
      Written (.stmt (.branch k e s none))
        (⟨.word .if_, l⟩ :: ⟨.symbol .lparen, l₁⟩ :: us
          ++ ⟨.symbol .rparen, l₂⟩ :: vs)
  | ifThenElse {e : Expr} {s t : Stmt} {k l l₁ l₂ l₃ : Nat} {us vs ws : List Token} :
      Written (.test e) us → Written (.stmt s) vs → Written (.stmt t) ws →
      Written (.stmt (.branch k e s (some t)))
        (⟨.word .if_, l⟩ :: ⟨.symbol .lparen, l₁⟩ :: us
          ++ ⟨.symbol .rparen, l₂⟩ :: vs ++ ⟨.word .else_, l₃⟩ :: ws)
  | loop {e : Expr} {s : Stmt} {k l l₁ l₂ : Nat} {us vs : List Token} :
      Written (.test e) us → Written (.stmt s) vs →
      Written (.stmt (.loop k e s))
        (⟨.word .while_, l⟩ :: ⟨.symbol .lparen, l₁⟩ :: us
          ++ ⟨.symbol .rparen, l₂⟩ :: vs)
  | count {x : String} {e f : Expr} {s : Stmt} {k k₁ l l₁ l₂ l₃ : Nat}
      {us vs ws : List Token} :
      Written (.expr .sum e) us → Written (.expr .sum f) vs → Written (.stmt s) ws →
      Written (.stmt (.count k x ⟨k₁, e, f⟩ s))
        (⟨.word .for_, l⟩ :: ⟨.ident x, l₁⟩ :: ⟨.symbol .assign, l₂⟩ :: us
          ++ ⟨.symbol .colon, l₃⟩ :: vs ++ ws)
  | break_ {k l l₁ : Nat} :
      Written (.stmt (.break_ k)) [⟨.word .break_, l⟩, ⟨.symbol .semicolon, l₁⟩]
  | continue_ {k l l₁ : Nat} :
      Written (.stmt (.continue_ k)) [⟨.word .continue_, l⟩, ⟨.symbol .semicolon, l₁⟩]
  | ret {e : Expr} {k l l₁ : Nat} {ts : List Token} :
      Written (.expr .sum e) ts →
      Written (.stmt (.ret k e))
        (⟨.word .return_, l⟩ :: ts ++ [⟨.symbol .semicolon, l₁⟩])
  | print {es : List Expr} {k l l₁ : Nat} {ts : List Token} :
      Written (.items es) ts →
      Written (.stmt (.print k es))
        (⟨.word .print, l⟩ :: ts ++ [⟨.symbol .semicolon, l₁⟩])
  | nil : Written (.body []) []
  | cons {s : Stmt} {ss : List Stmt} {us vs : List Token} :
      Written (.stmt s) us → Written (.body ss) vs →
      Written (.body (s :: ss)) (us ++ vs)

/-- A primary can stand wherever an expression is asked for. -/
theorem Written.anywhere {e : Expr} {ts : List Token}
    (h : Written (.expr .primary e) ts) (rank : Rank) :
    Written (.expr rank e) ts := by
  have hpostfixed : Written (.expr .postfixed e) ts := .tight h
  have hunary : Written (.expr .unary e) ts := .tight hpostfixed
  have hdotProduct : Written (.expr .dotProduct e) ts := .tight hunary
  have hproduct : Written (.expr .product e) ts := .tight hdotProduct
  have hdotSum : Written (.expr .dotSum e) ts := .tight hproduct
  have hsum : Written (.expr .sum e) ts := .tight hdotSum
  cases rank <;> assumption

end MatrixLang
