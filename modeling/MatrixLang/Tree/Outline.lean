import MatrixLang.Tree.Basic
import MatrixLang.NumberText

/-!
# The outline of a tree

One line per node, indented by its depth. Keywords are written in capitals and
operators as they stand in a program. Blocks are transparent: what is in them
stands at the depth of the block itself, so an outline does not show them.
-/

namespace MatrixLang

/-- A line of an outline before it is indented. -/
structure OutlineLine where
  depth : Nat
  text : String
deriving Repr, DecidableEq

namespace Outline

/-- A node and, below it, what belongs to it. -/
def node (depth : Nat) (text : String) (children : List OutlineLine) :
    List OutlineLine :=
  ⟨depth, text⟩ :: children

def leaf (depth : Nat) (text : String) : List OutlineLine := [⟨depth, text⟩]

def index (depth : Nat) (i : Int64) : List OutlineLine :=
  leaf depth (toString i.toInt)

def place (depth : Nat) : Place → List OutlineLine
  | .var name => leaf depth name
  | .item name i =>
      node depth "REF" (leaf (depth + 1) name ++ index (depth + 1) i)
  | .cell name i j =>
      node depth "REF" (leaf (depth + 1) name ++ index (depth + 1) i ++ index (depth + 1) j)

mutual

def expr (depth : Nat) : Expr → List OutlineLine
  | .int _ n => leaf depth (toString n.toInt)
  | .float _ x => leaf depth (floatText x)
  | .str _ s => leaf depth ("\"" ++ s ++ "\"")
  | .read _ p => place depth p
  | .binary _ op l r =>
      node depth op.text (expr (depth + 1) l ++ expr (depth + 1) r)
  | .compare _ op l r =>
      node depth op.text (expr (depth + 1) l ++ expr (depth + 1) r)
  | .vector _ items => node depth "VECTOR" (exprs (depth + 1) items)
  | .matrix _ rows => node depth "VECTOR" (exprs (depth + 1) rows)
  | .construct _ f dims => node depth f.text (leaf (depth + 1) dims.text)
  | .neg _ e => node depth "-" (expr (depth + 1) e)
  | .transpose _ e => node depth "TRANSPOSE" (expr (depth + 1) e)

def exprs (depth : Nat) : List Expr → List OutlineLine
  | [] => []
  | e :: rest => expr depth e ++ exprs depth rest

end

def range (depth : Nat) (r : Range) : List OutlineLine :=
  node depth "RANGE" (expr (depth + 1) r.start ++ expr (depth + 1) r.stop)

mutual

def stmt (depth : Nat) : Stmt → List OutlineLine
  | .block _ body => stmts depth body
  | .assign _ op p e =>
      node depth op.text (place (depth + 1) p ++ expr (depth + 1) e)
  | .branch _ test yes none =>
      node depth "IF" (expr (depth + 1) test ++ node depth "THEN" (stmt (depth + 1) yes))
  | .branch _ test yes (some no) =>
      node depth "IF" (expr (depth + 1) test ++ node depth "THEN" (stmt (depth + 1) yes)
        ++ node depth "ELSE" (stmt (depth + 1) no))
  | .loop _ test body =>
      node depth "WHILE" (expr (depth + 1) test ++ stmt (depth + 1) body)
  | .count _ var r body =>
      node depth "FOR" (leaf (depth + 1) var ++ range (depth + 1) r ++ stmt (depth + 1) body)
  | .break_ _ => leaf depth "BREAK"
  | .continue_ _ => leaf depth "CONTINUE"
  | .ret _ e => node depth "RETURN" (expr (depth + 1) e)
  | .print _ values => node depth "PRINT" (exprs (depth + 1) values)

def stmts (depth : Nat) : List Stmt → List OutlineLine
  | [] => []
  | s :: rest => stmt depth s ++ stmts depth rest

end

end Outline

def OutlineLine.indented (l : OutlineLine) : String :=
  String.join (List.replicate l.depth "|  ") ++ l.text

def Program.outline (p : Program) : String :=
  "\n".intercalate ((Outline.stmts 0 p).map OutlineLine.indented)

end MatrixLang
