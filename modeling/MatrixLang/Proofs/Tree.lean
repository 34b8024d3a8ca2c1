import MatrixLang.Tree.Basic

/-!
# Induction over trees

Expressions and statements hold lists of their own kind. The principles here
give the hypothesis for every member of such a list, so that a proof about
trees names one case per constructor and needs no second statement about lists
(`Expr.induct`, `Stmt.induct`).

The second part collects what occurs in a tree: the names that it reads, writes
and counts its loops with, and the expressions of a statement by itself. An
expression may hold a matrix literal with rows that are no vectors; whether all
of them are is `Expr.vectorRows`.
-/

namespace MatrixLang

/-! ## Expressions -/

@[elab_as_elim, induction_eliminator]
theorem Expr.induct {motive : Expr → Prop}
    (int : ∀ line value, motive (.int line value))
    (float : ∀ line value, motive (.float line value))
    (str : ∀ line value, motive (.str line value))
    (read : ∀ line place, motive (.read line place))
    (binary : ∀ line op left right, motive left → motive right →
      motive (.binary line op left right))
    (compare : ∀ line op left right, motive left → motive right →
      motive (.compare line op left right))
    (vector : ∀ line items, (∀ e ∈ items, motive e) → motive (.vector line items))
    (matrix : ∀ line rows, (∀ e ∈ rows, motive e) → motive (.matrix line rows))
    (construct : ∀ line f dims, motive (.construct line f dims))
    (neg : ∀ line operand, motive operand → motive (.neg line operand))
    (transpose : ∀ line operand, motive operand → motive (.transpose line operand))
    (e : Expr) : motive e :=
  @Expr.rec motive (fun es => ∀ e ∈ es, motive e)
    int float str read binary compare vector matrix construct neg transpose
    (fun _ h => absurd h List.not_mem_nil)
    (fun _ _ hd tl _ h => (List.mem_cons.mp h).elim (fun h => h ▸ hd) (tl _))
    e

/-! ## Statements -/

@[elab_as_elim, induction_eliminator]
theorem Stmt.induct {motive : Stmt → Prop}
    (block : ∀ line body, (∀ s ∈ body, motive s) → motive (.block line body))
    (assign : ∀ line op place value, motive (.assign line op place value))
    (branch : ∀ line test yes no, motive yes → (∀ s ∈ no, motive s) →
      motive (.branch line test yes no))
    (loop : ∀ line test body, motive body → motive (.loop line test body))
    (count : ∀ line var range body, motive body →
      motive (.count line var range body))
    (break_ : ∀ line, motive (.break_ line))
    (continue_ : ∀ line, motive (.continue_ line))
    (ret : ∀ line value, motive (.ret line value))
    (print : ∀ line values, motive (.print line values))
    (s : Stmt) : motive s :=
  @Stmt.rec motive (fun body => ∀ s ∈ body, motive s) (fun no => ∀ s ∈ no, motive s)
    block assign branch loop count break_ continue_ ret print
    (fun _ h => absurd h List.not_mem_nil)
    (fun _ _ hd tl _ h => (List.mem_cons.mp h).elim (fun h => h ▸ hd) (tl _))
    (fun _ h => absurd h (Option.not_mem_none _))
    (fun _ hs _ h => Option.mem_some.mp h ▸ hs)
    s

/-! ## Rows -/

namespace Expr

mutual

/-- Every row of a matrix literal in the expression is a vector literal. -/
def vectorRows : Expr → Bool
  | .int _ _ | .float _ _ | .str _ _ | .read _ _ | .construct _ _ _ => true
  | .binary _ _ l r | .compare _ _ l r => l.vectorRows && r.vectorRows
  | .vector _ es => vectorRowsAll es
  | .matrix _ rows => rows.all isVector && vectorRowsAll rows
  | .neg _ e | .transpose _ e => e.vectorRows

def vectorRowsAll : List Expr → Bool
  | [] => true
  | e :: rest => e.vectorRows && vectorRowsAll rest

end

theorem vectorRowsAll_iff {es : List Expr} :
    vectorRowsAll es = true ↔ ∀ e ∈ es, e.vectorRows = true := by
  induction es with
  | nil => simp [vectorRowsAll]
  | cons e rest ih => simp [vectorRowsAll, ih]

theorem vectorRows_matrix {line : Nat} {rows : List Expr} :
    (matrix line rows).vectorRows = true ↔
      (∀ e ∈ rows, e.isVector = true) ∧ ∀ e ∈ rows, e.vectorRows = true := by
  rw [vectorRows, Bool.and_eq_true, List.all_eq_true, vectorRowsAll_iff]

end Expr

/-- The expressions in a statement itself, without those in the statements that
it holds. -/
def Stmt.exprs : Stmt → List Expr
  | .assign _ _ _ e | .ret _ e => [e]
  | .branch _ test _ _ | .loop _ test _ => [test]
  | .count _ _ r _ => [r.start, r.stop]
  | .print _ es => es
  | .block .. | .break_ _ | .continue_ _ => []

/-! ## Names -/

namespace Expr

mutual

/-- The variables that an expression reads. -/
def names : Expr → List String
  | .int _ _ | .float _ _ | .str _ _ | .construct _ _ _ => []
  | .read _ p => [p.name]
  | .binary _ _ l r | .compare _ _ l r => l.names ++ r.names
  | .vector _ es | .matrix _ es => namesAll es
  | .neg _ e | .transpose _ e => e.names

def namesAll : List Expr → List String
  | [] => []
  | e :: rest => e.names ++ namesAll rest

end

theorem mem_namesAll {x : String} {es : List Expr} :
    x ∈ namesAll es ↔ ∃ e ∈ es, x ∈ e.names := by
  induction es with
  | nil => simp [namesAll]
  | cons e rest ih => simp [namesAll, ih]

end Expr

namespace Stmt

mutual

/-- The variables that occur in a statement, as what is read, written or
counted. -/
def names : Stmt → List String
  | .block _ body => namesAll body
  | .assign _ _ p e => p.name :: e.names
  | .branch _ test yes none => test.names ++ yes.names
  | .branch _ test yes (some no) => test.names ++ yes.names ++ no.names
  | .loop _ test body => test.names ++ body.names
  | .count _ var r body => var :: (r.start.names ++ r.stop.names ++ body.names)
  | .break_ _ | .continue_ _ => []
  | .ret _ e => e.names
  | .print _ es => Expr.namesAll es

def namesAll : List Stmt → List String
  | [] => []
  | s :: rest => s.names ++ namesAll rest

end

end Stmt

end MatrixLang
