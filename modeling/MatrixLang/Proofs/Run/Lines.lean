import MatrixLang.Proofs.Except
import MatrixLang.Proofs.Lines
import MatrixLang.Proofs.Tree
import MatrixLang.Run.Execute

/-!
# Running does not look at lines

With other lines in a tree, expressions have the same values and statements leave
the same states; a fault is the same too, on its new line, and so is a crash
(`evaluate_mapLines`, `execute_mapLines`). So the memory, what is printed and how often each loop goes
round do not depend on lines.
-/

namespace MatrixLang

variable {f : Nat → Nat}

/-! ## Expressions -/

theorem mapError_onLine {α : Type} (line : Nat) (r : Except Fault α) :
    (Fault.onLine line r).mapError (Halt.mapLine f)
      = Fault.onLine (f line) r := by
  cases r <;> rfl

theorem mapError_haltOnLine {α : Type} (line : Nat) (r : Except (Halt Fault) α) :
    (Halt.onLine line r).mapError (Halt.mapLine f)
      = Halt.onLine (f line) r := by
  cases r with
  | ok a => rfl
  | error halt => cases halt <;> rfl

theorem evaluateItems_mapLines {m : Memory} {es : List Expr}
    (h : ∀ e ∈ es, evaluate m (e.mapLines f)
      = (evaluate m e).mapError (Halt.mapLine f)) :
    evaluateItems m (es.map (Expr.mapLines f))
      = (evaluateItems m es).mapError (Halt.mapLine f) := by
  rw [evaluateItems_eq_mapM, evaluateItems_eq_mapM]
  refine mapM_mapError fun e he => ?_
  simp only [h e he, Expr.line_mapLines, mapError_bind, mapError_onLine]

theorem evaluateRows_mapLines {m : Memory} {es : List Expr}
    (h : ∀ e ∈ es, evaluate m (e.mapLines f)
      = (evaluate m e).mapError (Halt.mapLine f)) :
    evaluateRows m (es.map (Expr.mapLines f))
      = (evaluateRows m es).mapError (Halt.mapLine f) := by
  rw [evaluateRows_eq_mapM, evaluateRows_eq_mapM]
  refine mapM_mapError fun e he => ?_
  simp only [h e he, Expr.line_mapLines, mapError_bind, mapError_onLine]

/-- Expressions have the same values, the same faults and the same crashes. -/
theorem evaluate_mapLines (m : Memory) (e : Expr) :
    evaluate m (e.mapLines f)
      = (evaluate m e).mapError (Halt.mapLine f) := by
  induction e with
  | int | float | str => rfl
  | read line p => exact (mapError_onLine line _).symm
  | binary line op l r ihl ihr =>
      simp only [Expr.mapLines, evaluate, ihl, ihr, mapError_bind,
        mapError_haltOnLine]
  | compare line op l r ihl ihr =>
      simp only [Expr.mapLines, evaluate, ihl, ihr, mapError_bind,
        mapError_onLine]
  | vector line es ih =>
      simp only [Expr.mapLines, evaluate, Expr.mapLinesAll_eq_map,
        evaluateItems_mapLines ih, mapError_bind]
      rfl
  | matrix line rows ih =>
      simp only [Expr.mapLines, evaluate, Expr.mapLinesAll_eq_map,
        evaluateRows_mapLines ih, mapError_bind, mapError_onLine]
      rfl
  | construct line c dims =>
      simp only [Expr.mapLines, evaluate, mapError_bind, mapError_onLine]
      rfl
  | neg line e ih | transpose line e ih =>
      simp only [Expr.mapLines, evaluate, ih, mapError_bind, mapError_onLine]

theorem holds_mapLines (m : Memory) (e : Expr) :
    holds m (e.mapLines f) = (holds m e).mapError (Halt.mapLine f) := by
  simp only [holds, evaluate_mapLines, Expr.line_mapLines, mapError_bind,
    mapError_onLine]

theorem evaluateRange_mapLines (m : Memory) (r : Range) :
    evaluateRange m (r.mapLines f)
      = (evaluateRange m r).mapError (Halt.mapLine f) := by
  simp only [evaluateRange, Range.mapLines, evaluate_mapLines, mapError_bind,
    mapError_onLine]

theorem printed_mapLines (m : Memory) (es : List Expr) :
    printed m (es.map (Expr.mapLines f))
      = (printed m es).mapError (Halt.mapLine f) := by
  have hvalues : (es.map (Expr.mapLines f)).mapM (evaluate m)
      = (es.mapM (evaluate m)).mapError (Halt.mapLine f) :=
    mapM_mapError fun e _ => evaluate_mapLines m e
  simp only [printed, hvalues, mapError_bind]
  rfl

/-! ## Loops -/

namespace Outcome

variable (f) in
def mapLine : Outcome → Outcome
  | .done signal s => .done signal s
  | .halted halt s => .halted (halt.mapLine f) s
  | .cutOff s => .cutOff s

theorem mapLine_ofExcept (s : State) (r : Except (Halt RunError) State) :
    ofExcept s (r.mapError (Halt.mapLine f))
      = (ofExcept s r).mapLine f := by
  cases r <;> rfl

@[simp] theorem state_mapLine (o : Outcome) : (o.mapLine f).state = o.state := by
  cases o <;> rfl

end Outcome

section

variable {body body' : State → Outcome}
  (hbody : ∀ s, body' s = (body s).mapLine f)

include hbody

theorem whileLoop_mapLine {test test' : State → Except (Halt RunError) Bool}
    (htest : ∀ s, test' s = (test s).mapError (Halt.mapLine f))
    (budget : Nat) (s : State) :
    whileLoop test' body' budget s = (whileLoop test body budget s).mapLine f := by
  induction budget generalizing s with
  | zero => rfl
  | succ budget ih =>
      unfold whileLoop
      rw [htest, hbody]
      cases test s with
      | error e => rfl
      | ok b =>
          cases b with
          | false => rfl
          | true =>
              cases body s with
              | done signal t => cases signal <;> first | rfl | exact ih t
              | halted | cutOff => rfl

theorem countLoop_mapLine (var : String) (rounds : Nat) (i : Int) (s : State) :
    countLoop var body' rounds i s = (countLoop var body rounds i s).mapLine f := by
  induction rounds generalizing i s with
  | zero => rfl
  | succ rounds ih =>
      unfold countLoop
      rw [hbody]
      cases body { s with memory := s.memory.assign var (.int (Int64.ofInt i)) } with
      | done signal t => cases signal <;> first | rfl | exact ih (i + 1) t
      | halted | cutOff => rfl

end

/-! ## Statements -/

theorem assign_mapLines (line : Nat) (op : AssignOp) (p : Place) (e : Expr)
    (s : State) :
    assign (f line) op p (e.mapLines f) s
      = (assign line op p e s).mapError (Halt.mapLine f) := by
  simp only [assign, evaluate_mapLines, mapError_bind, mapError_onLine]
  rfl

theorem print_mapLines (es : List Expr) (s : State) :
    print (es.map (Expr.mapLines f)) s
      = (print es s).mapError (Halt.mapLine f) := by
  simp only [print, printed_mapLines, mapError_bind]
  rfl

theorem executeAll_mapLines {budget : Nat} {body : List Stmt}
    (h : ∀ stmt ∈ body, ∀ s,
      execute budget (stmt.mapLines f) s = (execute budget stmt s).mapLine f)
    (s : State) :
    executeAll budget (body.map (Stmt.mapLines f)) s
      = (executeAll budget body s).mapLine f := by
  induction body generalizing s with
  | nil => rfl
  | cons stmt rest ih =>
      obtain ⟨hstmt, hrest⟩ := List.forall_mem_cons.mp h
      simp only [List.map_cons, executeAll, hstmt]
      cases execute budget stmt s with
      | done signal t => cases signal <;> first | rfl | exact ih hrest t
      | halted | cutOff => rfl

/-- Statements leave the same states and end in the same ways. -/
theorem execute_mapLines (budget : Nat) (stmt : Stmt) (s : State) :
    execute budget (stmt.mapLines f) s = (execute budget stmt s).mapLine f := by
  induction stmt generalizing s with
  | block line body ih =>
      rw [Stmt.mapLines, Stmt.mapLinesAll_eq_map]
      exact executeAll_mapLines ih s
  | assign line op p e =>
      rw [Stmt.mapLines, execute, assign_mapLines, Outcome.mapLine_ofExcept,
        execute]
  | branch line test yes no ihYes ihNo =>
      cases no with
      | none =>
          simp only [Stmt.mapLines, execute, holds_mapLines]
          cases holds s.memory test with
          | error e => rfl
          | ok b => cases b <;> first | rfl | exact ihYes s
      | some no =>
          simp only [Stmt.mapLines, execute, holds_mapLines]
          cases holds s.memory test with
          | error e => rfl
          | ok b =>
              cases b with
              | true => exact ihYes s
              | false => exact ihNo no rfl s
  | loop line test body ih =>
      simp only [Stmt.mapLines, execute]
      exact whileLoop_mapLine ih (fun t => holds_mapLines t.memory test) budget s
  | count line var r body ih =>
      simp only [Stmt.mapLines, execute, evaluateRange_mapLines]
      cases evaluateRange s.memory r with
      | error e => rfl
      | ok bounds => exact countLoop_mapLine ih var _ _ s
  | break_ | continue_ => rfl
  | ret line e =>
      simp only [Stmt.mapLines, execute, evaluate_mapLines]
      cases evaluate s.memory e <;> rfl
  | print line es =>
      rw [Stmt.mapLines, Expr.mapLinesAll_eq_map, execute, print_mapLines,
        Outcome.mapLine_ofExcept, execute]

/-! ## Programs -/

variable (f) in
def Ending.mapLine : Ending → Ending
  | .finished v => .finished v
  | .halted halt => .halted (halt.mapLine f)
  | .cutOff => .cutOff

theorem Outcome.ending_mapLine (o : Outcome) :
    (o.mapLine f).ending = o.ending.mapLine f := by
  cases o with
  | done signal s => cases signal <;> rfl
  | halted | cutOff => rfl

theorem runFrom_mapLines (budget : Nat) (m : Memory) (p : Program) :
    runFrom budget m (p.map (Stmt.mapLines f))
      = (runFrom budget m p).mapLine f :=
  executeAll_mapLines (fun stmt _ s => execute_mapLines budget stmt s) ⟨m, .empty⟩

end MatrixLang
