import MatrixLang.Proofs.Run.Visits
import MatrixLang.Proofs.Typing.Step
import MatrixLang.Run.Report

/-!
# Checked programs without branches and loops

Along a straight line the checker and the run go through the same statements in
the same order, so that what is remembered of the variables is true of their
values at every point. The induction is on the list of statements; its invariant
is that the memory agrees with the symbols on all names, in the exact reading of
the numeric kinds (`executeAll_straight`). The main theorem is
`clean_straight_run`. The checker does not look at the sizes of a product, so such a
run may also crash (`clean_straight_run_noRoom`).
-/

namespace MatrixLang

namespace Stmt

mutual

/-- Only blocks, assignments, `print` and `return`. -/
def isStraight : Stmt → Bool
  | .block _ body => areStraight body
  | .assign _ _ _ _ | .ret _ _ | .print _ _ => true
  | .branch _ _ _ _ | .loop _ _ _ | .count _ _ _ _ | .break_ _ | .continue_ _ =>
      false

def areStraight : List Stmt → Bool
  | [] => true
  | s :: rest => s.isStraight && areStraight rest

end

theorem areStraight_iff {body : List Stmt} :
    areStraight body = true ↔ ∀ s ∈ body, s.isStraight = true := by
  induction body with
  | nil => simp [areStraight]
  | cons s rest ih => simp [areStraight, ih]

end Stmt

variable {budget : Nat} {inLoop : Bool} {symbols : Symbols}

/-- How a straight-line statement ends that was checked: what is remembered after
it is true, or it returned, or it has a permitted fault, or it crashed at a product for
which there is no room. -/
def Outcome.Straight (budget : Nat) (symbols : Symbols) (stmt : Stmt)
    (s : State) : Outcome → Prop
  | .done .normal t => ∀ x, t.memory.Agrees .exact symbols x
  | .done (.returned _) _ => True
  | .halted halt t => Blamed Stmt.MayHalt budget stmt s halt t
  | .done .break_ _ | .done .continue_ _ | .cutOff _ => False

theorem Outcome.Straight.imp {stmt stmt' : Stmt} {s s' : State} {o : Outcome}
    (h : o.Straight budget symbols stmt s) {after : Symbols}
    (hnormal : ∀ t, o = .done .normal t → ∀ x, t.memory.Agrees .exact after x)
    (hv : ∀ {c u}, Visits budget stmt s c u → Visits budget stmt' s' c u) :
    o.Straight budget after stmt' s' := by
  cases o with
  | done signal t =>
      cases signal with
      | normal => exact hnormal t rfl
      | returned v => trivial
      | break_ | continue_ => exact h
  | halted halt t => exact Blamed.imp h hv
  | cutOff t => exact h

/-! ## One statement -/

/-- A step that is a computation on the state. -/
theorem Outcome.Straight.of_step {stmt : Stmt} {s : State}
    {x : Except (Halt RunError) State} {after : Symbols}
    (hexec : execute budget stmt s = .ofExcept s x)
    (hx : Settles (stmt.MayHalt s) (fun t => ∀ y, t.memory.Agrees .exact after y) x) :
    (execute budget stmt s).Straight budget after stmt s := by
  rw [hexec]
  cases x with
  | ok t => exact hx
  | error e => exact ⟨stmt, .here, hexec, hx⟩

theorem execute_assign_straight {line : Nat} {op : AssignOp} {place : Place}
    {e : Expr} {s : State}
    (hclean : (checkStmt inLoop symbols (.assign line op place e)).reports = [])
    (hagree : ∀ x, s.memory.Agrees .exact symbols x) :
    (execute budget (.assign line op place e) s).Straight budget
      (checkStmt inLoop symbols (.assign line op place e)).symbols
      (.assign line op place e) s := by
  obtain ⟨r, hr, hstep⟩ := assign_settles (fun x _ => hagree x) hclean
  refine .of_step (by simp only [execute]) ((hstep.crashing fun c => assign_crash).mono ?_)
  rintro t ⟨w, rfl, hw⟩ x ty hty
  by_cases hx : place.name = x
  · subst hx
    obtain rfl := Option.some.inj (hr.symm.trans hty)
    refine ⟨r, w, rfl, ?_, hw⟩
    rw [Scopes.get?_assign, if_pos rfl]
  · have hbefore : symbols.get? x = some ty := by
      rw [← hty]
      exact (checkAssign_get?_ne hx).symm
    obtain ⟨t, v, ht, hv, hfit⟩ := hagree x ty hbefore
    refine ⟨t, v, ht, ?_, hfit⟩
    rw [Scopes.get?_assign, if_neg hx]
    exact hv

theorem execute_print_straight {line : Nat} {values : List Expr} {s : State}
    (hclean : (checkStmt inLoop symbols (.print line values)).reports = [])
    (hagree : ∀ x, s.memory.Agrees .exact symbols x) :
    (execute budget (.print line values) s).Straight budget symbols
    (.print line values) s := by
  simp only [checkStmt, List.flatMap_eq_nil_iff] at hclean
  have heval : ∀ e ∈ values, e.Evaluates .exact s.memory symbols := by
    intro e he
    exact Expr.evaluates (fun x _ => hagree x) (hclean e he)
  refine .of_step (by simp only [execute])
    (((print_settles heval).permits.crashing fun c => print_crash).mono ?_)
  intro t ht x
  rw [ht]
  exact hagree x

theorem execute_ret_straight {line : Nat} {e : Expr} {s : State}
    (hclean : (checkStmt inLoop symbols (.ret line e)).reports = [])
    (hagree : ∀ x, s.memory.Agrees .exact symbols x) :
    (execute budget (.ret line e) s).Straight budget symbols
    (.ret line e) s := by
  simp only [checkStmt] at hclean
  obtain ⟨t, -, -, heval⟩ := Expr.evaluates (fun x _ => hagree x) hclean
  have hvalue : Settles ((Stmt.ret line e).MayHalt s) _ (evaluate s.memory e) :=
    heval.permits.crashing fun c hc => ⟨e, List.mem_cons_self, Expr.crowded_of_crash hc⟩
  cases hexec : evaluate s.memory e with
  | ok v => simp only [execute, hexec]; trivial
  | error halt =>
      have hhalt : execute budget (.ret line e) s = .halted halt s := by
        simp only [execute, hexec]
      rw [hhalt]
      exact ⟨_, .here, hhalt, hvalue.fails hexec⟩

/-! ## Statements one after another -/

/-- A statement that was checked against true symbols ends well. -/
def Stmt.RunsStraight (budget : Nat) (inLoop : Bool) (stmt : Stmt) : Prop :=
  ∀ symbols s, (checkStmt inLoop symbols stmt).reports = [] →
    (∀ x, s.memory.Agrees .exact symbols x) →
    (execute budget stmt s).Straight budget
      (checkStmt inLoop symbols stmt).symbols stmt s

/-- `before` is what was executed already. -/
theorem executeAll_straight {line : Nat} {s : State} :
    ∀ (body before : List Stmt) (symbols : Symbols) (t : State),
      executeAll budget before s = .done .normal t →
      (∀ stmt ∈ body, stmt.RunsStraight budget inLoop) →
      (checkStmts inLoop symbols body).reports = [] →
      (∀ x, t.memory.Agrees .exact symbols x) →
      (executeAll budget body t).Straight budget
        (checkStmts inLoop symbols body).symbols (.block line (before ++ body)) s := by
  intro body
  induction body with
  | nil => exact fun before symbols t _ _ _ hagree => hagree
  | cons stmt rest ih =>
      intro before symbols t hbefore hbody hclean hagree
      obtain ⟨hstmt, hrest⟩ := List.forall_mem_cons.mp hbody
      simp only [checkStmts, Checked.andThen,
        List.append_eq_nil_iff] at hclean ⊢
      have hfirst := hstmt symbols t hclean.1 hagree
      simp only [executeAll]
      split
      · rename_i u hexec
        have hbefore' : executeAll budget (before ++ [stmt]) s
            = .done .normal u := by
          simp only [executeAll_append, hbefore, executeAll, hexec]
        rw [hexec] at hfirst
        rw [List.append_cons]
        exact ih (before ++ [stmt]) _ u hbefore' hrest hclean.2 hfirst
      · rename_i hne
        exact hfirst.imp (fun u hu => absurd hu (hne u)) (.block hbefore)

theorem Stmt.runsStraight (budget : Nat) (inLoop : Bool) {stmt : Stmt}
    (h : stmt.isStraight = true) : stmt.RunsStraight budget inLoop := by
  induction stmt with
  | block line body ih =>
      intro symbols s hclean hagree
      rw [isStraight, areStraight_iff] at h
      simp only [execute, checkStmt] at hclean ⊢
      have hbody : ∀ stmt ∈ body, stmt.RunsStraight budget inLoop :=
        fun stmt hs => ih stmt hs (h stmt hs)
      exact executeAll_straight body [] symbols s rfl hbody hclean hagree
  | assign line op place e => exact fun symbols s => execute_assign_straight
  | print line values => exact fun symbols s => execute_print_straight
  | ret line e => exact fun symbols s => execute_ret_straight
  | branch | loop | count | break_ | continue_ => cases h

/-! ## Programs -/

theorem review_clean {source : String} (h : (review source).diagnostics = []) :
    check (review source).program = [] := by
  simp only [review] at h ⊢
  split at h
  · exact h
  · rename_i hne
    simp only [h, List.isEmpty_nil, not_true_eq_false] at hne

theorem Memory.initial_agrees (x : String) :
    Memory.initial.Agrees .exact .initial x := by
  intro ty hty
  rw [Symbols.initial, Scopes.get?_empty] at hty
  cases hty

/-- **Checked programs without branches and loops run.** They end by themselves or in a
permitted fault of one of their statements, and they crash nowhere but at a product for
which there is no room; at a normal end every recorded type is that of the variable's
value. -/
theorem clean_straight_run (budget : Nat) (source : String)
    (hstraight : Stmt.areStraight (review source).program = true)
    (hclean : (review source).diagnostics = []) :
    (runFrom budget .initial (review source).program).Straight budget
      (checkFrom .initial (review source).program).symbols
      (.block 0 (review source).program) ⟨.initial, .empty⟩ := by
  have hblock : (Stmt.block 0 (review source).program).isStraight = true :=
    hstraight
  have hrun := Stmt.runsStraight budget false hblock .initial ⟨.initial, .empty⟩
  simp only [checkStmt, execute] at hrun
  exact hrun (review_clean hclean) Memory.initial_agrees

/-- A vector is read, multiplied and written, and a matrix by its transpose. -/
theorem clean_straight_run_arrays :
    let source := "v = [1, 2.5]; v[0] = 3; m = eye(2); m *= m'; x = v[1] * 2; print v .* v, x;"
    let p := (review source).program
    (runFrom 0 .initial p).Straight 0 (checkFrom .initial p).symbols (.block 0 p)
      ⟨.initial, .empty⟩ :=
  clean_straight_run 0 _ (by decide +kernel)
    (List.isEmpty_iff.mp (by decide +kernel))

/-- A matrix without rows and its transpose, which has no columns. The run neither ends by
itself nor faults. -/
theorem clean_straight_run_noRoom :
    let source := "B = [[]]' * zeros(1, 1073741824);\nC = B' * B;"
    Stmt.areStraight (review source).program = true ∧ (review source).diagnostics = []
      ∧ (runSource 0 source).crash? = some .noRoom :=
  ⟨by decide +kernel, List.isEmpty_iff.mp (by decide +kernel), by decide +kernel⟩

end MatrixLang
