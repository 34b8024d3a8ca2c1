import MatrixLang.Proofs.Run.Signals
import MatrixLang.Proofs.Typing.Reports

/-!
# Loop controls outside of loops

The checker reports a `break` or a `continue` exactly if no loop is around it, in
the order of the text (`checkStmts_strays`). The induction on the tree carries
whether a loop is around. What else is reported of a statement is about its
expressions and its target, and no expression has a loop control in it
(`infer_ofExpressions`).

So a program of which no such report is made keeps its loop controls inside its
loops, and they never end a run (`loop_control_contained`).
-/

namespace MatrixLang

/-! ## What is reported of expressions -/

/-- All of it is about expressions. -/
def OfExpressions (ds : List Diagnostic) : Prop :=
  ∀ d ∈ ds, d.code.ofExpression = true

theorem OfExpressions.of_reports {ds : List Diagnostic}
    (h : Reports (·.code.ofExpression = true) ds) : OfExpressions ds := by
  intro d hd
  obtain ⟨p, line, hp, rfl⟩ := h d hd
  exact hp

variable {symbols : Symbols} {inLoop : Bool}

theorem applyRule_ofExpression {symbol : String} {kind : Kind} {rule : ShapeRule}
    {l r : Option Shape} {p : Problem} (h : applyRule symbol kind rule l r = .error p) :
    p.code.ofExpression = true :=
  applyRule_problem (P := (·.code.ofExpression = true)) (fun _ h _ => h) h

theorem placeType_ofExpressions (line : Nat) (p : Place) :
    OfExpressions (placeType symbols line p).reports :=
  .of_reports (placeType_reports (fun _ h _ => h) line p)

theorem infer_ofExpressions (e : Expr) :
    OfExpressions (infer symbols e).reports :=
  .of_reports (infer_reports (fun _ h _ => h) (.inr fun _ => rfl))

/-! ## What is reported of loop controls -/

/-- The reports about loop controls outside of loops. -/
def strays (ds : List Diagnostic) : List Diagnostic :=
  ds.filter fun d => d.code = .strayLoopControl

@[simp] theorem strays_nil : strays [] = [] := rfl

@[simp] theorem strays_append (ds es : List Diagnostic) :
    strays (ds ++ es) = strays ds ++ strays es :=
  List.filter_append ..

theorem strays_eq_nil {ds : List Diagnostic} :
    strays ds = [] ↔ ∀ d ∈ ds, d.code ≠ .strayLoopControl := by
  simp [strays, List.filter_eq_nil_iff]

theorem OfExpressions.strays {ds : List Diagnostic} (h : OfExpressions ds) :
    strays ds = [] := by
  refine strays_eq_nil.mpr ?_
  intro d hd hcode
  have hexpr := h d hd
  rw [hcode] at hexpr
  cases hexpr

/-- The report of a loop control that stands in no loop. -/
def strayReport (c : LoopControl × Nat) : Diagnostic :=
  (Problem.strayLoopControl c.1).onLine c.2

/-- The reports that are due for loop controls. Inside a loop there are none. -/
def strayReports (inLoop : Bool) (cs : List (LoopControl × Nat)) :
    List Diagnostic :=
  if inLoop then [] else cs.map strayReport

@[simp] theorem strayReports_nil : strayReports inLoop [] = [] := by
  cases inLoop <;> rfl

@[simp] theorem strayReports_append (cs ds : List (LoopControl × Nat)) :
    strayReports inLoop (cs ++ ds) = strayReports inLoop cs ++ strayReports inLoop ds := by
  cases inLoop with
  | true => rfl
  | false => exact List.map_append

@[simp] theorem strayReports_true (cs : List (LoopControl × Nat)) :
    strayReports true cs = [] := rfl

theorem strays_one {p : Problem} (h : p.code ≠ .strayLoopControl) (line : Nat) :
    strays [p.onLine line] = [] := by
  refine strays_eq_nil.mpr ?_
  intro d hd
  obtain rfl := List.mem_singleton.mp hd
  exact h

theorem compound_not_stray {op : AssignOp} {t v : Ty} {p : Problem}
    (h : Ty.compound op t v = .error p) : p.code ≠ .strayLoopControl := by
  unfold Ty.compound at h
  split at h
  · cases h
  · split at h
    · cases h
      exact nofun
    · intro hcode
      have hexpr := applyRule_ofExpression h
      rw [hcode] at hexpr
      cases hexpr

theorem checkVariable_strays (line : Nat) (op : AssignOp) (name : String)
    (value : Option Ty) :
    strays (checkVariable symbols line op name value).reports = [] := by
  unfold checkVariable
  split
  · rfl
  · split
    · rfl
    · split
      · split
        · rfl
        · exact strays_one (compound_not_stray ‹_›) line
      · rfl

theorem checkAssign_strays (line : Nat) (op : AssignOp) (p : Place)
    (value : Option Ty) :
    strays (checkAssign symbols line op p value).reports = [] := by
  cases p with
  | var name => exact checkVariable_strays line op name value
  | item name i => exact (placeType_ofExpressions line (.item name i)).strays
  | cell name i j => exact (placeType_ofExpressions line (.cell name i j)).strays

theorem rangeReports_strays (r : Range) : strays (rangeReports symbols r) = [] := by
  have hbound : ∀ line bound t, strays (boundReport line bound t) = [] := by
    intro line bound t
    unfold boundReport
    split
    · split <;> rfl
    · rfl
  simp [rangeReports, (infer_ofExpressions _).strays, hbound]

theorem checkStmts_strays {body : List Stmt}
    (h : ∀ s ∈ body, ∀ symbols, strays (checkStmt inLoop symbols s).reports
      = strayReports inLoop s.looseControls) (symbols : Symbols) :
    strays (checkStmts inLoop symbols body).reports
      = strayReports inLoop (Stmt.looseControlsAll body) := by
  induction body generalizing symbols with
  | nil => simp [checkStmts, Stmt.looseControlsAll]
  | cons s rest ih =>
      obtain ⟨hs, hrest⟩ := List.forall_mem_cons.mp h
      simp only [checkStmts, Checked.andThen, strays_append, hs, ih hrest,
        Stmt.looseControlsAll, strayReports_append]

/-- Of the loop controls in a statement those are reported that stand in no loop. -/
theorem checkStmt_strays (s : Stmt) (inLoop : Bool) (symbols : Symbols) :
    strays (checkStmt inLoop symbols s).reports
      = strayReports inLoop s.looseControls := by
  induction s generalizing inLoop symbols with
  | block line body ih =>
      exact checkStmts_strays (fun s hs symbols => ih s hs inLoop symbols) symbols
  | assign line op p e =>
      simp only [checkStmt, Checked.andThen, strays_append,
        (infer_ofExpressions e).strays, checkAssign_strays, Stmt.looseControls,
        strayReports_nil, List.append_nil]
  | branch line test yes no ihYes ihNo =>
      cases no with
      | none =>
          simp only [checkStmt, Checked.andThen, strays_append,
            (infer_ofExpressions test).strays, ihYes, Stmt.looseControls,
            List.nil_append]
      | some no =>
          simp only [checkStmt, Checked.andThen, strays_append,
            (infer_ofExpressions test).strays, ihYes, ihNo no rfl,
            Stmt.looseControls, strayReports_append, List.nil_append]
  | loop line test body ih =>
      simp only [checkStmt, Checked.andThen, strays_append,
        (infer_ofExpressions test).strays, ih, Stmt.looseControls, strayReports_true,
        strayReports_nil, List.append_nil]
  | count line var range body ih =>
      simp only [checkStmt, Checked.andThen, strays_append, rangeReports_strays, ih,
        Stmt.looseControls, strayReports_true, strayReports_nil, List.append_nil]
  | break_ line | continue_ line => cases inLoop <;> rfl
  | ret line e =>
      simp only [checkStmt, (infer_ofExpressions e).strays, Stmt.looseControls,
        strayReports_nil]
  | print line values =>
      have hvalues : OfExpressions
          (values.flatMap fun e => (infer symbols e).reports) := by
        intro d hd
        obtain ⟨e, -, he⟩ := List.mem_flatMap.mp hd
        exact infer_ofExpressions e d he
      simp only [checkStmt, hvalues.strays, Stmt.looseControls, strayReports_nil]

/-- **Loop control never escapes a checked program.** The reports about loop
controls are, in the order of the text, one for each `break` and `continue` that
stands in no loop. A program without such a report never ends at a loop control,
and its statements are only skipped when it returned, faulted or was cut off.
Loops never pass a loop control on, whatever they hold, and a returned value goes
through blocks and loops as it is. -/
theorem loop_control_contained (p : Program) (budget : Nat) :
    (∀ symbols, strays (checkFrom symbols p).reports
        = (Stmt.looseControlsAll p).map strayReport)
      ∧ (∀ symbols, (∀ d ∈ (checkFrom symbols p).reports, d.code ≠ .strayLoopControl) →
        ∀ s, (executeAll budget p s).Settled
          ∧ ∀ before after, p = before ++ after →
            (∃ t, executeAll budget before s = .done .normal t
              ∧ executeAll budget p s = executeAll budget after t)
            ∨ (executeAll budget before s).Stopped
              ∧ executeAll budget p s = executeAll budget before s)
      ∧ (∀ line test body s, (execute budget (.loop line test body) s).Settled)
      ∧ (∀ line var range body s,
        (execute budget (.count line var range body) s).Settled)
      ∧ (∀ line body s v u,
        execute budget (.block line body) s = .done (.returned v) u
          ↔ ∃ before stmt after t, body = before ++ stmt :: after
            ∧ executeAll budget before s = .done .normal t
            ∧ execute budget stmt t = .done (.returned v) u)
      ∧ (∀ line test body s v u,
        execute budget (.loop line test body) s = .done (.returned v) u
          ↔ ∃ n t, n < budget
            ∧ WhileRounds (fun t => holds t.memory test) (execute budget body) s n t
            ∧ holds t.memory test = .ok true
            ∧ execute budget body t = .done (.returned v) u)
      ∧ ∀ line var range body s v u,
        execute budget (.count line var range body) s = .done (.returned v) u
          ↔ ∃ a b i t, evaluateRange s.memory range = .ok (a, b) ∧ i ≤ b.toInt
            ∧ CountRounds var (execute budget body) a.toInt s i t
            ∧ execute budget body (t.counting var i) = .done (.returned v) u := by
  have hstrays : ∀ symbols, strays (checkFrom symbols p).reports
      = (Stmt.looseControlsAll p).map strayReport := by
    intro symbols
    exact checkStmts_strays (fun s _ symbols => checkStmt_strays s false symbols)
      symbols
  refine ⟨hstrays, ?_, execute_loop_settled, execute_count_settled, ?_,
    fun _ _ _ _ _ _ => execute_loop_returned,
    fun _ _ _ _ _ _ _ => execute_count_returned⟩
  · intro symbols hclean s
    have hnone : Stmt.looseControlsAll p = [] := by
      have hmap := hstrays symbols
      rw [strays_eq_nil.mpr hclean] at hmap
      exact List.map_eq_nil_iff.mp hmap.symm
    constructor
    · exact executeAll_settled (fun stmt hstmt =>
        execute_settled (Stmt.looseControlsAll_eq_nil.mp hnone stmt hstmt)) s
    · rintro before after rfl
      exact executeAll_split hnone s
  · intro line body s v u
    simp only [execute]
    exact executeAll_returned

/-- `for i = 1:3 { while (i < 2) { if (i == 1) break; else continue; } return i; }`:
both loop controls, in the branches of a loop in a loop. -/
def Sample.search : Program :=
  [.count 1 "i" ⟨1, .int 1 1, .int 1 3⟩ (.block 1 [
    .loop 1 (.compare 1 .lt (.read 1 (.var "i")) (.int 1 2)) (.block 1 [
      .branch 1 (.compare 1 .eq (.read 1 (.var "i")) (.int 1 1))
        (.break_ 1) (some (.continue_ 1))]),
    .ret 1 (.read 1 (.var "i"))])]

theorem loop_control_contained_search :
    (∀ d ∈ (checkFrom .initial Sample.search).reports, d.code ≠ .strayLoopControl)
      ∧ ∀ budget s, (executeAll budget Sample.search s).Settled := by
  have hclean : (checkFrom .initial Sample.search).reports = [] := rfl
  have hnone : ∀ d ∈ (checkFrom .initial Sample.search).reports,
      d.code ≠ .strayLoopControl := by
    rw [hclean]
    exact nofun
  refine ⟨hnone, fun budget s => ?_⟩
  exact ((loop_control_contained Sample.search budget).2.1 .initial hnone s).1

end MatrixLang
