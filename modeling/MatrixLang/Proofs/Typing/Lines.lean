import MatrixLang.Proofs.Lines
import MatrixLang.Proofs.Tree
import MatrixLang.Typing.Check

/-!
# Checking does not look at lines

With other lines in a tree, the checker infers the same types, remembers the same
symbols and reports the same, each report on its new line (`infer_mapLines`,
`checkStmt_mapLines`). All that it does with a line is to put it on a report.
-/

namespace MatrixLang

variable {f : Nat → Nat} {symbols : Symbols}

/-! ## Judgements -/

@[simp] theorem Problem.mapLine_onLine (p : Problem) (line : Nat) :
    (p.onLine line).mapLine f = p.onLine (f line) := rfl

namespace Judgement

variable (f) in
def mapLine (j : Judgement) : Judgement :=
  ⟨j.ty, j.reports.map (Diagnostic.mapLine f)⟩

@[simp] theorem mapLine_ty (j : Judgement) : (j.mapLine f).ty = j.ty := rfl

@[simp] theorem mapLine_reports (j : Judgement) :
    (j.mapLine f).reports = j.reports.map (Diagnostic.mapLine f) := rfl

theorem mapLine_ofExcept (line : Nat) (r : Except Problem Ty) :
    (ofExcept line r).mapLine f = ofExcept (f line) r := by
  cases r <;> rfl

theorem mapLine_bind (j : Judgement) {next next' : Ty → Judgement}
    (h : ∀ t, (next t).mapLine f = next' t) :
    (j.bind next).mapLine f = (j.mapLine f).bind next' := by
  obtain ⟨ty, reports⟩ := j
  cases ty with
  | none => rfl
  | some t => simp only [bind, mapLine, ← h, List.map_append]

theorem mapLine_bind₂ (l r : Judgement) {next next' : Ty → Ty → Judgement}
    (h : ∀ t u, (next t u).mapLine f = next' t u) :
    (l.bind₂ r next).mapLine f = (l.mapLine f).bind₂ (r.mapLine f) next' := by
  obtain ⟨lty, lreports⟩ := l
  obtain ⟨rty, rreports⟩ := r
  cases lty <;> cases rty <;> simp [bind₂, mapLine, ← h]

end Judgement

/-! ## Places -/

@[simp] theorem mapLine_boundsReport (i : Int64) (size : Nat)
    (place : BoundsProblem) (line : Nat) :
    (boundsReport i size place line).map (Diagnostic.mapLine f)
      = boundsReport i size place (f line) := by
  unfold boundsReport
  split <;> rfl

theorem mapLine_itemType (line : Nat) (name : String) (i : Int64) (t : Ty) :
    (itemType line name i t).mapLine f = itemType (f line) name i t := by
  unfold itemType
  split <;> simp [Judgement.mapLine, Judgement.known, Judgement.wrong]

theorem mapLine_cellType (line : Nat) (name : String) (i j : Int64) (t : Ty) :
    (cellType line name i j t).mapLine f = cellType (f line) name i j t := by
  unfold cellType
  split <;> simp [Judgement.mapLine, Judgement.known, Judgement.wrong]

theorem mapLine_placeType (line : Nat) (p : Place) :
    (placeType symbols line p).mapLine f = placeType symbols (f line) p := by
  unfold placeType
  split
  · rfl
  · rfl
  · cases p with
    | var => rfl
    | item name i => exact mapLine_itemType line name i _
    | cell name i j => exact mapLine_cellType line name i j _

/-! ## Literals and constructors -/

@[simp] theorem Expr.rowLength?_mapLines (e : Expr) :
    (e.mapLines f).rowLength? = e.rowLength? := by
  cases e with
  | vector l es =>
      simp only [mapLines, rowLength?, mapLinesAll_eq_map, List.length_map]
  | _ => rfl

theorem filterMap_rowLength?_mapLines (rows : List Expr) :
    (rows.map (Expr.mapLines f)).filterMap Expr.rowLength?
      = rows.filterMap Expr.rowLength? := by
  have heq : Expr.rowLength? ∘ Expr.mapLines f = Expr.rowLength? :=
    funext fun e => e.rowLength?_mapLines
  rw [List.filterMap_map, heq]

@[simp] theorem matrixType_mapLines (rows : List Expr) :
    matrixType (rows.map (Expr.mapLines f)) = matrixType rows := by
  cases rows with
  | nil => rfl
  | cons row rest =>
      have hlengths := filterMap_rowLength?_mapLines (f := f) (row :: rest)
      have hvectors : ((row :: rest).map (Expr.mapLines f)).all Expr.isVector
          = (row :: rest).all Expr.isVector := by
        simp only [List.all_map, Function.comp_def, Expr.isVector_mapLines]
      rw [List.map_cons] at hlengths hvectors ⊢
      simp only [matrixType, hlengths, hvectors, List.length_cons,
        List.length_map, Expr.rowLength?_mapLines]

@[simp] theorem mapLine_raggedReport (line : Nat) (rows : List Expr) :
    (raggedReport line rows).map (Diagnostic.mapLine f)
      = raggedReport (f line) (rows.map (Expr.mapLines f)) := by
  simp only [raggedReport, filterMap_rowLength?_mapLines]
  split <;> rfl

theorem mapLine_constructType (line : Nat) (c : Constructor) (dims : Dims) :
    (constructType line c dims).mapLine f = constructType (f line) c dims := by
  simp only [constructType]
  split <;> rfl

@[simp] theorem mapLine_compareReports (line : Nat) (op : Relation)
    (l r : Option Ty) :
    (compareReports line op l r).map (Diagnostic.mapLine f)
      = compareReports (f line) op l r := by
  unfold compareReports
  split
  · split <;> rfl
  · rfl

theorem mapLine_negType (line : Nat) (t : Ty) :
    (negType line t).mapLine f = negType (f line) t := by
  unfold negType
  split <;> rfl

theorem mapLine_transposeType (line : Nat) (t : Ty) :
    (transposeType line t).mapLine f = transposeType (f line) t := by
  unfold transposeType
  split <;> rfl

@[simp] theorem mapLine_itemReport (line index : Nat) (t : Option Ty) :
    (itemReport line index t).map (Diagnostic.mapLine f)
      = itemReport (f line) index t := by
  unfold itemReport
  split
  · split <;> rfl
  · rfl

/-! ## Expressions -/

theorem itemReports_mapLines {es : List Expr} (i : Nat)
    (h : ∀ e ∈ es, infer symbols (e.mapLines f) = (infer symbols e).mapLine f) :
    itemReports symbols i (es.map (Expr.mapLines f))
      = (itemReports symbols i es).map (Diagnostic.mapLine f) := by
  induction es generalizing i with
  | nil => rfl
  | cons e rest ih =>
      obtain ⟨he, hrest⟩ := List.forall_mem_cons.mp h
      simp only [List.map_cons, itemReports, he, ih (i + 1) hrest,
        Expr.line_mapLines, Judgement.mapLine_ty, Judgement.mapLine_reports,
        List.map_append, mapLine_itemReport]

/-- What is reported of a row is what is reported of it as a vector. -/
theorem rowReport_mapLines {line i : Nat} {e : Expr}
    (h : infer symbols (e.mapLines f) = (infer symbols e).mapLine f) :
    rowReport symbols (f line) i (e.mapLines f)
      = (rowReport symbols line i e).map (Diagnostic.mapLine f) := by
  cases e with
  | vector l es => exact congrArg Judgement.reports h
  | _ => rfl

theorem rowReports_mapLines {rows : List Expr} (line i : Nat)
    (h : ∀ e ∈ rows, infer symbols (e.mapLines f) = (infer symbols e).mapLine f) :
    rowReports symbols (f line) i (rows.map (Expr.mapLines f))
      = (rowReports symbols line i rows).map (Diagnostic.mapLine f) := by
  induction rows generalizing i with
  | nil => rfl
  | cons row rest ih =>
      obtain ⟨hrow, hrest⟩ := List.forall_mem_cons.mp h
      simp only [List.map_cons, rowReports, rowReport_mapLines hrow,
        ih (i + 1) hrest, List.map_append]

/-- Expressions get the same types and the same reports. -/
theorem infer_mapLines (e : Expr) :
    infer symbols (e.mapLines f) = (infer symbols e).mapLine f := by
  induction e with
  | int | float | str => rfl
  | read line p => exact (mapLine_placeType line p).symm
  | binary line op l r ihl ihr =>
      simp only [Expr.mapLines, infer, ihl, ihr]
      exact (Judgement.mapLine_bind₂ _ _ fun t u =>
        Judgement.mapLine_ofExcept line _).symm
  | compare line op l r ihl ihr =>
      simp only [Expr.mapLines, infer, ihl, ihr, Judgement.mapLine,
        List.map_append, mapLine_compareReports]
  | vector line es ih =>
      simp only [Expr.mapLines, infer, Expr.mapLinesAll_eq_map,
        itemReports_mapLines 0 ih, List.length_map, Judgement.mapLine]
  | matrix line rows ih =>
      simp only [Expr.mapLines, infer, Expr.mapLinesAll_eq_map,
        rowReports_mapLines line 0 ih, matrixType_mapLines, Judgement.mapLine,
        List.map_append, mapLine_raggedReport]
  | construct line c dims => exact (mapLine_constructType line c dims).symm
  | neg line e ih =>
      simp only [Expr.mapLines, infer, ih]
      exact (Judgement.mapLine_bind _ (mapLine_negType line)).symm
  | transpose line e ih =>
      simp only [Expr.mapLines, infer, ih]
      exact (Judgement.mapLine_bind _ (mapLine_transposeType line)).symm

/-! ## Statements -/

namespace Checked

variable (f) in
def mapLine (c : Checked) : Checked :=
  ⟨c.symbols, c.reports.map (Diagnostic.mapLine f)⟩

theorem mapLine_andThen (c : Checked) {next next' : Symbols → Checked}
    (h : ∀ s, (next s).mapLine f = next' s) :
    (c.andThen next).mapLine f = (c.mapLine f).andThen next' := by
  simp only [andThen, mapLine, ← h, List.map_append]

end Checked

theorem mapLine_checkVariable (line : Nat) (op : AssignOp) (name : String)
    (value : Option Ty) :
    (checkVariable symbols line op name value).mapLine f
      = checkVariable symbols (f line) op name value := by
  unfold checkVariable
  split
  · rfl
  · split
    · rfl
    · split
      · split <;> rfl
      · rfl

theorem mapLine_checkAssign (line : Nat) (op : AssignOp) (p : Place)
    (value : Option Ty) :
    (checkAssign symbols line op p value).mapLine f
      = checkAssign symbols (f line) op p value := by
  cases p with
  | var name => exact mapLine_checkVariable line op name value
  | item | cell =>
      simp only [checkAssign, Checked.mapLine, ← mapLine_placeType (f := f) line,
        Judgement.mapLine_reports]

@[simp] theorem mapLine_boundReport (line : Nat) (bound : RangeEnd)
    (t : Option Ty) :
    (boundReport line bound t).map (Diagnostic.mapLine f)
      = boundReport (f line) bound t := by
  unfold boundReport
  split
  · split <;> rfl
  · rfl

@[simp] theorem rangeReports_mapLines (r : Range) :
    rangeReports symbols (r.mapLines f)
      = (rangeReports symbols r).map (Diagnostic.mapLine f) := by
  simp only [rangeReports, Range.mapLines, infer_mapLines, Judgement.mapLine_ty,
    Judgement.mapLine_reports, List.map_append, mapLine_boundReport]

theorem mapLine_controlReport (inLoop : Bool) (line : Nat)
    (control : LoopControl) :
    (controlReport inLoop line control).map (Diagnostic.mapLine f)
      = controlReport inLoop (f line) control := by
  unfold controlReport
  split <;> rfl

theorem checkStmts_mapLines {inLoop : Bool} {body : List Stmt}
    (h : ∀ s ∈ body, ∀ inLoop symbols,
      checkStmt inLoop symbols (s.mapLines f)
        = (checkStmt inLoop symbols s).mapLine f) :
    checkStmts inLoop symbols (body.map (Stmt.mapLines f))
      = (checkStmts inLoop symbols body).mapLine f := by
  induction body generalizing symbols with
  | nil => rfl
  | cons s rest ih =>
      obtain ⟨hs, hrest⟩ := List.forall_mem_cons.mp h
      simp only [List.map_cons, checkStmts, hs]
      exact (Checked.mapLine_andThen _ fun _ => (ih hrest).symm).symm

/-- Statements give the same symbols and the same reports. -/
theorem checkStmt_mapLines (s : Stmt) (inLoop : Bool) (symbols : Symbols) :
    checkStmt inLoop symbols (s.mapLines f)
      = (checkStmt inLoop symbols s).mapLine f := by
  induction s generalizing inLoop symbols with
  | block line body ih =>
      rw [Stmt.mapLines, Stmt.mapLinesAll_eq_map]
      exact checkStmts_mapLines ih
  | assign line op p e =>
      simp only [Stmt.mapLines, checkStmt, infer_mapLines]
      rw [Checked.mapLine_andThen _ fun _ => mapLine_checkAssign line op p _]
      rfl
  | branch line test yes no ihYes ihNo =>
      cases no with
      | none =>
          simp only [Stmt.mapLines, checkStmt, infer_mapLines]
          rw [Checked.mapLine_andThen _ fun _ => (ihYes _ _).symm]
          rfl
      | some no =>
          simp only [Stmt.mapLines, checkStmt, infer_mapLines]
          rw [Checked.mapLine_andThen _ fun _ => (ihNo no rfl _ _).symm,
            Checked.mapLine_andThen _ fun _ => (ihYes _ _).symm]
          rfl
  | loop line test body ih =>
      simp only [Stmt.mapLines, checkStmt, infer_mapLines]
      rw [Checked.mapLine_andThen _ fun _ => (ih _ _).symm]
      rfl
  | count line var r body ih =>
      simp only [Stmt.mapLines, checkStmt, rangeReports_mapLines]
      rw [Checked.mapLine_andThen _ fun _ => (ih _ _).symm]
      rfl
  | break_ line | continue_ line =>
      simp only [Stmt.mapLines, checkStmt, Checked.mapLine,
        mapLine_controlReport]
  | ret line e =>
      simp only [Stmt.mapLines, checkStmt, infer_mapLines, Checked.mapLine,
        Judgement.mapLine_reports]
  | print line es =>
      simp only [Stmt.mapLines, checkStmt, Expr.mapLinesAll_eq_map,
        List.flatMap_map, infer_mapLines, Checked.mapLine,
        Judgement.mapLine_reports, List.map_flatMap]

theorem check_mapLines (p : Program) :
    check (p.map (Stmt.mapLines f)) = (check p).map (Diagnostic.mapLine f) :=
  congrArg Checked.reports
    (checkStmts_mapLines fun s _ inLoop symbols => checkStmt_mapLines s inLoop symbols)

end MatrixLang
