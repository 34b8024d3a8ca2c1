import MatrixLang.Proofs.Tree
import MatrixLang.Typing.Check

/-!
# What is reported of expressions

The mistakes that an expression can have are a part of all mistakes
(`Code.ofExpression`), and a row that is no vector is only reported of an
expression that has one. `infer_reports` is the one induction behind both facts:
it collects the reports of an expression for any property of problems that all of
these mistakes have.
-/

namespace MatrixLang

/-- All of them are reports of problems with a property. -/
def Reports (P : Problem → Prop) (ds : List Diagnostic) : Prop :=
  ∀ d ∈ ds, ∃ p line, P p ∧ d = p.onLine line

namespace Reports

variable {P : Problem → Prop} {ds es : List Diagnostic}

theorem nil : Reports P [] := nofun

theorem one {p : Problem} (h : P p) (line : Nat) : Reports P [p.onLine line] := by
  intro d hd
  exact ⟨p, line, h, List.mem_singleton.mp hd⟩

theorem append (hds : Reports P ds) (hes : Reports P es) : Reports P (ds ++ es) := by
  intro d hd
  exact (List.mem_append.mp hd).elim (hds d) (hes d)

theorem ite {Q : Prop} [Decidable Q] (hds : Reports P ds) (hes : Reports P es) :
    Reports P (if Q then ds else es) := by
  split <;> assumption

theorem flatMap {α : Type} {f : α → List Diagnostic} {as : List α}
    (h : ∀ a ∈ as, Reports P (f a)) : Reports P (as.flatMap f) := by
  intro d hd
  obtain ⟨a, ha, hd⟩ := List.mem_flatMap.mp hd
  exact h a ha d hd

end Reports

namespace Judgement

variable {P : Problem → Prop}

theorem bind_reports {j : Judgement} {next : Ty → Judgement}
    (hj : Reports P j.reports) (hnext : ∀ t, Reports P (next t).reports) :
    Reports P (j.bind next).reports := by
  unfold bind
  split
  · exact hj
  · exact hj.append (hnext _)

theorem bind₂_reports {l r : Judgement} {next : Ty → Ty → Judgement}
    (hl : Reports P l.reports) (hr : Reports P r.reports)
    (hnext : ∀ t u, Reports P (next t u).reports) :
    Reports P (l.bind₂ r next).reports := by
  unfold bind₂
  split
  · exact (hl.append hr).append (hnext _ _)
  · exact hl.append hr

end Judgement

/-! ## The mistakes of an expression -/

/-- The mistakes that an expression can have. -/
def Code.ofExpression : Code → Bool
  | .undefinedVariable | .invalidOperands | .incompatibleShapes | .productMismatch
  | .comparesArrays | .notIndexable | .notMatrix | .outOfBounds | .malformedMatrix
  | .nonPositiveSize | .negatedString | .transposedNonMatrix | .nonScalarElement => true
  | _ => false

/-- A mistake other than that a row is no vector. -/
def Problem.besideRows : Problem → Bool
  | .rowNotVector _ => false
  | _ => true

/-- Rows are judged as vector literals, and reported if they are none. -/
theorem rowReports_reports {symbols : Symbols} {P : Problem → Prop}
    {rows : List Expr} (line : Nat)
    (h : ∀ e ∈ rows, Reports P (infer symbols e).reports)
    (hrow : ∀ e ∈ rows, e.isVector = true ∨ ∀ i, P (.rowNotVector i)) (i : Nat) :
    Reports P (rowReports symbols line i rows) := by
  induction rows generalizing i with
  | nil => exact .nil
  | cons row rest ih =>
      obtain ⟨hhere, hrest⟩ := List.forall_mem_cons.mp h
      obtain ⟨hvector, hvectors⟩ := List.forall_mem_cons.mp hrow
      refine .append ?_ (ih hrest hvectors (i + 1))
      cases row with
      | vector l items => simpa only [rowReport, infer] using hhere
      | _ => exact .one (hvector.resolve_left nofun i) line

section

variable {symbols : Symbols} {P : Problem → Prop}
  (hP : ∀ p : Problem, p.code.ofExpression = true →
    p.besideRows = true → P p)

include hP

theorem applyRule_problem {symbol : String} {kind : Kind} {rule : ShapeRule}
    {l r : Option Shape} {p : Problem} (h : applyRule symbol kind rule l r = .error p) :
    P p := by
  unfold applyRule at h
  split at h
  · cases h
  · split at h <;> cases h
    exact hP _ rfl rfl
  · cases h
  · split at h <;> cases h
    exact hP _ rfl rfl
  · cases h

theorem binary_reports (line : Nat) (op : BinaryOp) (t u : Ty) :
    Reports P (Judgement.ofExcept line (Ty.binary op t u)).reports := by
  cases h : Ty.binary op t u with
  | ok v => exact .nil
  | error p =>
      refine .one ?_ line
      unfold Ty.binary at h
      split at h
      · cases h
        exact hP _ rfl rfl
      · exact applyRule_problem hP h

theorem boundsReport_reports (i : Int64) (size : Nat) (place : BoundsProblem)
    (line : Nat) : Reports P (boundsReport i size place line) :=
  .ite (.one (hP _ rfl rfl) line) .nil

theorem placeType_reports (line : Nat) (p : Place) :
    Reports P (placeType symbols line p).reports := by
  unfold placeType
  split
  · exact .one (hP _ rfl rfl) line
  · exact .nil
  · split
    · exact .nil
    · unfold itemType
      split
      · exact boundsReport_reports hP _ _ _ line
      · exact .nil
      · exact boundsReport_reports hP _ _ _ line
      · exact .nil
      · exact .one (hP _ rfl rfl) line
    · unfold cellType
      split
      · exact (boundsReport_reports hP _ _ _ line).append
          (boundsReport_reports hP _ _ _ line)
      · exact .nil
      · exact .one (hP _ rfl rfl) line

theorem compareReports_reports (line : Nat) (op : Relation) (l r : Option Ty) :
    Reports P (compareReports line op l r) := by
  unfold compareReports
  split
  · exact .ite .nil (.one (hP _ rfl rfl) line)
  · exact .nil

theorem itemReports_reports {es : List Expr}
    (h : ∀ e ∈ es, Reports P (infer symbols e).reports) (i : Nat) :
    Reports P (itemReports symbols i es) := by
  induction es generalizing i with
  | nil => exact .nil
  | cons e rest ih =>
      obtain ⟨he, hrest⟩ := List.forall_mem_cons.mp h
      have hitem : Reports P (itemReport e.line i (infer symbols e).ty) := by
        unfold itemReport
        split
        · exact .ite .nil (.one (hP _ rfl rfl) e.line)
        · exact .nil
      exact (he.append hitem).append (ih hrest (i + 1))

/-- What is reported of an expression, where `P` holds of all the mistakes that
it can have. -/
theorem infer_reports {e : Expr}
    (hrow : e.vectorRows = true ∨ ∀ i, P (.rowNotVector i)) :
    Reports P (infer symbols e).reports := by
  induction e with
  | int | float | str => exact .nil
  | read line p => exact placeType_reports hP line p
  | binary line op l r ihl ihr =>
      replace hrow := hrow.imp_left Bool.and_eq_true_iff.mp
      exact Judgement.bind₂_reports (ihl (hrow.imp_left And.left))
        (ihr (hrow.imp_left And.right)) (binary_reports hP line op)
  | compare line op l r ihl ihr =>
      replace hrow := hrow.imp_left Bool.and_eq_true_iff.mp
      exact ((ihl (hrow.imp_left And.left)).append
        (ihr (hrow.imp_left And.right))).append (compareReports_reports hP line op _ _)
  | vector line items ih =>
      refine itemReports_reports hP (fun e he => ih e he ?_) 0
      exact hrow.imp_left fun h => Expr.vectorRowsAll_iff.mp h e he
  | matrix line rows ih =>
      replace hrow := hrow.imp_left Expr.vectorRows_matrix.mp
      have hrows := rowReports_reports line
        (fun e he => ih e he (hrow.imp_left fun h => h.2 e he))
        (fun e he => hrow.imp_left fun h => h.1 e he) 0
      exact hrows.append (.ite (.one (hP _ rfl rfl) line) .nil)
  | construct line f dims =>
      simp only [infer, constructType]
      split
      · exact .nil
      · exact .one (hP _ rfl rfl) line
  | neg line e ih =>
      refine Judgement.bind_reports (ih hrow) fun t => ?_
      unfold negType
      split
      · exact .one (hP _ rfl rfl) line
      · exact .nil
  | transpose line e ih =>
      refine Judgement.bind_reports (ih hrow) fun t => ?_
      unfold transposeType
      split
      · exact .nil
      · exact .one (hP _ rfl rfl) line

end

end MatrixLang
