import MatrixLang.Proofs.Tree
import MatrixLang.Typing.Check

/-!
# What the silence of the checker says

The reports on an expression are those on its parts and those on itself. Here
an empty list of reports is taken apart: nothing is wrong with any item of a
vector literal (`itemReports_eq_nil`), every row of a matrix literal is a vector
literal (`rowReports_eq_nil`), and all rows have the same length
(`rowLength_eq_of_raggedReport`). An index that is not reported lies on its
axis (`boundsReport_eq_nil`).
-/

namespace MatrixLang

/-! ## Places -/

theorem boundsReport_eq_nil {i : Int64} {size : Nat} {place : BoundsProblem}
    {line : Nat} :
    boundsReport i size place line = [] ↔ 0 ≤ i.toInt ∧ i.toInt < size := by
  simp only [boundsReport, outside, Bool.not_eq_true', Bool.and_eq_false_iff,
    decide_eq_false_iff_not]
  split
  · rename_i hout
    simp only [reduceCtorEq, false_iff]
    omega
  · rename_i hin
    simp only [true_iff]
    omega

/-! ## Different lengths -/

theorem mem_insertDistinct {a n : Nat} {l : List Nat} :
    a ∈ insertDistinct n l ↔ a = n ∨ a ∈ l := by
  induction l with
  | nil => simp [insertDistinct]
  | cons m rest ih =>
      simp only [insertDistinct]
      split
      · simp
      · split
        · rename_i heq
          simp [heq]
        · simp only [List.mem_cons, ih]
          exact or_left_comm

theorem mem_distinct {a : Nat} {l : List Nat} : a ∈ distinct l ↔ a ∈ l := by
  induction l with
  | nil => simp [distinct]
  | cons n rest ih =>
      rw [distinct, List.foldr_cons, mem_insertDistinct, List.mem_cons]
      exact or_congr_right ih

theorem eq_of_length_distinct_le_one {a b : Nat} {l : List Nat}
    (h : (distinct l).length ≤ 1) (ha : a ∈ l) (hb : b ∈ l) : a = b := by
  have ha' := mem_distinct.mpr ha
  have hb' := mem_distinct.mpr hb
  obtain ⟨c, hc⟩ := List.length_eq_one_iff.mp
    (Nat.le_antisymm h (List.length_pos_of_mem ha'))
  rw [hc, List.mem_singleton] at ha' hb'
  exact ha'.trans hb'.symm

/-! ## Literals -/

theorem itemReport_eq_nil {line index : Nat} {t : Option Ty} :
    itemReport line index t = []
      ↔ ∀ u, t = some u → u.kind.isNumeric = true := by
  cases t with
  | none => simp [itemReport]
  | some u => by_cases h : u.kind.isNumeric <;> simp [itemReport, h]

theorem itemReports_eq_nil {symbols : Symbols} {items : List Expr} {i : Nat} :
    itemReports symbols i items = [] ↔ ∀ e ∈ items, (infer symbols e).reports = []
      ∧ ∀ t, (infer symbols e).ty = some t → t.kind.isNumeric = true := by
  induction items generalizing i with
  | nil => simp [itemReports]
  | cons e rest ih =>
      simp only [itemReports, List.append_eq_nil_iff, itemReport_eq_nil, ih,
        List.forall_mem_cons]

/-- The rows of a matrix literal are judged as the vector literals that they have
to be. -/
theorem rowReports_eq_nil {symbols : Symbols} {line i : Nat}
    {rows : List Expr} :
    rowReports symbols line i rows = [] ↔
      ∀ row ∈ rows, row.isVector = true ∧ (infer symbols row).reports = [] := by
  have hrow : ∀ (row : Expr) (i : Nat), rowReport symbols line i row = [] ↔
      row.isVector = true ∧ (infer symbols row).reports = [] := by
    intro row i
    cases row <;> simp [rowReport, Expr.isVector, infer]
  induction rows generalizing i with
  | nil => simp [rowReports]
  | cons row rest ih =>
      simp only [rowReports, List.append_eq_nil_iff, hrow, ih,
        List.forall_mem_cons]

theorem length_distinct_of_raggedReport {line : Nat} {rows : List Expr}
    (h : raggedReport line rows = []) :
    (distinct (rows.filterMap Expr.rowLength?)).length ≤ 1 := by
  simp only [raggedReport] at h
  split at h
  · cases h
  · omega

theorem rowLength_eq_of_raggedReport {line m n : Nat} {rows : List Expr}
    {row row' : Expr} (h : raggedReport line rows = []) (hrow : row ∈ rows)
    (hrow' : row' ∈ rows) (hm : row.rowLength? = some m)
    (hn : row'.rowLength? = some n) : m = n :=
  eq_of_length_distinct_le_one (length_distinct_of_raggedReport h)
    (List.mem_filterMap.mpr ⟨row, hrow, hm⟩)
    (List.mem_filterMap.mpr ⟨row', hrow', hn⟩)

theorem Expr.isVector_iff {e : Expr} :
    e.isVector = true ↔ ∃ line items, e = .vector line items := by
  cases e <;> simp [Expr.isVector]

/-- A matrix literal that is not reported has as many rows as it has members, and
all of them are vectors of one length. -/
theorem matrixType_eq {symbols : Symbols} {line : Nat} {rows : List Expr}
    (hrows : rowReports symbols line 0 rows = [])
    (hragged : raggedReport line rows = []) :
    ∃ cols, (∀ row ∈ rows, ∀ t, (infer symbols row).ty = some t → t = .vector cols)
      ∧ matrixType rows = .matrix rows.length cols := by
  have hvectors : ∀ row ∈ rows, row.isVector = true := by
    intro row hrow
    exact (rowReports_eq_nil.mp hrows row hrow).1
  cases rows with
  | nil => exact ⟨0, fun row hrow => absurd hrow List.not_mem_nil, rfl⟩
  | cons first rest =>
      obtain ⟨line', items, rfl⟩ :=
        Expr.isVector_iff.mp (hvectors first List.mem_cons_self)
      refine ⟨items.length, fun row hrow t ht => ?_, ?_⟩
      · obtain ⟨_, items', rfl⟩ := Expr.isVector_iff.mp (hvectors row hrow)
        have hlen : items'.length = items.length :=
          rowLength_eq_of_raggedReport hragged hrow List.mem_cons_self rfl rfl
        rw [← hlen]
        exact (Option.some.inj ht).symm
      · simp only [matrixType, List.all_eq_true.mpr hvectors, Bool.true_and,
          decide_eq_true_eq, length_distinct_of_raggedReport hragged, if_true]
        rfl

/-! ## Operators -/

theorem Judgement.bind₂_reports_eq_nil {l r : Judgement}
    {next : Ty → Ty → Judgement} (h : (l.bind₂ r next).reports = []) :
    l.reports = [] ∧ r.reports = [] := by
  simp only [bind₂] at h
  split at h <;> simp_all

theorem compareReports_eq_nil {line : Nat} {op : Relation} {t u : Ty} :
    compareReports line op (some t) (some u) = []
      ↔ t.kind.isNumeric = true ∧ u.kind.isNumeric = true := by
  by_cases ht : t.kind.isNumeric <;> by_cases hu : u.kind.isNumeric <;>
    simp [compareReports, ht, hu]

theorem Judgement.bind_reports_eq_nil {j : Judgement} {next : Ty → Judgement}
    (h : (j.bind next).reports = []) : j.reports = [] := by
  simp only [bind] at h
  split at h <;> simp_all

theorem Judgement.ofExcept_reports_eq_nil {line : Nat} {x : Except Problem Ty}
    (h : (Judgement.ofExcept line x).reports = []) :
    ∃ t, x = .ok t ∧ (Judgement.ofExcept line x).ty = some t := by
  cases x with
  | error p => cases h
  | ok t => exact ⟨t, rfl, rfl⟩

end MatrixLang
