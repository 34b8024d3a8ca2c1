import MatrixLang.Proofs.Tensor.WellFormed
import MatrixLang.Proofs.Typing.Evaluate
import MatrixLang.Proofs.Typing.Tables

/-!
# Indices before and during a run

The checker holds an index that is written in a program against the shape that it
knows; an operation on a tensor resolves it on an axis, where a negative index
counts from the end. On indices that are not negative the two agree: what is
reported is what fails, with the fault that names the index and the axis
(`indices_foretold`).

Both sides are brought into one form, a case distinction on whether the index lies
on the axis (`boundsReport_of_nonneg`, `resolve_of_nonneg`). An operation with one
index is a resolved position and what is done with it, so that all of them are
treated by one lemma (`FailsWhen.of_resolve`).
-/

namespace MatrixLang

/-! ## One index -/

/-- What one index goes through: the entries of a vector or the rows of a matrix. -/
def Shape.items : Shape → Nat
  | .vector n => n
  | .matrix rows _ => rows

def Tensor.Item.value : Tensor.Item → Value
  | .entry n => .ofNumber n
  | .row a => .tensor a

/-- An index is reported that lies outside of its axis. -/
def Judgement.ReportsBounds (j : Judgement) : Prop :=
  ∃ d ∈ j.reports, d.code = .outOfBounds

/-- An operation fails under a condition and only under it, and then in this way. -/
def FailsWhen {α : Type} (condition : Prop) (fault : TensorFault)
    (result : Except TensorFault α) : Prop :=
  (condition ↔ ∃ e, result = .error e) ∧ ∀ e, result = .error e → e = fault

theorem boundsReport_of_nonneg {i : Int64} (hi : 0 ≤ i.toInt) (size : Nat)
    (place : BoundsProblem) (line : Nat) :
    boundsReport i size place line
      = if i.toInt < size then [] else [(Problem.outOfBounds place).onLine line] := by
  by_cases hin : i.toInt < size <;> simp [boundsReport, outside, hi, hin]

theorem resolve_of_nonneg {i : Int64} (hi : 0 ≤ i.toInt) (axis size : Nat) :
    Tensor.resolve i axis size
      = if i.toInt < size then .ok i.toInt.toNat else .error (.outOfBounds i axis size) := by
  have hneg : ¬i.toInt < 0 := by omega
  by_cases hin : i.toInt < size <;> simp [Tensor.resolve, hneg, hi, hin]

theorem reportsBounds_iff {i : Int64} (hi : 0 ≤ i.toInt) {size : Nat}
    {place : BoundsProblem} {line : Nat} {ty : Option Ty} :
    Judgement.ReportsBounds ⟨ty, boundsReport i size place line⟩ ↔ ¬i.toInt < size := by
  rw [Judgement.ReportsBounds, boundsReport_of_nonneg hi]
  by_cases hin : i.toInt < size
  · simp [hin]
  · rw [if_neg hin]
    exact iff_of_true ⟨_, List.mem_singleton_self _, rfl⟩ hin

namespace FailsWhen

variable {α : Type} {condition : Prop} {result : Except TensorFault α}

theorem of_error {fault : TensorFault} (h : condition) (hresult : result = .error fault) :
    FailsWhen condition fault result := by
  subst hresult
  exact ⟨iff_of_true h ⟨fault, rfl⟩, fun e he => (Except.error.inj he).symm⟩

theorem of_ok (fault : TensorFault) {a : α} (h : ¬condition) (hresult : result = .ok a) :
    FailsWhen condition fault result := by
  subst hresult
  exact ⟨iff_of_false h nofun, nofun⟩

/-- An operation that does something with a position. -/
theorem of_resolve {i : Int64} (hi : 0 ≤ i.toInt) {axis size : Nat} {f : Nat → α}
    (h : condition ↔ ¬i.toInt < size)
    (hresult : result = Tensor.resolve i axis size >>= fun k => .ok (f k)) :
    FailsWhen condition (.outOfBounds i axis size) result := by
  rw [resolve_of_nonneg hi] at hresult
  by_cases hin : i.toInt < size
  · rw [if_pos hin] at hresult
    exact .of_ok _ (fun hc => h.mp hc hin) hresult
  · rw [if_neg hin] at hresult
    exact .of_error (h.mpr hin) hresult

/-- An operation that does something with a result that fails under a condition. -/
theorem bind_ok {β : Type} {fault : TensorFault} (h : FailsWhen condition fault result)
    (f : α → β) : FailsWhen condition fault (result >>= fun a => .ok (f a)) := by
  obtain ⟨hiff, hfault⟩ := h
  cases result with
  | ok a => exact ⟨hiff.trans (by simp), nofun⟩
  | error e => exact ⟨hiff.trans (by simp), fun e' he => hfault e' (by simpa using he)⟩

end FailsWhen

variable {symbols : Symbols} {name : String} {t : Ty} {a : Tensor}

theorem placeType_item (hs : symbols.get? name = some (some t)) (line : Nat) (i : Int64) :
    placeType symbols line (.item name i) = itemType line name i t := by
  have hname : symbols.get? (Place.item name i).name = some (some t) := hs
  simp only [placeType, hname]

theorem placeType_cell (hs : symbols.get? name = some (some t)) (line : Nat)
    (i j : Int64) :
    placeType symbols line (.cell name i j) = cellType line name i j t := by
  have hname : symbols.get? (Place.cell name i j).name = some (some t) := hs
  simp only [placeType, hname]

theorem itemType_reportsBounds (ht : (Value.tensor a).ty? = some t) {i : Int64}
    (hi : 0 ≤ i.toInt) (line : Nat) (name : String) :
    (itemType line name i t).ReportsBounds ↔ ¬i.toInt < a.shape.items := by
  rcases Value.ty?_tensor.mp ht with ⟨n, ha, rfl⟩ | ⟨rows, cols, ha, rfl⟩ <;> rw [ha]
  · exact reportsBounds_iff hi
  · exact reportsBounds_iff hi

theorem get_failsWhen {condition : Prop} {i : Int64} (hi : 0 ≤ i.toInt)
    (h : condition ↔ ¬i.toInt < a.shape.items) :
    FailsWhen condition (.outOfBounds i 0 a.shape.items) (a.get i) := by
  cases ha : a.shape <;> rw [ha] at h
  · exact .of_resolve hi h (by simp only [Tensor.get, ha]; rfl)
  · exact .of_resolve hi h (by simp only [Tensor.get, ha]; rfl)

theorem set_failsWhen {condition : Prop} {i : Int64} (hi : 0 ≤ i.toInt)
    (h : condition ↔ ¬i.toInt < a.shape.items) (x : Number) :
    FailsWhen condition (.outOfBounds i 0 a.shape.items) (a.set i x) := by
  cases ha : a.shape <;> rw [ha] at h
  · exact .of_resolve hi h (by simp only [Tensor.set, ha]; rfl)
  · exact .of_resolve hi h (by simp only [Tensor.set, ha]; rfl)

theorem setRow_failsWhen {condition : Prop} {i : Int64} (hi : 0 ≤ i.toInt)
    {rows cols : Nat} (ha : a.shape = .matrix rows cols) (h : condition ↔ ¬i.toInt < rows)
    {row : Tensor} (hrow : row.shape = .vector cols) :
    FailsWhen condition (.outOfBounds i 0 rows) (a.setRow i row) :=
  .of_resolve hi h (by simp only [Tensor.setRow, ha, hrow, if_true]; rfl)

/-- What is read is what was inferred: any number from a vector, and from a matrix a
row with as many entries as it has columns. -/
theorem get_fits (ha : a.WellFormed) (ht : (Value.tensor a).ty? = some t) {i : Int64}
    {line : Nat} {name : String} (hclean : (itemType line name i t).reports = []) :
    ∃ item u, a.get i = .ok item ∧ (itemType line name i t).ty = some u
      ∧ item.value.Fits .exact u ∧ ∀ row, item = .row row → u = .vector row.size := by
  rcases Value.ty?_tensor.mp ht with ⟨n, hshape, rfl⟩ | ⟨rows, cols, hshape, rfl⟩
  · have hin := boundsReport_eq_nil.mp hclean
    refine ⟨.entry (a.numberAt i.toInt.toNat), .float, ?_, rfl, .ofNumber .exact _, nofun⟩
    simp only [Tensor.get, hshape, resolve_of_bounds 0 hin, ok_bind]
  · have hin := boundsReport_eq_nil.mp hclean
    refine ⟨.row (a.rowAt cols i.toInt.toNat), .vector cols, ?_, rfl, .vector rfl, ?_⟩
    · simp only [Tensor.get, hshape, resolve_of_bounds 0 hin, ok_bind]
    · rintro row ⟨⟩
      have hrow : (a.rowAt cols i.toInt.toNat).WellFormed := ha.rowAt hshape (by omega)
      exact congrArg Ty.vector (hrow.size_vector rfl).symm

/-! ## Two indices -/

/-- A report on a row can be told from one on a column. -/
theorem row_ne_column (i j : Int64) (rows cols line : Nat) :
    (Problem.outOfBounds (.row i rows)).onLine line
      ≠ (Problem.outOfBounds (.column j cols)).onLine line := by
  intro heq
  have htexts : "Row index " ++ toString i.toInt ++ " out of bounds for matrix with "
        ++ toString rows ++ " rows"
      = "Column index " ++ toString j.toInt ++ " out of bounds for matrix with "
        ++ toString cols ++ " columns" := congrArg Diagnostic.message heq
  have hchar := congrArg (fun text : String => text.toList[0]?) htexts
  simp at hchar

section Cell

variable {i j : Int64} (hi : 0 ≤ i.toInt) (hj : 0 ≤ j.toInt) (rows cols line : Nat)
  (name : String)

include hi hj

/-- The row is reported before the column; both may be. -/
theorem cellType_reports :
    (cellType line name i j (.matrix rows cols)).reports
      = (if i.toInt < rows then [] else [(Problem.outOfBounds (.row i rows)).onLine line])
        ++ if j.toInt < cols then []
          else [(Problem.outOfBounds (.column j cols)).onLine line] := by
  rw [← boundsReport_of_nonneg hi, ← boundsReport_of_nonneg hj]
  rfl

theorem row_mem_cellType :
    (Problem.outOfBounds (.row i rows)).onLine line
        ∈ (cellType line name i j (.matrix rows cols)).reports
      ↔ ¬i.toInt < rows := by
  have hne := row_ne_column i j rows cols line
  rw [cellType_reports hi hj]
  by_cases hrow : i.toInt < rows <;> by_cases hcol : j.toInt < cols <;>
    simp [hrow, hcol, hne]

theorem column_mem_cellType :
    (Problem.outOfBounds (.column j cols)).onLine line
        ∈ (cellType line name i j (.matrix rows cols)).reports
      ↔ ¬j.toInt < cols := by
  have hne := (row_ne_column i j rows cols line).symm
  rw [cellType_reports hi hj]
  by_cases hrow : i.toInt < rows <;> by_cases hcol : j.toInt < cols <;>
    simp [hrow, hcol, hne]

/-- Nothing but the row and the column is reported of a cell. -/
theorem cellType_reportsBounds :
    (cellType line name i j (.matrix rows cols)).ReportsBounds
      ↔ ¬i.toInt < rows ∨ ¬j.toInt < cols := by
  constructor
  · rintro ⟨d, hd, -⟩
    rw [cellType_reports hi hj] at hd
    refine Decidable.not_and_iff_not_or_not.mp fun ⟨hrow, hcol⟩ => ?_
    rw [if_pos hrow, if_pos hcol] at hd
    exact List.not_mem_nil hd
  · rintro (hrow | hcol)
    · exact ⟨_, (row_mem_cellType hi hj rows cols line name).mpr hrow, rfl⟩
    · exact ⟨_, (column_mem_cellType hi hj rows cols line name).mpr hcol, rfl⟩

end Cell

theorem offset_failsWhen {i j : Int64} (hi : 0 ≤ i.toInt) (hj : 0 ≤ j.toInt)
    {rows cols : Nat} (ha : a.shape = .matrix rows cols) :
    FailsWhen (¬i.toInt < rows ∨ ¬j.toInt < cols)
      (if i.toInt < rows then .outOfBounds j 1 cols else .outOfBounds i 0 rows)
      (a.offset i j) := by
  simp only [Tensor.offset, ha, resolve_of_nonneg hi, resolve_of_nonneg hj]
  by_cases hrow : i.toInt < rows
  · rw [if_pos hrow, if_pos hrow]
    by_cases hcol : j.toInt < cols
    · rw [if_pos hcol]
      exact .of_ok _ (by simp [hrow, hcol]) rfl
    · rw [if_neg hcol]
      exact .of_error (.inr hcol) rfl
  · rw [if_neg hrow, if_neg hrow]
    exact .of_error (.inl hrow) rfl

/-- **What is reported of indices is what fails.** Let a name have the type of a
well-formed tensor, and take indices that are not negative. One index is reported
exactly if reading an item fails, if writing a number to it fails, and on a matrix
if writing a row to it fails; all of them fail because of the index on the first
axis. If nothing is reported, then what is read has the type that was inferred. Of
two indices into a matrix the row is reported exactly if it lies outside, and so is
the column; reading and writing the cell fail exactly if one of them is, because of
the row if that is reported. -/
theorem indices_foretold (ha : a.WellFormed) (ht : (Value.tensor a).ty? = some t)
    (hs : symbols.get? name = some (some t)) (line : Nat) {i : Int64}
    (hi : 0 ≤ i.toInt) :
    let item := placeType symbols line (.item name i)
    let fault := TensorFault.outOfBounds i 0 a.shape.items
    FailsWhen item.ReportsBounds fault (a.get i)
      ∧ (∀ x, FailsWhen item.ReportsBounds fault (a.set i x))
      ∧ (∀ rows cols, a.shape = .matrix rows cols → ∀ row : Tensor,
        row.shape = .vector cols → FailsWhen item.ReportsBounds fault (a.setRow i row))
      ∧ (item.reports = [] → ∃ got u, a.get i = .ok got ∧ item.ty = some u
        ∧ got.value.Fits .exact u ∧ ∀ row, got = .row row → u = .vector row.size)
      ∧ ∀ rows cols, a.shape = .matrix rows cols → ∀ j : Int64, 0 ≤ j.toInt →
        let cell := placeType symbols line (.cell name i j)
        let rowReport := (Problem.outOfBounds (.row i rows)).onLine line
        let columnReport := (Problem.outOfBounds (.column j cols)).onLine line
        let reported := rowReport ∈ cell.reports ∨ columnReport ∈ cell.reports
        let cellFault := if rowReport ∈ cell.reports then TensorFault.outOfBounds i 0 rows
          else .outOfBounds j 1 cols
        (rowReport ∈ cell.reports ↔ rows ≤ i.toInt)
          ∧ (columnReport ∈ cell.reports ↔ cols ≤ j.toInt)
          ∧ (reported ↔ cell.ReportsBounds)
          ∧ FailsWhen reported cellFault (a.get₂ i j)
          ∧ ∀ x, FailsWhen reported cellFault (a.set₂ i j x) := by
  rw [placeType_item hs]
  have hitem := itemType_reportsBounds ht hi line name
  refine ⟨get_failsWhen hi hitem, set_failsWhen hi hitem, ?_, get_fits ha ht, ?_⟩
  · intro rows cols hshape row hrow
    rw [hshape] at hitem ⊢
    exact setRow_failsWhen hi hshape hitem hrow
  · intro rows cols hshape j hj
    obtain rfl : Ty.matrix rows cols = t :=
      Option.some.inj ((Value.ty?_matrix hshape).symm.trans ht)
    rw [placeType_cell hs]
    have hrow := row_mem_cellType hi hj rows cols line name
    have hcolumn := column_mem_cellType hi hj rows cols line name
    have hoffset := offset_failsWhen hi hj hshape
    simp only [hrow, hcolumn, ite_not]
    refine ⟨Int.not_lt, Int.not_lt, ?_, hoffset.bind_ok _, fun x => hoffset.bind_ok _⟩
    exact (cellType_reportsBounds hi hj rows cols line name).symm

/-- The third row of a matrix that has two, and a cell in it behind the last
column. -/
theorem indices_foretold_outside :
    (Tensor.zeros 2 3).WellFormed
      ∧ (Value.tensor (.zeros 2 3)).ty? = some (.matrix 2 3)
      ∧ (0 : Int) ≤ (2 : Int64).toInt ∧ (0 : Int) ≤ (3 : Int64).toInt
      ∧ (∃ e, (Tensor.zeros 2 3).get 2 = .error e)
      ∧ (Tensor.zeros 2 3).get₂ 2 3 = .error (.outOfBounds 2 0 2) := by
  have hwell : (Tensor.zeros 2 3).WellFormed := Tensor.wellFormed_filled 2 3 0.0
  have hty : (Value.tensor (.zeros 2 3)).ty? = some (.matrix 2 3) := Value.ty?_matrix rfl
  have hsymbols : (Symbols.initial.define "A" (some (.matrix 2 3))).get? "A"
      = some (some (.matrix 2 3)) := Scopes.get?_define_self _ _ _
  obtain ⟨hget, -, -, -, hcells⟩ :=
    indices_foretold hwell hty hsymbols 1 (i := 2) (by decide)
  obtain ⟨hrow, -, -, hget₂, -⟩ := hcells 2 3 rfl 3 (by decide)
  have hreported : (placeType (Symbols.initial.define "A" (some (.matrix 2 3))) 1
      (.item "A" 2)).ReportsBounds := ⟨_, List.mem_singleton_self _, rfl⟩
  have hrowReported := hrow.mpr (by decide)
  obtain ⟨e, he⟩ := hget₂.1.mp (.inl hrowReported)
  have hfault := hget₂.2 e he
  rw [if_pos hrowReported] at hfault
  exact ⟨hwell, hty, by decide, by decide, hget.1.mp hreported, hfault ▸ he⟩

end MatrixLang
