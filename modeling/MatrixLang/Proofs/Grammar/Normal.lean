import MatrixLang.Proofs.Lines

/-!
# Trees in normal form

What a parser makes of tokens is in *normal form*: comparisons stand at
conditions only, the rows of a matrix are vector literals, and a vector literal
has an item that keeps it from being read as a matrix. An `if` with an `else`
does not hold another one without, to which the `else` would belong
(`Stmt.endsOpen`).

The form has a parameter, which says what is asked of the items of a matrix row
besides being normal themselves. What makes it the form of the readable trees is
`plainRow`.

The second part is about trees up to their lines (`Expr.unlined`,
`Stmt.unlined`).
-/

namespace MatrixLang

/-! ## Normal form -/

namespace Expr

/-- A row of a matrix, as it is met inside a list. -/
def isRowLike (e : Expr) : Bool := e.isVector || e.isEmptyMatrix

/-- Some item of the list is no row. -/
def anyPlain (es : List Expr) : Bool := es.any fun e => !e.isRowLike

/-- A row of a matrix that is not one itself when it is read alone. -/
def plainRow (es : List Expr) : Bool := es.isEmpty || anyPlain es

mutual

/-- `row` is asked of the items of a matrix row. -/
def isNormal (row : List Expr → Bool) : Expr → Bool
  | .int _ _ | .float _ _ | .str _ _ | .read _ _ | .construct _ _ _ => true
  | .binary _ _ l r => l.isNormal row && r.isNormal row
  | .compare _ _ _ _ => false
  | .vector _ es => anyPlain es && areNormal row es
  | .matrix _ es => areRows row es
  | .neg _ e | .transpose _ e => e.isNormal row

def areNormal (row : List Expr → Bool) : List Expr → Bool
  | [] => true
  | e :: rest => e.isNormal row && areNormal row rest

/-- A vector literal that is a row of a matrix. -/
def isRow (row : List Expr → Bool) : Expr → Bool
  | .vector _ es => row es && areNormal row es
  | _ => false

def areRows (row : List Expr → Bool) : List Expr → Bool
  | [] => true
  | e :: rest => e.isRow row && areRows row rest

end

theorem anyPlain_eq_not_all (es : List Expr) :
    anyPlain es = !es.all isRowLike := by
  rw [List.not_all_eq_any_not]
  rfl

theorem areNormal_iff {row : List Expr → Bool} {es : List Expr} :
    areNormal row es = true ↔ ∀ e ∈ es, e.isNormal row = true := by
  induction es with
  | nil => simp [areNormal]
  | cons e rest ih => simp [areNormal, ih]

theorem areRows_iff {row : List Expr → Bool} {es : List Expr} :
    areRows row es = true ↔ ∀ e ∈ es, e.isRow row = true := by
  induction es with
  | nil => simp [areRows]
  | cons e rest ih => simp [areRows, ih]

/-- What can be read in a list: an expression in normal form, or an empty row. -/
def IsItem (e : Expr) : Prop :=
  e.isNormal plainRow = true ∨ ∃ line, e = .vector line []

/-- How it is read there, before it is known that the list is one of rows. -/
def asItem : Expr → Expr
  | .vector line [] => .matrix line []
  | e => e

theorem asItem_of_isNormal {row : List Expr → Bool} {e : Expr}
    (h : e.isNormal row = true) :
    e.asItem = e := by
  cases e with
  | vector line es =>
      cases es with
      | nil => cases h
      | cons e rest => rfl
  | _ => rfl

theorem map_asItem {row : List Expr → Bool} {es : List Expr}
    (h : areNormal row es = true) :
    es.map asItem = es := by
  have hself : ∀ e ∈ es, e.asItem = id e := by
    intro e he
    exact asItem_of_isNormal (areNormal_iff.mp h e he)
  rw [List.map_congr_left hself, List.map_id]

/-- The rows of a matrix can be read in its list, and look like rows there. -/
theorem isItem_of_isRow {e : Expr} (h : e.isRow plainRow = true) :
    e.IsItem ∧ e.asItem.isRowLike = true := by
  cases e with
  | vector line es =>
      simp only [isRow, plainRow, Bool.and_eq_true, Bool.or_eq_true] at h
      obtain ⟨hempty | hplain, hes⟩ := h
      · obtain rfl := List.isEmpty_iff.mp hempty
        exact ⟨.inr ⟨line, rfl⟩, rfl⟩
      · have hnormal : (Expr.vector line es).isNormal plainRow = true := by
          simp only [isNormal, hplain, hes, Bool.and_self]
        rw [asItem_of_isNormal hnormal]
        exact ⟨.inl hnormal, rfl⟩
  | _ => cases h

end Expr

namespace Stmt

/-- An `else` after the statement would belong to an `if` at its end. -/
def endsOpen : Stmt → Bool
  | .branch _ _ _ none => true
  | .branch _ _ _ (some no) => no.endsOpen
  | .loop _ _ body | .count _ _ _ body => body.endsOpen
  | _ => false

/-- A comparison of two expressions. -/
def isNormalTest (row : List Expr → Bool) : Expr → Bool
  | .compare _ _ l r => l.isNormal row && r.isNormal row
  | _ => false

mutual

/-- `row` is asked of the items of a matrix row. -/
def isNormal (row : List Expr → Bool) : Stmt → Bool
  | .block _ body => areNormal row body
  | .assign _ op p e => (op = .set || p = .var p.name) && e.isNormal row
  | .branch _ test yes none => isNormalTest row test && yes.isNormal row
  | .branch _ test yes (some no) =>
      isNormalTest row test && yes.isNormal row && !yes.endsOpen && no.isNormal row
  | .loop _ test body => isNormalTest row test && body.isNormal row
  | .count _ _ r body =>
      r.start.isNormal row && r.stop.isNormal row && body.isNormal row
  | .break_ _ | .continue_ _ => true
  | .ret _ e => e.isNormal row
  | .print _ es => !es.isEmpty && Expr.areNormal row es

def areNormal (row : List Expr → Bool) : List Stmt → Bool
  | [] => true
  | s :: rest => s.isNormal row && areNormal row rest

end

end Stmt

/-! ## Trees without lines -/

namespace Expr

@[simp] theorem isRowLike_unlined (e : Expr) :
    e.unlined.isRowLike = e.isRowLike := by
  rw [isRowLike, isVector_mapLines, isEmptyMatrix_mapLines, isRowLike]

/-- Whether a list is one of rows does not depend on lines. -/
theorem anyPlain_congr {es fs : List Expr} (h : unlinedAll es = unlinedAll fs) :
    anyPlain es = anyPlain fs := by
  have hmap : ∀ es : List Expr, anyPlain (unlinedAll es) = anyPlain es := by
    intro es
    simp [mapLinesAll_eq_map, anyPlain, List.any_map, Function.comp_def]
  rw [← hmap es, h, hmap fs]

end Expr

namespace Stmt

@[simp] theorem endsOpen_unlined (s : Stmt) :
    s.unlined.endsOpen = s.endsOpen := by
  induction s with
  | branch line test yes no ihYes ihNo =>
      cases no with
      | none => rfl
      | some no => exact ihNo no rfl
  | loop line test body ih => exact ih
  | count line x r body ih => exact ih
  | _ => rfl

theorem endsOpen_congr {s t : Stmt} (h : s.unlined = t.unlined) :
    s.endsOpen = t.endsOpen := by
  rw [← endsOpen_unlined s, h, endsOpen_unlined t]

end Stmt

end MatrixLang
