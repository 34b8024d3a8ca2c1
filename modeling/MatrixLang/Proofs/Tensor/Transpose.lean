import MatrixLang.Proofs.Tensor.Stack

/-!
# Transposed matrices

The transpose of a matrix has the same cells with row and column exchanged
(`getElem?_transpose`), and a matrix that has them is the transpose
(`eq_transpose`). So what an operation does to a transpose is told by
what it does to one cell: it can be done before or after (`transpose_entrywise`,
`transpose_neg`), and the identity and the second transpose are cases of the same
rule.

Nothing is asked of the sizes. A matrix may be without rows or without columns.
-/

namespace MatrixLang.Tensor

variable {a b c : Tensor} {m n i j : Nat}

/-! ## The cells of a transpose -/

theorem transpose_vector (h : a.shape = .vector n) : a.transpose = a := by
  simp only [transpose, h]

theorem transpose_matrix (h : a.shape = .matrix m n) :
    a.transpose = ⟨.matrix n m, a.entryKind,
      tabulate (n * m) fun p => a.entry (p % m * n + p / m)⟩ := by
  simp only [transpose, h]
  rfl

theorem shape_transpose (a : Tensor) : a.transpose.shape = a.shape.transposed := by
  cases h : a.shape with
  | vector n => rw [transpose_vector h, h, Shape.transposed]
  | matrix m n => rw [transpose_matrix h, Shape.transposed]

theorem entryKind_transpose (a : Tensor) : a.transpose.entryKind = a.entryKind := by
  cases h : a.shape with
  | vector n => rw [transpose_vector h]
  | matrix m n => rw [transpose_matrix h]

theorem getElem?_transpose (ha : a.WellFormed) (h : a.shape = .matrix m n)
    (hi : i < m) (hj : j < n) : a.transpose.data[j * m + i]? = a.data[i * n + j]? := by
  have hcell : i * n + j < a.data.size := by
    rw [ha.size_matrix h]
    exact cell_lt hi hj
  rw [transpose_matrix h, getElem?_tabulate _ (cell_lt hj hi), cell_mod hi, cell_div hi,
    getElem?_eq_entry hcell]

/-- A matrix with the cells of `a`, row and column exchanged, is the transpose of `a`. -/
theorem eq_transpose (ha : a.WellFormed) (hshape : a.shape = .matrix m n)
    (hc : c.WellFormed) (hcshape : c.shape = .matrix n m) (hkind : c.entryKind = a.entryKind)
    (hcells : ∀ i < m, ∀ j < n, c.data[j * m + i]? = a.data[i * n + j]?) :
    c = a.transpose := by
  have hshape' : a.transpose.shape = .matrix n m := by rw [shape_transpose, hshape]; rfl
  refine ext_cells hc ha.transpose hcshape hshape' (hkind.trans (entryKind_transpose a).symm)
    fun j hj i hi => ?_
  rw [hcells i hi j hj, getElem?_transpose ha hshape hi hj]

theorem transpose_transpose (ha : a.WellFormed) : a.transpose.transpose = a := by
  cases h : a.shape with
  | vector n => rw [transpose_vector h, transpose_vector h]
  | matrix m n =>
      have hshape : a.transpose.shape = .matrix n m := by rw [shape_transpose, h]; rfl
      exact (eq_transpose ha.transpose hshape ha h (entryKind_transpose a).symm
        fun j hj i hi => (getElem?_transpose ha h hi hj).symm).symm

/-! ## Operations on a transpose -/

/-- The negative of a transpose is the transpose of the negative. -/
theorem transpose_neg (ha : a.WellFormed) : a.neg.transpose = a.transpose.neg := by
  cases h : a.shape with
  | vector n => rw [transpose_vector h, transpose_vector (a := a.neg) h]
  | matrix m n =>
      refine (eq_transpose ha.neg h ha.transpose.neg ?_ (entryKind_transpose a)
        fun i hi j hj => ?_).symm
      · exact (shape_transpose a).trans (by rw [h]; rfl)
      · show (a.transpose.data.map _)[j * m + i]? = (a.data.map _)[i * n + j]?
        rw [Array.getElem?_map, Array.getElem?_map, getElem?_transpose ha h hi hj]

theorem entrywise_eq_ok {op : Arithmetic} :
    entrywise op a b = .ok c ↔ a.shape = b.shape
      ∧ c = ⟨a.shape, resultKind op a.entryKind b.entryKind,
        Array.zipWith op.onDoubles a.data b.data⟩ := by
  unfold entrywise
  split
  · rename_i h
    simp [h, eq_comm]
  · rename_i h
    simp [h]

/-- What is done entry by entry can be done to the transposes. -/
theorem transpose_entrywise {op : Arithmetic} (ha : a.WellFormed) (hb : b.WellFormed)
    (h : entrywise op a b = .ok c) :
    entrywise op a.transpose b.transpose = .ok c.transpose := by
  have hc := ha.entrywise hb h
  obtain ⟨hshape, hdata⟩ := entrywise_eq_ok.mp h
  cases ha' : a.shape with
  | vector n =>
      have hc' : c.shape = .vector n := by rw [hdata, ha']
      rw [transpose_vector ha', transpose_vector (hshape ▸ ha'), transpose_vector hc', h]
  | matrix m n =>
      have hb' : b.shape = .matrix m n := hshape ▸ ha'
      have hc' : c.shape = .matrix m n := by rw [hdata, ha']
      have hshape' : a.transpose.shape = b.transpose.shape := by
        rw [shape_transpose, shape_transpose, hshape]
      obtain ⟨d, hd⟩ : ∃ d, entrywise op a.transpose b.transpose = .ok d :=
        ⟨_, entrywise_eq_ok.mpr ⟨hshape', rfl⟩⟩
      have hd' := (entrywise_eq_ok.mp hd).2
      rw [hd, eq_transpose hc hc' (ha.transpose.entrywise hb.transpose hd) ?_ ?_ fun i hi j hj => ?_]
      · rw [hd', shape_transpose, ha']
        rfl
      · rw [hd', hdata, entryKind_transpose, entryKind_transpose]
      · rw [hd', hdata, Array.getElem?_zipWith, Array.getElem?_zipWith,
          getElem?_transpose ha ha' hi hj, getElem?_transpose hb hb' hi hj]

/-- The shapes of transposes are equal if the shapes are, and only then. -/
theorem entrywise_transpose_succeeds {op : Arithmetic} :
    (∃ c, entrywise op a.transpose b.transpose = .ok c) ↔ ∃ c, entrywise op a b = .ok c := by
  have hshape : a.transpose.shape = b.transpose.shape ↔ a.shape = b.shape := by
    rw [shape_transpose, shape_transpose]
    refine ⟨fun h => ?_, congrArg _⟩
    rw [← a.shape.transposed_transposed, h, b.shape.transposed_transposed]
  simp only [entrywise_eq_ok, hshape, exists_and_left, exists_eq, and_true]

/-! ## The identity -/

theorem getElem?_eye (hi : i < m) (hj : j < n) :
    (eye m n).data[i * n + j]? = some (if i = j then 1.0 else 0.0) := by
  have heye : (eye m n).data
      = tabulate (m * n) fun p => if p / n = p % n then 1.0 else 0.0 := rfl
  rw [heye, getElem?_tabulate _ (cell_lt hi hj), cell_div hj, cell_mod hj]

theorem transpose_eye (m n : Nat) : (eye m n).transpose = eye n m := by
  refine (eq_transpose (wellFormed_eye m n) rfl (wellFormed_eye n m) rfl rfl
    fun i hi j hj => ?_).symm
  simp only [getElem?_eye hi hj, getElem?_eye hj hi, eq_comm]

/-! ## Rows and columns -/

/-- What is read from a matrix, from its transpose and from its rows, and what the
matrix is made of. -/
structure IsGrid (a : Tensor) (m n : Nat) : Prop where
  shape : a.transpose.shape = .matrix n m
  entryKind : a.transpose.entryKind = a.entryKind
  cell : ∀ {i j r c}, Names m i r → Names n j c →
    ∃ x, a.get₂ i j = .ok x ∧ a.transpose.get₂ j i = .ok x
  involutive : a.transpose.transpose = a
  row : ∀ {i r}, Names m i r → a.get i = .ok (.row (a.rowAt n r))
    ∧ (a.rowAt n r).shape = .vector n
    ∧ ∀ {j c}, Names n j c → ∃ x, a.get₂ i j = .ok x ∧ (a.rowAt n r).get j = .ok (.entry x)
  stacked : 1 ≤ m → ofRows ((List.range m).map (a.rowAt n)) = .ok a

theorem WellFormed.isGrid (ha : a.WellFormed) (h : a.shape = .matrix m n) : a.IsGrid m n where
  shape := by rw [shape_transpose, h, Shape.transposed]
  entryKind := entryKind_transpose a
  cell := fun {i j r c} hr hc => by
    have hshape : a.transpose.shape = .matrix n m := by rw [shape_transpose, h, Shape.transposed]
    refine ⟨_, get₂_matrix h hr hc, ?_⟩
    rw [get₂_matrix hshape hc hr,
      numberAt_congr (entryKind_transpose a) (getElem?_transpose ha h hr.1 hc.1)]
  involutive := transpose_transpose ha
  row := fun {i r} hr => by
    refine ⟨get_matrix h hr, rfl, fun {j c} hc => ⟨_, get₂_matrix h hr hc, ?_⟩⟩
    rw [get_vector rfl hc, numberAt_rowAt hc.1]
  stacked := ha.ofRows_rows h

/-- **Transposition and stacking.** The transpose has the cells of a matrix with row
and column exchanged, and is undone by a second one; it goes through the operations
entry by entry, through the negative and through the identity. The rows of a matrix
hold its cells and can be stacked to the matrix, if there are any. Vectors of one length
can be stacked, and each is stored in its row; vectors cannot be if, and only if, two of
their lengths differ. -/
theorem transposes_and_stacks :
    (∀ {a : Tensor} {m n}, a.WellFormed → a.shape = .matrix m n → a.IsGrid m n)
      ∧ (∀ {op} {a b : Tensor}, a.WellFormed → b.WellFormed →
        ((∃ c, entrywise op a.transpose b.transpose = .ok c) ↔ ∃ c, entrywise op a b = .ok c)
          ∧ ∀ c, entrywise op a b = .ok c →
            entrywise op a.transpose b.transpose = .ok c.transpose)
      ∧ (∀ {a : Tensor}, a.WellFormed → a.neg.transpose = a.transpose.neg)
      ∧ (∀ m n, (eye m n).transpose = eye n m)
      ∧ (∀ {rows : List Tensor} {n}, (∀ r ∈ rows, r.WellFormed ∧ r.shape = .vector n) →
        ∃ a, ofRows rows = .ok a ∧ a.IsStack rows n)
      ∧ ∀ (rows : List Tensor) lengths, ofRows rows = .error (.raggedRows lengths) ↔
        rows.map Tensor.shape = lengths.map .vector ∧ ∃ k ∈ lengths, ∃ l ∈ lengths, k ≠ l :=
  ⟨WellFormed.isGrid, fun ha hb => ⟨entrywise_transpose_succeeds, fun _ =>
    transpose_entrywise ha hb⟩, transpose_neg, transpose_eye, ofRows_vectors,
    fun _ _ => ofRows_eq_ragged⟩

/-- Two rows of three integers. -/
def sixIntegers : Tensor := ⟨.matrix 2 3, .int, #[1.0, 2.0, 3.0, 4.0, 5.0, 6.0]⟩

/-- With cells, without columns, and with rows that do not fit. -/
theorem transposes_and_stacks_corners :
    sixIntegers.WellFormed ∧ sixIntegers.transpose.shape = .matrix 3 2
      ∧ sixIntegers.transpose.transpose = sixIntegers
      ∧ (∃ x, sixIntegers.get₂ (-1) 0 = .ok x ∧ sixIntegers.transpose.get₂ 0 (-1) = .ok x)
      ∧ ofRows [sixIntegers.rowAt 3 0, sixIntegers.rowAt 3 1] = .ok sixIntegers
      ∧ ofRows [(zeros 2 0).rowAt 0 0, (zeros 2 0).rowAt 0 1] = .ok (zeros 2 0)
      ∧ (∃ c, entrywise .sub sixIntegers sixIntegers = .ok c
        ∧ entrywise .sub sixIntegers.transpose sixIntegers.transpose = .ok c.transpose)
      ∧ ofRows [ofNumbers [.int 1], ofNumbers []] = .error (.raggedRows [1, 0]) := by
  obtain ⟨hgrid, hentrywise, -, -, -, hragged⟩ := transposes_and_stacks
  have hsix := hgrid (a := sixIntegers) rfl rfl
  have hzeros := hgrid (wellFormed_filled 2 0 0.0) rfl
  have hlast : Names 2 (-1) 1 := ⟨by decide, .inr (by decide)⟩
  have hfirst : Names 3 0 0 := ⟨by decide, .inl (by decide)⟩
  refine ⟨rfl, hsix.shape, hsix.involutive, hsix.cell hlast hfirst, hsix.stacked (by decide),
    hzeros.stacked (by decide), ⟨_, rfl, ?_⟩, (hragged _ _).mpr ⟨rfl, 1, ?_, 0, ?_, ?_⟩⟩
  · exact (hentrywise (a := sixIntegers) (b := sixIntegers) rfl rfl).2 _ rfl
  all_goals decide

end MatrixLang.Tensor
