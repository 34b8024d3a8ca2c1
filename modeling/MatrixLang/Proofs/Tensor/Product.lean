import MatrixLang.Proofs.Tensor.Bounds
import MatrixLang.Proofs.Tensor.Room

/-!
# Products of matrices

The loops of a product go through an operand in the middle: a number of the left
matrix is multiplied with a row of the right one, and what comes out is added to a
row of the result. So the sums of a row grow beside each other, from one round to
the next (`partialProduct`), and yet each of them gets its terms in the order of the
inner axis, starting with zero. Addition of doubles is not associative; that the
order is kept is why the loops give the same doubles as the sums that define a
product (`WellFormed.product?`).

Which of the three ends a product comes to, a matrix or one of two faults, can be
told from the shapes, as long as there is room for the matrix.
-/

namespace MatrixLang

theorem EntryKind.join_eq_int {k l : EntryKind} :
    k.join l = .int ↔ k = .int ∧ l = .int := by
  cases k <;> cases l <;> simp [EntryKind.join]

namespace Tensor

variable {a b : Tensor} {m k n : Nat} {l r : Shape}

/-- The matrix `c` has the dot products of the rows of `a` and the columns of `b`. -/
structure IsProduct (c a b : Tensor) (m k n : Nat) : Prop where
  wellFormed : c.WellFormed
  shape : c.shape = .matrix m n
  entryKind : c.entryKind = .int ↔ a.entryKind = .int ∧ b.entryKind = .int
  /-- The terms of a sum are added from the left. -/
  sums : ∀ i < m, ∀ j < n, c.data[i * n + j]? = some
    ((List.range k).foldl (fun sum t => sum + a.entry (i * k + t) * b.entry (t * n + j)) 0.0)

theorem product_matrices (ha : a.shape = .matrix m k) (hb : b.shape = .matrix k n) :
    ∃ c, a.product b = .ok c ∧ c.IsProduct a b m k n := by
  have hproduct : a.product b = .ok ⟨.matrix m n, a.entryKind.join b.entryKind,
      tabulate (m * n) fun p => dot a b k n (p / n) (p % n)⟩ := by
    simp only [product, ha, hb, if_true]
    rfl
  refine ⟨_, hproduct, wellFormed_product hproduct, rfl, EntryKind.join_eq_int,
    fun i hi j hj => ?_⟩
  rw [getElem?_tabulate _ (cell_lt hi hj), cell_div hj, cell_mod hj]
  rfl

theorem product_eq_mismatch :
    a.product b = .error (.productMismatch l r) ↔ l = a.shape ∧ r = b.shape
      ∧ ∃ m k k' n, a.shape = .matrix m k ∧ b.shape = .matrix k' n ∧ k ≠ k' := by
  constructor
  · intro h
    unfold product at h
    split at h
    · rename_i m k k' n ha hb
      split at h
      · cases h
      · rename_i hne
        cases h
        exact ⟨rfl, rfl, m, k, k', n, ha, hb, hne⟩
    · cases h
  · rintro ⟨rfl, rfl, m, k, k', n, ha, hb, hne⟩
    simp only [product, ha, hb, if_neg hne]

theorem product_eq_ofVectors :
    a.product b = .error (.productOfVectors l r) ↔ l = a.shape ∧ r = b.shape
      ∧ ((∃ n, a.shape = .vector n) ∨ ∃ n, b.shape = .vector n) := by
  constructor
  · intro h
    unfold product at h
    split at h
    · split at h <;> cases h
    · rename_i hmatrices
      cases h
      refine ⟨rfl, rfl, ?_⟩
      cases ha : a.shape with
      | vector n => exact .inl ⟨n, rfl⟩
      | matrix m k =>
          cases hb : b.shape with
          | vector n => exact .inr ⟨n, rfl⟩
          | matrix k' n => exact absurd hb (hmatrices m k k' n ha)
  · rintro ⟨rfl, rfl, ⟨n, ha⟩ | ⟨n, hb⟩⟩
    · simp only [product, ha]
    · cases ha : a.shape <;> simp only [product, ha, hb]

theorem operate_product {c : Tensor} (ha : a.shape = .matrix m k) (hb : b.shape = .matrix k n)
    (hroom : m * n ≤ maxSize) (hc : a.product b = .ok c) :
    Value.operate .mul (.tensor a) (.tensor b) = .ok (.tensor c) := by
  have hcrash : Value.binaryCrash? .mul (.tensor a) (.tensor b) = none := by
    rw [product_crash ha hb, crash?_eq_none]
    exact hroom
  have hrank : a.rank = 2 ∧ b.rank = 2 := ⟨rank_matrix ha, rank_matrix hb⟩
  simp only [Value.operate, hcrash, Value.binary, BinaryOp.onTensors, hrank, and_self, if_true, hc]
  rfl

/-- **Products of matrices.** Matrices of matching sizes have a product, for which the
loops and the operator of a program come to the same matrix: each of its numbers is the
sum, from the left, of the products along the inner axis. Otherwise the sizes or the
ranks do not match, and this is what is reported. -/
theorem product_sums (ha : a.WellFormed) (hb : b.WellFormed) :
    (∀ m k n, a.shape = .matrix m k → b.shape = .matrix k n → m * n ≤ maxSize →
        ∃ c, c.IsProduct a b m k n ∧ a.product? b = some (.ok c)
          ∧ Value.operate .mul (.tensor a) (.tensor b) = .ok (.tensor c))
      ∧ (∀ l r, a.product? b = some (.error (.productMismatch l r)) ↔
        l = a.shape ∧ r = b.shape
          ∧ ∃ m k k' n, a.shape = .matrix m k ∧ b.shape = .matrix k' n ∧ k ≠ k')
      ∧ (∀ l r, a.product? b = some (.error (.productOfVectors l r)) ↔
        l = a.shape ∧ r = b.shape
          ∧ ((∃ n, a.shape = .vector n) ∨ ∃ n, b.shape = .vector n)) := by
  have hloops : a.product? b = some (a.product b) := ha.product? hb
  simp only [hloops, Option.some_inj]
  refine ⟨fun m k n hshape hshape' hroom => ?_, fun l r => product_eq_mismatch,
    fun l r => product_eq_ofVectors⟩
  obtain ⟨c, hc, hsums⟩ := product_matrices hshape hshape'
  exact ⟨c, hsums, hc, operate_product hshape hshape' hroom hc⟩

/-- A row of integers times a column of floats: the sum begins with zero. -/
theorem product_sums_row :
    ∃ c : Tensor,
      Value.operate .mul (.tensor ⟨.matrix 1 2, .int, #[2.0, 3.0]⟩)
          (.tensor ⟨.matrix 2 1, .float, #[0.5, 0.25]⟩) = .ok (.tensor c)
        ∧ c.shape = .matrix 1 1 ∧ c.entryKind ≠ .int
        ∧ c.data[0]? = some (0.0 + 2.0 * 0.5 + 3.0 * 0.25) := by
  obtain ⟨hproduct, -, -⟩ := product_sums (a := ⟨.matrix 1 2, .int, #[2.0, 3.0]⟩)
    (b := ⟨.matrix 2 1, .float, #[0.5, 0.25]⟩) rfl rfl
  obtain ⟨c, hc, -, hvalue⟩ := hproduct 1 2 1 rfl rfl (by decide)
  refine ⟨c, hvalue, hc.shape, fun hint => ?_, hc.sums 0 (by decide) 0 (by decide)⟩
  cases (hc.entryKind.mp hint).2

/-- Without room for it a product is not returned, even if its operands take none. -/
theorem product_sums_noRoom :
    (zeros 1073741824 0).WellFormed ∧ (zeros 0 1073741824).WellFormed
      ∧ (zeros 1073741824 0).shape = .matrix 1073741824 0
      ∧ (zeros 0 1073741824).shape = .matrix 0 1073741824
      ∧ ∀ v, Value.operate .mul (.tensor (zeros 1073741824 0)) (.tensor (zeros 0 1073741824))
        ≠ .ok v := by
  refine ⟨wellFormed_filled _ _ _, wellFormed_filled _ _ _, rfl, rfl, fun v hv => ?_⟩
  have hcrash : crash? 1073741824 1073741824 = some .noRoom := by decide
  rw [operate_crash rfl rfl hcrash] at hv
  cases hv

end Tensor

end MatrixLang
