import MatrixLang.Proofs.Typing.Fits
import MatrixLang.Run.Evaluate
import MatrixLang.Value.Room

/-!
# Which matrices can be stored

Sizes that a constructor accepts (`Tensor.checkedSize`) are those of a matrix for
which there is room (`Tensor.crash?_eq_none`), so no constructor crashes. For a
product the sizes of the operands say nothing about its own: without inner rows
and columns they are zero, however many outer ones there are
(`product_unstored`). Its sizes are only bounded by those of an operand if this one
is at least as long on the inside as the other on the outside
(`matrices_stored`).
-/

namespace MatrixLang

namespace Tensor

variable {rows cols : Nat}

theorem checkedSize_eq_ok {size : Nat} :
    checkedSize rows cols = .ok size ↔ rows * cols = size ∧ rows * cols ≤ maxSize := by
  unfold checkedSize
  split
  · rename_i h
    rw [Except.ok.injEq]
    exact (and_iff_left h).symm
  · rename_i h
    exact ⟨nofun, fun hsize => absurd hsize.2 h⟩

/-- What can be stored can be counted. -/
theorem crash?_eq_none : crash? rows cols = none ↔ rows * cols ≤ maxSize := by
  have hword : maxSize < UInt64.size := by decide
  unfold crash?
  split
  · rename_i hoverflow
    exact ⟨nofun, fun hle => absurd hoverflow (by omega)⟩
  · split
    · rename_i hroom
      exact ⟨nofun, fun hle => absurd hroom (by omega)⟩
    · rename_i hroom
      exact ⟨fun _ => by omega, fun _ => rfl⟩

/-- The sizes that a constructor accepts are exactly those that do not crash. -/
theorem crash?_eq_none_iff_checked :
    crash? rows cols = none ↔ checkedSize rows cols = .ok (rows * cols) := by
  rw [crash?_eq_none, checkedSize_eq_ok, and_iff_right rfl]

end Tensor

theorem TensorFault.lift_eq_ok {α : Type} {x : Except TensorFault α} {a : α} :
    TensorFault.lift x = .ok a ↔ x = .ok a := by
  cases x <;> simp [TensorFault.lift]

/-- A constructor gives a matrix for which there is room. -/
theorem constructValue_stored {f : Constructor} {dims : Dims} {a : Tensor}
    (h : constructValue f dims = .ok a) :
    ∃ rows cols, a.shape = .matrix rows cols
      ∧ Tensor.checkedSize rows cols = .ok (rows * cols)
      ∧ Tensor.crash? rows cols = none := by
  simp only [constructValue] at h
  split at h
  · cases h
  · obtain ⟨size, hsize, h⟩ := bind_eq_ok.mp h
    cases h
    obtain ⟨rfl, hroom⟩ := Tensor.checkedSize_eq_ok.mp (TensorFault.lift_eq_ok.mp hsize)
    refine ⟨_, _, ?_, Tensor.checkedSize_eq_ok.mpr ⟨rfl, hroom⟩,
      Tensor.crash?_eq_none.mpr hroom⟩
    cases f <;> rfl

/-! ## Operators -/

section

variable {v w : Value} {a b : Tensor} {m k n : Nat}

/-- A product is stored with the outer sizes of its operands. -/
theorem product_crash (ha : a.shape = .matrix m k) (hb : b.shape = .matrix k n) :
    Value.binaryCrash? .mul (.tensor a) (.tensor b) = Tensor.crash? m n := by
  simp only [Value.binaryCrash?, Tensor.productCrash?, ha, hb, if_true]

theorem operate_crash {crash : Crash} (ha : a.shape = .matrix m k)
    (hb : b.shape = .matrix k n) (h : Tensor.crash? m n = some crash) :
    Value.operate .mul (.tensor a) (.tensor b) = .error (.crash crash) := by
  simp only [Value.operate, product_crash ha hb, h]

/-- Two operands whose product has more entries than there is room for. -/
def BinaryOp.Crowded (op : BinaryOp) (v w : Value) : Prop :=
  op = .mul ∧ ∃ a b m k n, v = .tensor a ∧ w = .tensor b ∧ a.shape = .matrix m k
    ∧ b.shape = .matrix k n ∧ Tensor.maxSize < m * n

/-- Nothing else crashes. -/
theorem Value.binaryCrash?_eq_none {op : BinaryOp} :
    Value.binaryCrash? op v w = none ↔ ¬op.Crowded v w := by
  constructor
  · rintro h ⟨rfl, a, b, m, k, n, rfl, rfl, ha, hb, hroom⟩
    rw [product_crash ha hb, Tensor.crash?_eq_none] at h
    exact absurd hroom (by omega)
  · intro h
    unfold binaryCrash?
    split
    · rename_i a b
      unfold Tensor.productCrash?
      split
      · rename_i m k k' n ha hb
        split
        · rename_i hk
          subst hk
          refine Tensor.crash?_eq_none.mpr (Nat.le_of_not_lt fun hroom => h ?_)
          exact ⟨rfl, a, b, m, k, n, rfl, rfl, ha, hb, hroom⟩
        · rfl
      · rfl
    · rfl

theorem Value.operate_eq {op : BinaryOp} (h : ¬op.Crowded v w) :
    Value.operate op v w = (Value.binary op v w).mapError .fault := by
  simp only [operate, binaryCrash?_eq_none.mpr h]

/-- There is no room, and no other crash. -/
theorem Value.operate_eq_crash {op : BinaryOp} :
    (∃ crash, Value.operate op v w = .error (.crash crash)) ↔ op.Crowded v w := by
  constructor
  · rintro ⟨crash, h⟩
    refine Classical.byContradiction fun hroom => ?_
    rw [operate_eq hroom] at h
    cases hbinary : Value.binary op v w <;> rw [hbinary] at h <;> cases h
  · rintro ⟨rfl, a, b, m, k, n, rfl, rfl, ha, hb, hroom⟩
    have hsome : Tensor.crash? m n ≠ none := by
      rw [Ne, Tensor.crash?_eq_none]
      omega
    obtain ⟨crash, hcrash⟩ := Option.ne_none_iff_exists'.mp hsome
    exact ⟨crash, operate_crash ha hb hcrash⟩

/-- A compound assignment never crashes: it multiplies no matrices. -/
theorem BinaryOp.not_crowded_compoundOp (op : BinaryOp) (v w : Value) :
    ¬(Value.compoundOp op v w).Crowded v w := by
  rintro ⟨hop, a, b, -, -, -, rfl, rfl, -⟩
  cases op <;> cases hop

/-- **Which matrices can be stored.** A constructor either faults or gives a matrix
for which there is room. The product of two such matrices never faults. It is a
matrix if a constructor would accept its sizes, which is always so if one operand
has no more outer rows or columns than inner ones, and otherwise a crash. -/
theorem matrices_stored (ha : a.shape = .matrix m k) (hb : b.shape = .matrix k n)
    (hsize : Tensor.checkedSize m k = .ok (m * k))
    (hsize' : Tensor.checkedSize k n = .ok (k * n)) :
    (∀ f dims, (∃ fault, constructValue f dims = .error fault)
        ∨ ∃ c rows cols, constructValue f dims = .ok c ∧ c.shape = .matrix rows cols
          ∧ Tensor.checkedSize rows cols = .ok (rows * cols)
          ∧ Tensor.crash? rows cols = none)
      ∧ (Tensor.checkedSize m n = .ok (m * n) →
          ∃ c, Value.operate .mul (.tensor a) (.tensor b) = .ok (.tensor c)
            ∧ c.shape = .matrix m n)
      ∧ (Tensor.checkedSize m n ≠ .ok (m * n) →
          ∃ crash, Value.operate .mul (.tensor a) (.tensor b) = .error (.crash crash))
      ∧ (m ≤ k ∨ n ≤ k → Tensor.checkedSize m n = .ok (m * n)) := by
  refine ⟨fun f dims => ?_, fun hchecked => ?_, fun hchecked => ?_, fun hinner => ?_⟩
  · cases h : constructValue f dims with
    | error fault => exact .inl ⟨fault, rfl⟩
    | ok c =>
        obtain ⟨rows, cols, hshape, hchecked, hcrash⟩ := constructValue_stored h
        exact .inr ⟨c, rows, cols, rfl, hshape, hchecked, hcrash⟩
  · obtain ⟨c, hc, hshape⟩ := Value.binary_product ha hb
    rw [← Tensor.crash?_eq_none_iff_checked, ← product_crash ha hb] at hchecked
    refine ⟨c, ?_, hshape⟩
    rw [Value.operate_eq (Value.binaryCrash?_eq_none.mp hchecked), hc]
    rfl
  · rw [Ne, ← Tensor.crash?_eq_none_iff_checked] at hchecked
    obtain ⟨crash, hsome⟩ := Option.ne_none_iff_exists'.mp hchecked
    exact ⟨crash, operate_crash ha hb hsome⟩
  · -- the longer inner side of one operand makes it at least as large as the product
    refine Tensor.checkedSize_eq_ok.mpr ⟨rfl, ?_⟩
    rcases hinner with hm | hn
    · calc m * n ≤ k * n := Nat.mul_le_mul_right n hm
        _ ≤ Tensor.maxSize := (Tensor.checkedSize_eq_ok.mp hsize').2
    · calc m * n ≤ m * k := Nat.mul_le_mul_left m hn
        _ ≤ Tensor.maxSize := (Tensor.checkedSize_eq_ok.mp hsize).2

end

theorem matrices_stored_square :
    Tensor.checkedSize 2 2 = .ok 4
      ∧ ∃ c, Value.operate .mul (.tensor (.eye 2 2)) (.tensor (.ones 2 2))
          = .ok (.tensor c) ∧ c.shape = .matrix 2 2 := by
  have hsize : Tensor.checkedSize 2 2 = .ok (2 * 2) := rfl
  obtain ⟨-, hstored, -, hinner⟩ :=
    matrices_stored (a := .eye 2 2) (b := .ones 2 2) rfl rfl hsize hsize
  exact ⟨hsize, hstored (hinner (.inl (Nat.le_refl 2)))⟩

/-- Two matrices without entries, for whose product there is no room. -/
theorem product_unstored :
    Tensor.checkedSize 1073741824 0 = .ok 0 ∧ Tensor.checkedSize 0 1073741824 = .ok 0
      ∧ Value.operate .mul (.tensor (.zeros 1073741824 0)) (.tensor (.zeros 0 1073741824))
        = .error (.crash .noRoom) :=
  ⟨rfl, rfl, operate_crash rfl rfl (by decide)⟩

end MatrixLang
