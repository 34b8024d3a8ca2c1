import Mathlib.Algebra.GroupWithZero.Nat
import MatrixLang.Proofs.Except
import MatrixLang.Tensor.Access
import MatrixLang.Tensor.Algebra

/-!
# Every tensor is well formed

`Built` are the tensors that the operations can give, one after another and in
any order, of which some may fail: a write that fails leaves the tensor as it
was. By one lemma for each operation all of them have as many entries as their
shape says (`Built.wellFormed`).

The sizes of new matrices are not limited here. What is proved for all of them
holds for those that fit in a memory, too.
-/

namespace MatrixLang.Tensor

/-! ## Offsets in a matrix -/

/-- A row lies inside the entries. -/
theorem rowStop_le {i rows : Nat} (cols : Nat) (h : i < rows) :
    (i + 1) * cols ≤ rows * cols :=
  Nat.mul_le_mul_right cols h

theorem rowStop_eq (i cols : Nat) : (i + 1) * cols = i * cols + cols :=
  Nat.succ_mul i cols

/-- A cell lies inside the entries. -/
theorem cell_lt {i j rows cols : Nat} (hi : i < rows) (hj : j < cols) :
    i * cols + j < rows * cols := by
  have hrow := rowStop_le cols hi
  rw [rowStop_eq] at hrow
  omega

theorem resolve_lt {i : Int64} {axis size k : Nat}
    (h : resolve i axis size = .ok k) : k < size := by
  simp only [resolve] at h
  generalize (if i.toInt < 0 then i.toInt + reach size else i.toInt) = position at h
  split at h <;> cases h
  omega

theorem offset_lt {a : Tensor} {i j : Int64} {k : Nat} (h : a.offset i j = .ok k) :
    k < a.shape.size := by
  unfold offset at h
  split at h
  · cases h
  · rename_i rows cols hshape
    obtain ⟨r, hr, h⟩ := bind_eq_ok.mp h
    obtain ⟨c, hc, h⟩ := bind_eq_ok.mp h
    cases h
    rw [hshape, Shape.size_matrix]
    exact cell_lt (resolve_lt hr) (resolve_lt hc)

namespace WellFormed

variable {a : Tensor}

theorem size_vector {n : Nat} (ha : a.WellFormed) (h : a.shape = .vector n) :
    a.data.size = n := by
  rw [ha, h, Shape.size_vector]

theorem size_matrix {rows cols : Nat} (ha : a.WellFormed)
    (h : a.shape = .matrix rows cols) : a.data.size = rows * cols := by
  rw [ha, h, Shape.size_matrix]

end WellFormed

/-! ## The operations -/

theorem wellFormed_ofNumbers (items : List Number) : (ofNumbers items).WellFormed := by
  simp [WellFormed, ofNumbers]

theorem vectorLength_eq_ok {a : Tensor} {n : Nat} :
    a.vectorLength = .ok n ↔ a.shape = .vector n := by
  unfold vectorLength
  split
  · rename_i k hshape
    rw [hshape, Except.ok.injEq, Shape.vector.injEq]
  · rename_i hvector
    exact ⟨nofun, fun h => absurd h (hvector n)⟩

/-- Only vectors have lengths. -/
theorem mapM_vectorLength {rows : List Tensor} {lengths : List Nat} :
    rows.mapM vectorLength = .ok lengths ↔ rows.map shape = lengths.map .vector := by
  induction rows generalizing lengths with
  | nil => cases lengths <;> simp [pure, Except.pure]
  | cons r rest ih =>
      rw [List.mapM_cons, bind_eq_ok]
      constructor
      · rintro ⟨n, hn, h⟩
        obtain ⟨ns, hns, h⟩ := bind_eq_ok.mp h
        cases h
        rw [List.map_cons, List.map_cons, vectorLength_eq_ok.mp hn, ih.mp hns]
      · intro h
        cases lengths with
        | nil => cases h
        | cons n ns =>
            rw [List.map_cons, List.map_cons, List.cons.injEq] at h
            refine ⟨n, vectorLength_eq_ok.mpr h.1, ?_⟩
            rw [ih.mpr h.2]
            rfl

/-- Vectors of one length. -/
theorem map_shape_replicate {rows : List Tensor} {n : Nat} (h : ∀ r ∈ rows, r.shape = .vector n) :
    rows.map shape = (List.replicate rows.length n).map .vector := by
  rw [List.map_replicate, List.eq_replicate_iff, List.length_map]
  exact ⟨rfl, List.forall_mem_map.mpr h⟩

/-- What the rows hold together is as long as their lengths say. -/
theorem length_flatMap_data {rows : List Tensor} {lengths : List Nat}
    (hrows : ∀ r ∈ rows, r.WellFormed) (h : rows.mapM vectorLength = .ok lengths) :
    (rows.flatMap (·.data.toList)).length = lengths.sum
      ∧ rows.length = lengths.length := by
  induction rows generalizing lengths with
  | nil => cases h; exact ⟨rfl, rfl⟩
  | cons r rest ih =>
      obtain ⟨hr, hrest⟩ := List.forall_mem_cons.mp hrows
      rw [List.mapM_cons] at h
      obtain ⟨n, hn, h⟩ := bind_eq_ok.mp h
      obtain ⟨ns, hns, h⟩ := bind_eq_ok.mp h
      cases h
      obtain ⟨hsum, hlength⟩ := ih hrest hns
      simp only [List.flatMap_cons, List.length_append, Array.length_toList,
        hr.size_vector (vectorLength_eq_ok.mp hn), hsum, List.sum_cons, List.length_cons, hlength,
        and_self]

theorem wellFormed_ofRows {rows : List Tensor} {a : Tensor}
    (hrows : ∀ r ∈ rows, r.WellFormed) (h : ofRows rows = .ok a) : a.WellFormed := by
  obtain ⟨lengths, hlengths, h⟩ := bind_eq_ok.mp h
  obtain ⟨hsum, hlength⟩ := length_flatMap_data hrows hlengths
  simp only at h
  split at h
  · rename_i hall
    have hequal : lengths = List.replicate lengths.length (lengths.headD 0) := by
      refine List.eq_replicate_of_mem ?_
      simpa using hall
    have hsize : lengths.sum = lengths.length * lengths.headD 0 :=
      (congrArg List.sum hequal).trans List.sum_replicate_nat
    cases h
    rw [WellFormed, Shape.size_matrix, List.size_toArray, hsum, hlength, hsize]
  · cases h

theorem wellFormed_filled (rows cols : Nat) (x : Float) :
    (filled rows cols x).WellFormed := by
  simp [WellFormed, filled]

theorem wellFormed_eye (rows cols : Nat) : (eye rows cols).WellFormed := by
  simp [WellFormed, eye]

theorem wellFormed_construct (f : Constructor) (rows cols : Nat) :
    (construct f rows cols).WellFormed := by
  cases f with
  | zeros | ones => exact wellFormed_filled rows cols _
  | eye => exact wellFormed_eye rows cols

theorem wellFormed_product {a b c : Tensor} (h : a.product b = .ok c) :
    c.WellFormed := by
  unfold product at h
  split at h
  · split at h <;> cases h
    simp [WellFormed]
  · cases h

namespace WellFormed

variable {a b c : Tensor}

theorem entrywise {op : Arithmetic} (ha : a.WellFormed) (hb : b.WellFormed)
    (h : Tensor.entrywise op a b = .ok c) : c.WellFormed := by
  unfold Tensor.entrywise at h
  split at h
  · rename_i hshape
    cases h
    have hsize : b.data.size = a.shape.size := by rw [hb, hshape]
    simp only [WellFormed, Array.size_zipWith, hsize, Nat.min_self, show a.data.size = _ from ha]
  · cases h

theorem transpose (ha : a.WellFormed) : a.transpose.WellFormed := by
  unfold Tensor.transpose
  split
  · exact ha
  · simp [WellFormed]

theorem neg (ha : a.WellFormed) : a.neg.WellFormed := by
  simpa [WellFormed, Tensor.neg] using ha

theorem rowAt {rows cols k : Nat} (ha : a.WellFormed)
    (hshape : a.shape = .matrix rows cols) (hk : k < rows) :
    (a.rowAt cols k).WellFormed := by
  have hstop := rowStop_le cols hk
  simp only [WellFormed, Tensor.rowAt, Array.size_extract, Shape.size_vector,
    ha.size_matrix hshape, rowStop_eq] at hstop ⊢
  omega

theorem get {i : Int64} (ha : a.WellFormed) (h : a.get i = .ok (.row b)) :
    b.WellFormed := by
  unfold Tensor.get at h
  split at h
  · obtain ⟨k, hk, h⟩ := bind_eq_ok.mp h
    cases h
  · rename_i hshape
    obtain ⟨k, hk, h⟩ := bind_eq_ok.mp h
    cases h
    exact ha.rowAt hshape (resolve_lt hk)

/-- Writing keeps shape and size. -/
theorem overwrite (ha : a.WellFormed) (start stop : Nat) (new : Nat → Float) :
    (a.overwrite start stop new).WellFormed := by
  simpa [WellFormed, Tensor.overwrite] using ha

theorem set {i : Int64} {x : Number} (ha : a.WellFormed) (h : a.set i x = .ok b) :
    b.WellFormed := by
  unfold Tensor.set at h
  split at h <;> obtain ⟨k, hk, h⟩ := bind_eq_ok.mp h <;> cases h
  · exact ha.overwrite _ _ _
  · exact ha.overwrite _ _ _

theorem setRow {i : Int64} {row : Tensor} (ha : a.WellFormed)
    (h : a.setRow i row = .ok b) : b.WellFormed := by
  unfold Tensor.setRow at h
  split at h
  · cases h
  · split at h
    · obtain ⟨k, hk, h⟩ := bind_eq_ok.mp h
      cases h
      exact ha.overwrite _ _ _
    · cases h

theorem set₂ {i j : Int64} {x : Number} (ha : a.WellFormed)
    (h : a.set₂ i j x = .ok b) : b.WellFormed := by
  obtain ⟨k, hk, h⟩ := bind_eq_ok.mp h
  cases h
  exact ha.overwrite _ _ _

end WellFormed

/-! ## What can be built -/

/-- What is there after a write: the new tensor, or the old one if it failed. -/
def after (a : Tensor) : Except TensorFault Tensor → Tensor
  | .ok b => b
  | .error _ => a

/-- The tensors that the operations give. -/
inductive Built : Tensor → Prop
  | ofNumbers (items : List Number) : Built (ofNumbers items)
  | ofRows {rows : List Tensor} {a : Tensor} (hrows : ∀ r ∈ rows, Built r)
      (h : ofRows rows = .ok a) : Built a
  | construct (f : Constructor) (rows cols : Nat) : Built (construct f rows cols)
  | entrywise {op : Arithmetic} {a b c : Tensor} (ha : Built a) (hb : Built b)
      (h : entrywise op a b = .ok c) : Built c
  | product {a b c : Tensor} (ha : Built a) (hb : Built b)
      (h : a.product b = .ok c) : Built c
  | transpose {a : Tensor} (ha : Built a) : Built a.transpose
  | neg {a : Tensor} (ha : Built a) : Built a.neg
  | row {a r : Tensor} {i : Int64} (ha : Built a) (h : a.get i = .ok (.row r)) :
      Built r
  | set {a : Tensor} (ha : Built a) (i : Int64) (x : Number) :
      Built (a.after (a.set i x))
  | setRow {a row : Tensor} (ha : Built a) (hrow : Built row) (i : Int64) :
      Built (a.after (a.setRow i row))
  | set₂ {a : Tensor} (ha : Built a) (i j : Int64) (x : Number) :
      Built (a.after (a.set₂ i j x))

theorem WellFormed.after {a : Tensor} {written : Except TensorFault Tensor}
    (ha : a.WellFormed) (h : ∀ b, written = .ok b → b.WellFormed) :
    (a.after written).WellFormed := by
  cases written with
  | ok b => exact h b rfl
  | error e => exact ha

theorem Built.wellFormed {a : Tensor} (h : Built a) : a.WellFormed := by
  induction h with
  | ofNumbers items => exact wellFormed_ofNumbers items
  | ofRows _ h ih => exact wellFormed_ofRows ih h
  | construct f rows cols => exact wellFormed_construct f rows cols
  | entrywise _ _ h iha ihb => exact iha.entrywise ihb h
  | product _ _ h => exact wellFormed_product h
  | transpose _ ih => exact ih.transpose
  | neg _ ih => exact ih.neg
  | row _ h ih => exact ih.get h
  | set _ i x ih => exact ih.after fun b h => ih.set h
  | setRow _ _ i ih => exact ih.after fun b h => ih.setRow h
  | set₂ _ i j x ih => exact ih.after fun b h => ih.set₂ h

end MatrixLang.Tensor
