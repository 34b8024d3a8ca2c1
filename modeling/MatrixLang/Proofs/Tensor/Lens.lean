import MatrixLang.Proofs.Double
import MatrixLang.Proofs.Tensor.Bounds

/-!
# What is read after a write

An index names a position of an axis (`Names`). With that, every operation on a
single tensor is a rule about positions: it succeeds exactly on the indices that
name one, and an index from the end is another name of the position that an index
from the start has. Where the end is hangs on the size of the axis up to the greatest
index (`reach`), which is to say, on all axes that have entries, on its size
(`names_of_le`).

All three ways of writing replace the entries from one offset up to another
(`Tensor.overwrite`). The cells of a matrix lie at different offsets and its rows
beside each other (`mem_cell`, `mem_row`), so a write reaches the positions that
it is meant for and no others. What is read after it is then one fact about
`overwrite` for vectors (`WellFormed.readsAs_vector`) and one for matrices
(`WellFormed.readsAs_matrix`), of which each operation is an instance
(`WellFormed.vectorAccess`, `WellFormed.matrixAccess`).
-/

namespace MatrixLang.Tensor

/-! ## What an index names -/

/-- An index names a position of an axis, counted from the start or from the end. -/
def Names (size : Nat) (i : Int64) (k : Nat) : Prop :=
  k < size ∧ (i.toInt = k ∨ i.toInt < 0 ∧ i.toInt = (k : Int) - reach size)

/-- An index that is neither one from the start nor one from the end. -/
def Outside (size : Nat) (i : Int64) : Prop := i.toInt < -reach size ∨ size ≤ i.toInt

/-- An index from the end and the one from the start for the same position. -/
def Mirrored (size : Nat) (i j : Int64) : Prop :=
  i.toInt < 0 ∧ -reach size ≤ i.toInt ∧ j.toInt = reach size + i.toInt

theorem reach_le (size : Nat) : reach size ≤ size := Nat.min_le_left size maxIndex

/-- Up to the greatest index, the size is what indices from the end count back from. -/
theorem reach_of_le {size : Nat} (h : size ≤ maxIndex) : reach size = size := Nat.min_eq_left h

/-- On such an axis they count from its end. -/
theorem names_of_le {size k : Nat} {i : Int64} (h : size ≤ maxIndex) :
    Names size i k ↔ k < size ∧ (i.toInt = k ∨ i.toInt = (k : Int) - size) := by
  rw [Names, reach_of_le h]
  omega

theorem resolve_of_names {i : Int64} {size k : Nat} (h : Names size i k) (axis : Nat) :
    resolve i axis size = .ok k := by
  obtain ⟨hk, hi⟩ := h
  have hposition : (if i.toInt < 0 then i.toInt + reach size else i.toInt) = k := by
    split <;> omega
  have hin : (0 : Int) ≤ k ∧ (k : Int) < size := by omega
  simp only [resolve, hposition, if_pos hin, Int.toNat_natCast]

theorem Outside.resolve {i : Int64} {size : Nat} (h : Outside size i) (axis : Nat) :
    resolve i axis size = .error (.outOfBounds i axis size) := by
  simp only [Outside] at h
  have hreach := reach_le size
  refine if_neg ?_
  split <;> omega

theorem Names.unique {size k l : Nat} {i : Int64} (hk : Names size i k) (hl : Names size i l) :
    l = k := by
  obtain ⟨hk, hik⟩ := hk
  obtain ⟨hl, hil⟩ := hl
  omega

/-- There is no third kind of index. -/
theorem outside_or_names (size : Nat) (i : Int64) :
    Outside size i ∨ ∃ k, Names size i k ∧ ∀ l, Names size i l → l = k := by
  have hreach := reach_le size
  by_cases hout : Outside size i
  · exact .inl hout
  · simp only [Outside, not_or, Int.not_lt, Int.not_le] at hout
    rcases Int.lt_or_le i.toInt 0 with hneg | hpos
    · have hi : Names size i (i.toInt + reach size).toNat := ⟨by omega, .inr (by omega)⟩
      exact .inr ⟨_, hi, fun l => hi.unique⟩
    · have hi : Names size i i.toInt.toNat := ⟨by omega, .inl (by omega)⟩
      exact .inr ⟨_, hi, fun l => hi.unique⟩

theorem Mirrored.resolve {size : Nat} {i j : Int64} (h : Mirrored size i j) (axis : Nat) :
    resolve i axis size = resolve j axis size := by
  obtain ⟨hneg, hlow, hj⟩ := h
  have hreach := reach_le size
  have hi : Names size i j.toInt.toNat := ⟨by omega, .inr (by omega)⟩
  have hj : Names size j j.toInt.toNat := ⟨by omega, .inl (by omega)⟩
  rw [resolve_of_names hi, resolve_of_names hj]

/-! ## The offsets of cells and rows -/

section Offsets

variable {cols r r' c c' : Nat}

/-- Different cells have different offsets. -/
theorem mem_cell (hc : c < cols) (hc' : c' < cols) :
    (r * cols + c ≤ r' * cols + c' ∧ r' * cols + c' < r * cols + c + 1)
      ↔ r' = r ∧ c' = c := by
  constructor
  · intro h
    have heq : r' * cols + c' = r * cols + c := by omega
    refine ⟨?_, ?_⟩
    · rw [← cell_div (i := r') hc', heq, cell_div hc]
    · rw [← cell_mod (i := r') hc', heq, cell_mod hc]
  · rintro ⟨rfl, rfl⟩
    omega

/-- No cell of another row lies among those of a row. -/
theorem mem_row (hc' : c' < cols) :
    (r * cols ≤ r' * cols + c' ∧ r' * cols + c' < (r + 1) * cols) ↔ r' = r := by
  rw [← Nat.le_div_iff_mul_le (by omega), ← Nat.div_lt_iff_lt_mul (by omega),
    cell_div hc']
  omega

end Offsets

/-! ## Reading positions -/

variable {a : Tensor}

/-- The number that a tensor makes of a double that it holds. -/
def asNumber (a : Tensor) (x : Float) : Number :=
  match a.entryKind with
  | .int => .int (wholeNumber x)
  | .float => .float x

/-- What is read at a position where `x` was written. -/
def readBack (a : Tensor) (x : Float) : Number := a.asNumber (a.stored x)

/-- Integers are read back as the whole part of what was written, floats as they were. -/
theorem readBack_eq (a : Tensor) (x : Float) :
    a.readBack x = match a.entryKind with
      | .int => .int (wholeNumber x)
      | .float => .float x := by
  cases hkind : a.entryKind <;>
    simp only [readBack, asNumber, stored, hkind, wholeNumber_wholePart]

theorem numberAt_eq (a : Tensor) (k : Nat) : a.numberAt k = a.asNumber (a.entry k) := rfl

theorem get_vector {n k : Nat} {i : Int64} (ha : a.shape = .vector n) (hk : Names n i k) :
    a.get i = .ok (.entry (a.numberAt k)) := by
  simp only [get, ha, resolve_of_names hk]
  rfl

theorem get_matrix {rows cols r : Nat} {i : Int64} (ha : a.shape = .matrix rows cols)
    (hr : Names rows i r) : a.get i = .ok (.row (a.rowAt cols r)) := by
  simp only [get, ha, resolve_of_names hr]
  rfl

theorem offset_matrix {rows cols r c : Nat} {i j : Int64} (ha : a.shape = .matrix rows cols)
    (hr : Names rows i r) (hc : Names cols j c) : a.offset i j = .ok (r * cols + c) := by
  simp only [offset, ha, resolve_of_names hr, resolve_of_names hc]
  rfl

theorem get₂_matrix {rows cols r c : Nat} {i j : Int64} (ha : a.shape = .matrix rows cols)
    (hr : Names rows i r) (hc : Names cols j c) :
    a.get₂ i j = .ok (a.numberAt (r * cols + c)) := by
  rw [get₂, offset_matrix ha hr hc]
  rfl

theorem getElem?_rowAt {cols r c : Nat} (hc : c < cols) :
    (a.rowAt cols r).data[c]? = a.data[r * cols + c]? := by
  have hslot : c < (r + 1) * cols - r * cols := by
    rw [rowStop_eq]
    omega
  rw [rowAt, Array.getElem?_extract]
  split
  · rfl
  · rw [Array.getElem?_eq_none (by omega)]

/-- What is read at an offset is told by the kind and what is stored there. -/
theorem numberAt_congr {b : Tensor} {k l : Nat} (hkind : a.entryKind = b.entryKind)
    (h : a.data[k]? = b.data[l]?) : a.numberAt k = b.numberAt l := by
  simp only [numberAt, entry, Array.getD_eq_getD_getElem?, hkind, h]

/-- The rows of a matrix hold its cells. -/
theorem numberAt_rowAt {cols r c : Nat} (hc : c < cols) :
    (a.rowAt cols r).numberAt c = a.numberAt (r * cols + c) :=
  numberAt_congr rfl (getElem?_rowAt hc)

/-! ## Reading what was written -/

/-- The vector `b` is read as `a` is, but at the positions where `new` has a number. -/
structure VectorReads (b a : Tensor) (n : Nat) (new : Nat → Option Number) : Prop where
  shape : b.shape = a.shape
  entryKind : b.entryKind = a.entryKind
  entry : ∀ {i k}, Names n i k →
    b.get i = match new k with
      | some x => .ok (.entry x)
      | none => a.get i

/-- The matrix `b` is read as `a` is, but at the positions where `new` has a number. -/
structure MatrixReads (b a : Tensor) (rows cols : Nat) (new : Nat → Nat → Option Number) :
    Prop where
  shape : b.shape = a.shape
  entryKind : b.entryKind = a.entryKind
  cell : ∀ {i j r c}, Names rows i r → Names cols j c →
    b.get₂ i j = match new r c with
      | some x => .ok x
      | none => a.get₂ i j
  /-- A row is read with the numbers that its cells have. -/
  row : ∀ {i r}, Names rows i r → ∃ v, b.get i = .ok (.row v) ∧ v.shape = .vector cols
    ∧ ∀ {j c x}, Names cols j c → (v.get j = .ok (.entry x) ↔ b.get₂ i j = .ok x)
  /-- A row in which nothing is new stands as it was. -/
  otherRow : ∀ {i r}, Names rows i r → (∀ c < cols, new r c = none) → b.get i = a.get i

section Overwrite

variable {start stop : Nat} {f : Nat → Float}

@[simp] theorem entryKind_overwrite :
    (a.overwrite start stop f).entryKind = a.entryKind := rfl

theorem WellFormed.numberAt_overwrite (ha : a.WellFormed) {p : Nat} (hp : p < a.shape.size) :
    (a.overwrite start stop f).numberAt p
      = if start ≤ p ∧ p < stop then a.asNumber (f p) else a.numberAt p := by
  have hlt : p < a.data.size := by rwa [ha]
  have hentry : (a.overwrite start stop f).entry p
      = if start ≤ p ∧ p < stop then f p else a.entry p := by
    simp [Tensor.overwrite, entry, hlt]
  rw [numberAt_eq, numberAt_eq, hentry]
  split <;> rfl

theorem rowAt_overwrite {cols r : Nat}
    (h : ∀ c < cols, ¬(start ≤ r * cols + c ∧ r * cols + c < stop)) :
    (a.overwrite start stop f).rowAt cols r = a.rowAt cols r := by
  have hdata : (a.overwrite start stop f).data.extract (r * cols) ((r + 1) * cols)
      = a.data.extract (r * cols) ((r + 1) * cols) := by
    refine Array.ext (by simp [overwrite]) fun c hc _ => ?_
    have hcols : c < cols := by
      rw [Array.size_extract, rowStop_eq] at hc
      omega
    simp only [overwrite, Array.getElem_extract, Array.getElem_mapIdx, if_neg (h c hcols)]
  simp only [rowAt, hdata, entryKind_overwrite]

theorem WellFormed.readsAs_vector (ha : a.WellFormed) {n : Nat} (hshape : a.shape = .vector n)
    {new : Nat → Option Number}
    (hnew : ∀ k < n, new k = if start ≤ k ∧ k < stop then some (a.asNumber (f k)) else none) :
    (a.overwrite start stop f).VectorReads a n new where
  shape := rfl
  entryKind := rfl
  entry := fun {i k} hk => by
    have hsize : k < a.shape.size := by
      rw [hshape]
      exact hk.1
    rw [get_vector hshape hk, get_vector (a := a.overwrite start stop f) hshape hk,
      ha.numberAt_overwrite hsize, hnew k hk.1]
    split <;> rfl

theorem WellFormed.readsAs_matrix (ha : a.WellFormed) {rows cols : Nat}
    (hshape : a.shape = .matrix rows cols) {new : Nat → Nat → Option Number}
    (hnew : ∀ r < rows, ∀ c < cols, new r c
      = if start ≤ r * cols + c ∧ r * cols + c < stop then some (a.asNumber (f (r * cols + c)))
        else none) :
    (a.overwrite start stop f).MatrixReads a rows cols new where
  shape := rfl
  entryKind := rfl
  cell := fun {i j r c} hr hc => by
    have hsize : r * cols + c < a.shape.size := by
      rw [hshape]
      exact cell_lt hr.1 hc.1
    rw [get₂_matrix hshape hr hc, get₂_matrix (a := a.overwrite start stop f) hshape hr hc,
      ha.numberAt_overwrite hsize, hnew r hr.1 c hc.1]
    split <;> rfl
  row := fun {i r} hr => by
    refine ⟨_, get_matrix (a := a.overwrite start stop f) hshape hr, rfl, fun {j c x} hc => ?_⟩
    rw [get_vector rfl hc, get₂_matrix (a := a.overwrite start stop f) hshape hr hc,
      numberAt_rowAt hc.1]
    simp only [Except.ok.injEq, Item.entry.injEq]
  otherRow := fun {i r} hr hnone => by
    rw [get_matrix hshape hr, get_matrix (a := a.overwrite start stop f) hshape hr,
      rowAt_overwrite]
    intro c hc hin
    have hsome := hnew r hr.1 c hc
    rw [if_pos hin, hnone c hc] at hsome
    cases hsome

end Overwrite

/-! ## The operations -/

/-- Reading and writing the entries of a vector. -/
structure VectorAccess (a : Tensor) (n : Nat) : Prop where
  get : ∀ {i k}, Names n i k → a.get i = .ok (.entry (a.numberAt k))
  set : ∀ {i k} x, Names n i k → ∃ b, a.set i x = .ok b
    ∧ b.VectorReads a n fun k' => if k' = k then some (a.readBack x.toDouble) else none
  mirrored : ∀ {i j}, Mirrored n i j → a.get i = a.get j ∧ ∀ x, a.set i x = a.set j x
  outside : ∀ {i}, Outside n i → a.get i = .error (.outOfBounds i 0 n)
    ∧ ∀ x, a.set i x = .error (.outOfBounds i 0 n)
  /-- Two indices and rows are for matrices. -/
  unfit : ∀ i j, a.get₂ i j = .error .tooManyIndices
    ∧ (∀ x, a.set₂ i j x = .error .tooManyIndices)
    ∧ ∀ v, a.setRow i v = .error .sequenceIntoElement

/-- Reading and writing the cells and the rows of a matrix. -/
structure MatrixAccess (a : Tensor) (rows cols : Nat) : Prop where
  get₂ : ∀ {i j r c}, Names rows i r → Names cols j c →
    a.get₂ i j = .ok (a.numberAt (r * cols + c))
  set₂ : ∀ {i j r c} x, Names rows i r → Names cols j c → ∃ b, a.set₂ i j x = .ok b
    ∧ b.MatrixReads a rows cols fun r' c' =>
      if r' = r ∧ c' = c then some (a.readBack x.toDouble) else none
  /-- A number fills a row. -/
  set : ∀ {i r} x, Names rows i r → ∃ b, a.set i x = .ok b
    ∧ b.MatrixReads a rows cols fun r' _ =>
      if r' = r then some (a.readBack x.toDouble) else none
  /-- A vector replaces a row, position by position. -/
  setRow : ∀ {i r} {v : Tensor}, Names rows i r → v.shape = .vector cols →
    ∃ b, a.setRow i v = .ok b ∧ b.MatrixReads a rows cols fun r' c' =>
      if r' = r then some (a.readBack (v.entry c')) else none
  mirroredRow : ∀ {i i'}, Mirrored rows i i' → a.get i = a.get i'
    ∧ (∀ x, a.set i x = a.set i' x) ∧ (∀ v, a.setRow i v = a.setRow i' v)
    ∧ ∀ j, a.get₂ i j = a.get₂ i' j ∧ ∀ x, a.set₂ i j x = a.set₂ i' j x
  mirroredColumn : ∀ {j j'}, Mirrored cols j j' → ∀ i, a.get₂ i j = a.get₂ i j'
    ∧ ∀ x, a.set₂ i j x = a.set₂ i j' x
  /-- A row outside of the matrix is reported whatever the column is. -/
  outsideRow : ∀ {i}, Outside rows i → a.get i = .error (.outOfBounds i 0 rows)
    ∧ (∀ x, a.set i x = .error (.outOfBounds i 0 rows))
    ∧ (∀ v : Tensor, v.shape = .vector cols → a.setRow i v = .error (.outOfBounds i 0 rows))
    ∧ ∀ j, a.get₂ i j = .error (.outOfBounds i 0 rows)
      ∧ ∀ x, a.set₂ i j x = .error (.outOfBounds i 0 rows)
  outsideColumn : ∀ {i r j}, Names rows i r → Outside cols j →
    a.get₂ i j = .error (.outOfBounds j 1 cols)
      ∧ ∀ x, a.set₂ i j x = .error (.outOfBounds j 1 cols)
  /-- What is not a row of this matrix is reported whatever the index is. -/
  unfit : ∀ (v : Tensor), v.shape ≠ .vector cols → ∀ i,
    a.setRow i v = .error (.rowLength v.shape cols)

theorem WellFormed.vectorAccess (ha : a.WellFormed) {n : Nat} (hshape : a.shape = .vector n) :
    a.VectorAccess n where
  get := get_vector hshape
  set := fun {i k} x hk => by
    refine ⟨a.overwrite k (k + 1) fun _ => a.stored x.toDouble, ?_,
      ha.readsAs_vector hshape fun k' _ => ?_⟩
    · simp only [Tensor.set, hshape, resolve_of_names hk]
      rfl
    · have hone : k' = k ↔ k ≤ k' ∧ k' < k + 1 := by omega
      simp only [hone]
      rfl
  mirrored := fun h => by
    simp only [Tensor.get, Tensor.set, hshape, h.resolve, implies_true, and_self]
  outside := fun h => by
    simp only [Tensor.get, Tensor.set, hshape, h.resolve, error_bind, implies_true, and_self]
  unfit := fun i j => by
    simp only [Tensor.get₂, Tensor.set₂, Tensor.setRow, offset, hshape, error_bind, implies_true,
      and_self]

theorem WellFormed.matrixAccess (ha : a.WellFormed) {rows cols : Nat}
    (hshape : a.shape = .matrix rows cols) : a.MatrixAccess rows cols where
  get₂ := get₂_matrix hshape
  set₂ := fun {i j r c} x hr hc => by
    refine ⟨a.overwrite (r * cols + c) (r * cols + c + 1) fun _ => a.stored x.toDouble, ?_,
      ha.readsAs_matrix hshape fun r' _ c' hc' => ?_⟩
    · simp only [Tensor.set₂, offset_matrix hshape hr hc]
      rfl
    · simp only [mem_cell hc.1 hc', readBack]
  set := fun {i r} x hr => by
    refine ⟨a.overwrite (r * cols) ((r + 1) * cols) fun _ => a.stored x.toDouble, ?_,
      ha.readsAs_matrix hshape fun r' _ c' hc' => ?_⟩
    · simp only [Tensor.set, hshape, resolve_of_names hr]
      rfl
    · simp only [mem_row hc', readBack]
  setRow := fun {i r v} hr hv => by
    refine ⟨a.overwrite (r * cols) ((r + 1) * cols) fun p => a.stored (v.entry (p - r * cols)),
      ?_, ha.readsAs_matrix hshape fun r' _ c' hc' => ?_⟩
    · simp only [Tensor.setRow, hshape, hv, if_true, resolve_of_names hr]
      rfl
    · simp only [mem_row hc', readBack]
      split
      · subst r'
        rw [Nat.add_sub_cancel_left]
      · rfl
  mirroredRow := fun h => by
    simp only [Tensor.get, Tensor.set, Tensor.setRow, Tensor.get₂, Tensor.set₂, offset, hshape,
      h.resolve, implies_true, and_self]
  mirroredColumn := fun h => by
    simp only [Tensor.get₂, Tensor.set₂, offset, hshape, h.resolve, implies_true, and_self]
  outsideRow := fun {i} h => by
    have hoffset : ∀ j, a.offset i j = .error (.outOfBounds i 0 rows) := fun j => by
      simp only [offset, hshape, h.resolve, error_bind]
    refine ⟨?_, fun x => ?_, fun v hv => ?_, fun j => ⟨?_, fun x => ?_⟩⟩
    · simp only [Tensor.get, hshape, h.resolve, error_bind]
    · simp only [Tensor.set, hshape, h.resolve, error_bind]
    · simp only [Tensor.setRow, hshape, hv, if_true, h.resolve, error_bind]
    · simp only [Tensor.get₂, hoffset, error_bind]
    · simp only [Tensor.set₂, hoffset, error_bind]
  outsideColumn := fun hr h => by
    simp only [Tensor.get₂, Tensor.set₂, offset, hshape, resolve_of_names hr, h.resolve,
      ok_bind, error_bind, implies_true, and_self]
  unfit := fun v hv i => by simp only [Tensor.setRow, hshape, if_neg hv]

/-- Two rows of two integers. -/
def fourIntegers : Tensor := ⟨.matrix 2 2, .int, #[1.0, 2.0, 3.0, 4.0]⟩

end MatrixLang.Tensor
