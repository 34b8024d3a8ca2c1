import MatrixLang.Proofs.Tensor.Lens

/-!
# Stacked rows

Vectors of one length make a matrix, and the entries of each of them stand in the
row of the matrix that has its number (`ofRows_vectors`). A matrix is told by its
entries, cell by cell (`ext_cells`), so the rows that are read from a matrix make
that matrix again (`WellFormed.ofRows_rows`).
-/

namespace MatrixLang.Tensor

variable {a : Tensor} {rows : List Tensor} {lengths : List Nat} {m n i j : Nat}

/-! ## Cells -/

/-- Every offset of a matrix is that of a cell. -/
theorem exists_cell {p : Nat} (hp : p < m * n) : ∃ i < m, ∃ j < n, i * n + j = p := by
  have hn : 0 < n := Nat.pos_of_mul_pos_left (Nat.zero_lt_of_lt hp)
  exact ⟨p / n, Nat.div_lt_of_lt_mul (by rwa [Nat.mul_comm]), p % n, Nat.mod_lt p hn,
    Nat.div_add_mod' p n⟩

/-- Matrices of one shape and kind are equal if they are so cell by cell. -/
theorem ext_cells {b : Tensor} (ha : a.WellFormed) (hb : b.WellFormed)
    (hshape : a.shape = .matrix m n) (hshape' : b.shape = .matrix m n)
    (hkind : a.entryKind = b.entryKind)
    (h : ∀ i < m, ∀ j < n, a.data[i * n + j]? = b.data[i * n + j]?) : a = b := by
  have hdata : a.data = b.data := by
    refine Array.ext_getElem? fun p => ?_
    rcases Nat.lt_or_ge p (m * n) with hp | hp
    · obtain ⟨i, hi, j, hj, rfl⟩ := exists_cell hp
      exact h i hi j hj
    · rw [Array.getElem?_eq_none (by rwa [ha.size_matrix hshape]),
        Array.getElem?_eq_none (by rwa [hb.size_matrix hshape'])]
  obtain ⟨s, k, data⟩ := a
  obtain ⟨s', k', data'⟩ := b
  cases hshape
  cases hshape'
  cases hkind
  cases hdata
  rfl

theorem size_rowAt_le (a : Tensor) (n i : Nat) : (a.rowAt n i).data.size ≤ n := by
  rw [rowAt, Array.size_extract, rowStop_eq]
  omega

/-! ## Stacks -/

/-- What becomes of vectors of these lengths. -/
theorem ofRows_eq (h : rows.map shape = lengths.map .vector) :
    ofRows rows = if lengths.all (· = lengths.headD 0) then
        .ok ⟨.matrix rows.length (lengths.headD 0), joinedKind rows,
          (rows.flatMap (·.data.toList)).toArray⟩
      else .error (.raggedRows lengths) := by
  rw [ofRows, mapM_vectorLength.mpr h]
  rfl

/-- All are of the length of the first one, or two lengths differ. -/
theorem all_head_eq_false :
    lengths.all (· = lengths.headD 0) = false ↔ ∃ k ∈ lengths, ∃ l ∈ lengths, k ≠ l := by
  cases lengths with
  | nil => simp
  | cons k rest =>
      rw [List.all_eq_false]
      constructor
      · rintro ⟨l, hl, hne⟩
        exact ⟨k, List.mem_cons_self, l, hl, fun h => hne (by simp [h])⟩
      · rintro ⟨l, hl, l', hl', hne⟩
        by_cases hlk : l = k
        · exact ⟨l', hl', by simpa [← hlk] using hne.symm⟩
        · exact ⟨l, hl, by simpa using hlk⟩

/-- A list that has no lengths has a matrix in it. -/
theorem mapM_vectorLength_error {e : TensorFault} (h : rows.mapM vectorLength = .error e) :
    ∃ s, e = .rowNotVector s := by
  have hrows : Settles (fun e => ∃ s, e = .rowNotVector s) (fun _ => True)
      (rows.mapM vectorLength) := by
    refine (Settles.mapM (P := fun _ => True) fun r _ => ?_).mono fun _ _ => trivial
    unfold vectorLength
    split
    · trivial
    · exact ⟨_, rfl⟩
  exact hrows.fails h

theorem ofRows_eq_ragged :
    ofRows rows = .error (.raggedRows lengths) ↔ rows.map shape = lengths.map .vector
      ∧ ∃ k ∈ lengths, ∃ l ∈ lengths, k ≠ l := by
  constructor
  · intro h
    cases hlengths : rows.mapM vectorLength with
    | error e =>
        obtain ⟨s, rfl⟩ := mapM_vectorLength_error hlengths
        rw [ofRows, hlengths] at h
        cases h
    | ok ls =>
        have hshapes := mapM_vectorLength.mp hlengths
        rw [ofRows_eq hshapes] at h
        cases hall : ls.all (· = ls.headD 0) with
        | true =>
            rw [hall] at h
            cases h
        | false =>
            rw [hall] at h
            cases h
            exact ⟨hshapes, all_head_eq_false.mp hall⟩
  · rintro ⟨hshapes, hdiffer⟩
    rw [ofRows_eq hshapes, all_head_eq_false.mpr hdiffer]
    rfl

/-- What is stacked of vectors of one length is in the row of its number. -/
structure IsStack (a : Tensor) (rows : List Tensor) (n : Nat) : Prop where
  wellFormed : a.WellFormed
  shape : a.shape = .matrix rows.length (if rows = [] then 0 else n)
  entryKind : a.entryKind = joinedKind rows
  row : ∀ {i r}, rows[i]? = some r → (a.rowAt n i).data = r.data

theorem getElem?_flatMap_data {r : Tensor} (h : ∀ r ∈ rows, r.data.size = n)
    (hr : rows[i]? = some r) (hj : j < n) :
    (rows.flatMap (·.data.toList))[i * n + j]? = r.data[j]? := by
  induction rows generalizing i with
  | nil => cases hr
  | cons s rest ih =>
      obtain ⟨hs, hrest⟩ := List.forall_mem_cons.mp h
      rw [List.flatMap_cons]
      cases i with
      | zero =>
          cases hr
          rw [Nat.zero_mul, Nat.zero_add, List.getElem?_append_left (by simpa [hs] using hj),
            Array.getElem?_toList]
      | succ i =>
          have hbehind : (i + 1) * n + j - s.data.toList.length = i * n + j := by
            rw [Array.length_toList, hs, rowStop_eq]
            omega
          rw [List.getElem?_append_right (by rw [Array.length_toList, hs, rowStop_eq]; omega),
            hbehind, ih hrest hr]

theorem ofRows_vectors (h : ∀ r ∈ rows, r.WellFormed ∧ r.shape = .vector n) :
    ∃ a, ofRows rows = .ok a ∧ a.IsStack rows n := by
  have hshapes := map_shape_replicate fun r hr => (h r hr).2
  have hsize : ∀ r ∈ rows, r.data.size = n := fun r hr => (h r hr).1.size_vector (h r hr).2
  have hhead : (List.replicate rows.length n).headD 0 = if rows = [] then 0 else n := by
    cases rows with
    | nil => rfl
    | cons r rest => rfl
  have hall : (List.replicate rows.length n).all (· = if rows = [] then 0 else n) = true := by
    cases rows with
    | nil => rfl
    | cons r rest => simp
  have hstack := ofRows_eq hshapes
  rw [hhead, hall, if_pos rfl] at hstack
  refine ⟨_, hstack, wellFormed_ofRows (fun r hr => (h r hr).1) hstack, rfl, rfl, ?_⟩
  intro i r hr
  have hmem : r ∈ rows := List.mem_of_getElem? hr
  refine Array.ext_getElem? fun j => ?_
  rcases Nat.lt_or_ge j n with hj | hj
  · rw [getElem?_rowAt hj, List.getElem?_toArray, getElem?_flatMap_data hsize hr hj]
  · rw [Array.getElem?_eq_none (Nat.le_trans (size_rowAt_le _ _ _) hj),
      Array.getElem?_eq_none (by rwa [hsize r hmem])]

/-! ## The rows of a matrix -/

theorem joinedKind_of_all {k : EntryKind} (h : ∀ r ∈ rows, r.entryKind = k) (hne : rows ≠ []) :
    joinedKind rows = k := by
  cases rows with
  | nil => exact absurd rfl hne
  | cons r rest =>
      obtain ⟨hr, hrest⟩ := List.forall_mem_cons.mp h
      rw [joinedKind, hr]
      clear h hne hr
      induction rest with
      | nil => rfl
      | cons s rest ih =>
          obtain ⟨hs, hrest⟩ := List.forall_mem_cons.mp hrest
          have hjoin : k.join k = k := by cases k <;> rfl
          rw [List.foldl_cons, hs, hjoin, ih hrest]

/-- A matrix is the stack of its rows. -/
theorem WellFormed.ofRows_rows (ha : a.WellFormed) (hshape : a.shape = .matrix m n) (hm : 1 ≤ m) :
    ofRows ((List.range m).map (a.rowAt n)) = .ok a := by
  have hrows : ∀ r ∈ (List.range m).map (a.rowAt n), r.WellFormed ∧ r.shape = .vector n := by
    intro r hr
    obtain ⟨i, hi, rfl⟩ := List.mem_map.mp hr
    exact ⟨ha.rowAt hshape (List.mem_range.mp hi), rfl⟩
  have hne : (List.range m).map (a.rowAt n) ≠ [] :=
    List.ne_nil_of_length_pos (by rwa [List.length_map, List.length_range])
  obtain ⟨b, hb, hstack⟩ := ofRows_vectors hrows
  have hbshape : b.shape = .matrix m n := by
    rw [hstack.shape, if_neg hne, List.length_map, List.length_range]
  have hbkind : b.entryKind = a.entryKind :=
    hstack.entryKind.trans (joinedKind_of_all (List.forall_mem_map.mpr fun _ _ => rfl) hne)
  rw [hb, ext_cells hstack.wellFormed ha hbshape hshape hbkind fun i hi j hj => ?_]
  have hrow : (b.rowAt n i).data = (a.rowAt n i).data := hstack.row (by simp [hi])
  rw [← getElem?_rowAt hj, hrow, getElem?_rowAt hj]

end MatrixLang.Tensor
