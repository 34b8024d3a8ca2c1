import MatrixLang.Proofs.Tensor.WellFormed
import MatrixLang.Tensor.Text

/-!
# Accesses stay inside the entries

The operations on tensors read and write entries at offsets that they compute
from a shape. Here they are written once more with accesses that fail outside of
the entries, offset by offset and slice by slice, in the order in which a machine
goes through its loops (`get?`, `product?`, `chars?`, …). A `none` says that there
was an access outside.

On well-formed tensors there is none, and the results are those of the operations
(`built_inBounds`). A loop is followed by telling the array after each of its
rounds (`foldlM_range`). For that an array is given by its size and a function
from offsets to entries (`tabulate`), which a round changes at one offset.

Offsets are natural numbers here. Those inside the entries are smaller than the
number of entries, so that a machine word holds them.
-/

namespace MatrixLang.Tensor

/-! ## Accesses that may fail -/

section Accesses

variable {α β : Type}

/-- The elements from `start` up to `stop`. -/
def slice? (data : Array α) (start stop : Nat) : Option (Array α) :=
  if start ≤ stop ∧ stop ≤ data.size then some (data.extract start stop) else none

def store? (data : Array α) (k : Nat) (x : α) : Option (Array α) :=
  if h : k < data.size then some (data.set k x) else none

/-- Changes a slice in its place. What is new may depend on the position in the
slice and on what was there. -/
def change? (data : Array α) (start stop : Nat) (new : Nat → α → α) :
    Option (Array α) := do
  let slots ← slice? data start stop
  some (data.extract 0 start ++ slots.mapIdx new ++ data.extract stop data.size)

/-- An access at an index. A bad index is reported; with a good one it is up to
the access whether it fails. -/
def located (index : Except TensorFault α) (access : α → Option β) :
    Option (Except TensorFault β) :=
  match index with
  | .error e => some (.error e)
  | .ok k => (access k).map .ok

theorem located_eq {index : Except TensorFault α} {access : α → Option β}
    {f : α → β} (h : ∀ k, index = .ok k → access k = some (f k)) :
    located index access = some (index >>= fun k => .ok (f k)) := by
  cases index with
  | error e => rfl
  | ok k =>
      rw [located, h k rfl]
      rfl

theorem slice?_eq {data : Array α} {start stop : Nat} (h : start ≤ stop)
    (hstop : stop ≤ data.size) :
    slice? data start stop = some (data.extract start stop) :=
  if_pos ⟨h, hstop⟩

theorem store?_eq {data : Array α} {k : Nat} (h : k < data.size) (x : α) :
    store? data k x
      = some (data.mapIdx fun p y => if k ≤ p ∧ p < k + 1 then x else y) := by
  rw [store?, dif_pos h, Option.some_inj]
  refine Array.ext (by simp) fun p _ _ => ?_
  have hone : k = p ↔ k ≤ p ∧ p < k + 1 := by omega
  simp only [Array.getElem_set, Array.getElem_mapIdx, hone]

/-- The slice is changed and the rest is not. -/
theorem change?_eq {data : Array α} {start stop : Nat} {new : Nat → α → α}
    {f : Nat → α} (h : start ≤ stop) (hstop : stop ≤ data.size)
    (hnew : ∀ t x, t < stop - start → new t x = f (start + t)) :
    change? data start stop new
      = some (data.mapIdx fun p x => if start ≤ p ∧ p < stop then f p else x) := by
  rw [change?, slice?_eq h hstop, Option.bind_eq_bind, Option.bind_some,
    Option.some_inj]
  refine Array.ext ?_ fun p hp hp' => ?_
  · simp only [Array.size_append, Array.size_extract, Array.size_mapIdx]
    omega
  · simp only [Array.getElem_append, Array.size_append, Array.size_extract,
      Array.size_mapIdx, Array.getElem_extract, Array.getElem_mapIdx,
      Nat.min_eq_left hstop, Nat.min_eq_left (Nat.le_trans h hstop), Nat.sub_zero,
      Nat.zero_add]
    by_cases hbefore : p < start
    · rw [dif_pos (by omega), dif_pos hbefore, if_neg (by omega)]
    by_cases hinside : p < stop
    · rw [dif_pos (by omega), dif_neg hbefore, if_pos (by omega),
        hnew _ _ (by omega)]
      congr 1
      omega
    · rw [dif_neg (by omega), if_neg (by omega)]
      congr 1
      omega

/-- A loop that succeeds in every round, in the states that it goes through. -/
theorem foldlM_range {step : β → Nat → Option β} {n : Nat} (states : Nat → β)
    (h : ∀ i < n, step (states i) i = some (states (i + 1))) :
    (List.range n).foldlM step (states 0) = some (states n) := by
  induction n with
  | zero => rfl
  | succ n ih =>
      rw [List.range_succ, List.foldlM_append, ih fun i hi => h i (by omega)]
      simp [h n (by omega)]

theorem mapM_eq_some {f : α → Option β} {g : α → β} {l : List α}
    (h : ∀ x ∈ l, f x = some (g x)) : l.mapM f = some (l.map g) := by
  induction l with
  | nil => rfl
  | cons x rest ih =>
      obtain ⟨hx, hrest⟩ := List.forall_mem_cons.mp h
      rw [List.mapM_cons, hx, ih hrest]
      rfl

end Accesses

/-! ## Arrays as functions -/

/-- The array of `size` entries that `f` gives. -/
def tabulate (size : Nat) (f : Nat → Float) : Array Float :=
  Array.ofFn fun p : Fin size => f p

@[simp] theorem size_tabulate (size : Nat) (f : Nat → Float) :
    (tabulate size f).size = size :=
  Array.size_ofFn

theorem getElem?_tabulate {size k : Nat} (f : Nat → Float) (h : k < size) :
    (tabulate size f)[k]? = some (f k) := by
  simp [tabulate, h]

theorem tabulate_congr {size : Nat} {f g : Nat → Float}
    (h : ∀ p < size, f p = g p) : tabulate size f = tabulate size g :=
  congrArg Array.ofFn (funext fun p => h p p.isLt)

theorem store?_tabulate {size k : Nat} {f g : Nat → Float} {x : Float}
    (hk : k < size) (hx : g k = x) (h : ∀ p < size, p ≠ k → g p = f p) :
    store? (tabulate size f) k x = some (tabulate size g) := by
  rw [store?, dif_pos (by rwa [size_tabulate]), Option.some_inj]
  refine Array.ext (by simp) fun p hp hp' => ?_
  simp only [size_tabulate] at hp'
  simp only [tabulate, Array.getElem_set, Array.getElem_ofFn]
  split
  · subst_vars
    rfl
  · exact (h p hp' (by omega)).symm

theorem push_tabulate (size : Nat) (f : Nat → Float) :
    (tabulate size f).push (f size) = tabulate (size + 1) f := by
  rw [tabulate, tabulate, Array.ofFn_succ]
  rfl

/-! ## The places of cells -/

theorem cell_div {i j cols : Nat} (hj : j < cols) : (i * cols + j) / cols = i := by
  rw [Nat.mul_comm, Nat.mul_add_div (by omega), Nat.div_eq_of_lt hj, Nat.add_zero]

theorem cell_mod {i j cols : Nat} (hj : j < cols) : (i * cols + j) % cols = j := by
  rw [Nat.mul_comm, Nat.mul_add_mod, Nat.mod_eq_of_lt hj]

/-! ## Reading -/

variable {a b : Tensor}

/-- The entry at an offset, if there is one. -/
def numberAt? (a : Tensor) (k : Nat) : Option Number :=
  a.data[k]?.map fun x =>
    match a.entryKind with
    | .int => .int (wholeNumber x)
    | .float => .float x

def get? (a : Tensor) (i : Int64) : Option (Except TensorFault Item) :=
  match a.shape with
  | .vector n => located (resolve i 0 n) fun k => (a.numberAt? k).map .entry
  | .matrix rows cols =>
      located (resolve i 0 rows) fun k =>
        (slice? a.data (k * cols) ((k + 1) * cols)).map fun data =>
          .row ⟨.vector cols, a.entryKind, data⟩

def get₂? (a : Tensor) (i j : Int64) : Option (Except TensorFault Number) :=
  located (a.offset i j) a.numberAt?

theorem getElem?_eq_entry {k : Nat} (h : k < a.data.size) :
    a.data[k]? = some (a.entry k) := by
  simp [entry, h]

theorem numberAt?_eq {k : Nat} (h : k < a.data.size) :
    a.numberAt? k = some (a.numberAt k) := by
  cases hkind : a.entryKind <;>
    simp only [numberAt?, numberAt, hkind, getElem?_eq_entry h, Option.map_some]

theorem WellFormed.index_lt {n k : Nat} {i : Int64} (ha : a.WellFormed)
    (h : a.shape = .vector n) (hk : resolve i 0 n = .ok k) : k < a.data.size := by
  rw [ha.size_vector h]
  exact resolve_lt hk

theorem WellFormed.row_le {rows cols k : Nat} {i : Int64} (ha : a.WellFormed)
    (h : a.shape = .matrix rows cols) (hk : resolve i 0 rows = .ok k) :
    k * cols ≤ (k + 1) * cols ∧ (k + 1) * cols ≤ a.data.size := by
  rw [ha.size_matrix h]
  exact ⟨by rw [rowStop_eq]; omega, rowStop_le cols (resolve_lt hk)⟩

theorem WellFormed.get? (ha : a.WellFormed) (i : Int64) :
    a.get? i = some (a.get i) := by
  cases hshape : a.shape with
  | vector n =>
      simp only [Tensor.get?, Tensor.get, hshape]
      refine located_eq fun k hk => ?_
      rw [numberAt?_eq (ha.index_lt hshape hk), Option.map_some]
  | matrix rows cols =>
      simp only [Tensor.get?, Tensor.get, hshape]
      refine located_eq fun k hk => ?_
      obtain ⟨hstart, hstop⟩ := ha.row_le hshape hk
      rw [slice?_eq hstart hstop]
      rfl

theorem WellFormed.get₂? (ha : a.WellFormed) (i j : Int64) :
    a.get₂? i j = some (a.get₂ i j) :=
  located_eq fun k hk => numberAt?_eq (by rw [ha]; exact offset_lt hk)

/-! ## Writing -/

def withData (a : Tensor) (data : Array Float) : Tensor := { a with data }

def set? (a : Tensor) (i : Int64) (x : Number) :
    Option (Except TensorFault Tensor) :=
  let y := a.stored x.toDouble
  match a.shape with
  | .vector n =>
      located (resolve i 0 n) fun k => (store? a.data k y).map a.withData
  | .matrix rows cols =>
      located (resolve i 0 rows) fun k =>
        (change? a.data (k * cols) ((k + 1) * cols) fun _ _ => y).map a.withData

/-- The slots take the entries of the row as far as there are any. -/
def setRow? (a : Tensor) (i : Int64) (row : Tensor) :
    Option (Except TensorFault Tensor) :=
  match a.shape with
  | .vector _ => some (.error .sequenceIntoElement)
  | .matrix rows cols =>
      if row.shape = .vector cols then
        located (resolve i 0 rows) fun k =>
          (change? a.data (k * cols) ((k + 1) * cols) fun t x =>
            row.data[t]?.elim x a.stored).map a.withData
      else some (.error (.rowLength row.shape cols))

def set₂? (a : Tensor) (i j : Int64) (x : Number) :
    Option (Except TensorFault Tensor) :=
  located (a.offset i j) fun k =>
    (store? a.data k (a.stored x.toDouble)).map a.withData

theorem WellFormed.set? (ha : a.WellFormed) (i : Int64) (x : Number) :
    a.set? i x = some (a.set i x) := by
  cases hshape : a.shape with
  | vector n =>
      simp only [Tensor.set?, Tensor.set, hshape]
      refine located_eq fun k hk => ?_
      rw [store?_eq (ha.index_lt hshape hk)]
      rfl
  | matrix rows cols =>
      simp only [Tensor.set?, Tensor.set, hshape]
      refine located_eq fun k hk => ?_
      obtain ⟨hstart, hstop⟩ := ha.row_le hshape hk
      rw [change?_eq (f := fun _ => a.stored x.toDouble) hstart hstop fun _ _ _ => rfl]
      rfl

theorem WellFormed.setRow? {row : Tensor} (ha : a.WellFormed)
    (hrow : row.WellFormed) (i : Int64) :
    a.setRow? i row = some (a.setRow i row) := by
  cases hshape : a.shape with
  | vector n => simp only [Tensor.setRow?, Tensor.setRow, hshape]
  | matrix rows cols =>
      simp only [Tensor.setRow?, Tensor.setRow, hshape]
      split
      · rename_i hcols
        refine located_eq fun k hk => ?_
        obtain ⟨hstart, hstop⟩ := ha.row_le hshape hk
        have hslot : ∀ t x, t < (k + 1) * cols - k * cols →
            row.data[t]?.elim x a.stored
              = a.stored (row.entry (k * cols + t - k * cols)) := by
          intro t x ht
          rw [rowStop_eq, Nat.add_sub_cancel_left, ← hrow.size_vector hcols] at ht
          rw [getElem?_eq_entry ht, Option.elim_some, Nat.add_sub_cancel_left]
        rw [change?_eq (f := fun p => a.stored (row.entry (p - k * cols))) hstart hstop
          hslot]
        rfl
      · rfl

theorem WellFormed.set₂? (ha : a.WellFormed) (i j : Int64) (x : Number) :
    a.set₂? i j x = some (a.set₂ i j x) := by
  refine located_eq fun k hk => ?_
  rw [store?_eq (by rw [ha]; exact offset_lt hk)]
  rfl

/-! ## The identity -/

/-- Ones are put on the diagonal of zeros. -/
def eye? (rows cols : Nat) : Option Tensor :=
  ((List.range (min rows cols)).foldlM
    (fun data i => store? data (i * cols + i) 1.0)
    (zeros rows cols).data).map (zeros rows cols).withData

/-- The entries of an identity of which the first `n` ones are there. -/
def diagonal (cols n p : Nat) : Float :=
  if p / cols = p % cols ∧ p / cols < n then 1.0 else 0.0

theorem eye?_eq (rows cols : Nat) : eye? rows cols = some (eye rows cols) := by
  have hstart : (zeros rows cols).data
      = tabulate (rows * cols) (diagonal cols 0) := by
    refine Array.ext (by simp [zeros, filled]) fun p _ _ => ?_
    simp [zeros, filled, tabulate, diagonal]
  have hround : ∀ i < min rows cols,
      store? (tabulate (rows * cols) (diagonal cols i)) (i * cols + i) 1.0
        = some (tabulate (rows * cols) (diagonal cols (i + 1))) := by
    intro i hi
    have hcols : i < cols := by omega
    refine store?_tabulate (cell_lt (by omega) hcols) ?_ fun p _ hne => ?_
    · simp [diagonal, cell_div hcols, cell_mod hcols]
    · have hother : ¬(p / cols = i ∧ p % cols = i) := by
        rintro ⟨hdiv, hmod⟩
        have hp := Nat.div_add_mod' p cols
        rw [hdiv, hmod] at hp
        exact hne hp.symm
      have hsame : (p / cols = p % cols ∧ p / cols < i + 1)
          ↔ (p / cols = p % cols ∧ p / cols < i) := by omega
      simp only [diagonal, hsame]
  have hend : tabulate (rows * cols) (diagonal cols (min rows cols))
      = tabulate (rows * cols) fun p => if p / cols = p % cols then 1.0 else 0.0 := by
    refine tabulate_congr fun p hp => ?_
    have hdiv : p / cols < rows := Nat.div_lt_of_lt_mul (by rwa [Nat.mul_comm])
    have hcols : 0 < cols := Nat.pos_of_mul_pos_left (Nat.zero_lt_of_lt hp)
    have hmod : p % cols < cols := Nat.mod_lt p hcols
    have hsame : (p / cols = p % cols ∧ p / cols < min rows cols)
        ↔ p / cols = p % cols := by omega
    simp only [diagonal, hsame]
  have hloop : (List.range (min rows cols)).foldlM
      (fun data i => store? data (i * cols + i) 1.0)
      (tabulate (rows * cols) (diagonal cols 0))
        = some (tabulate (rows * cols) (diagonal cols (min rows cols))) :=
    foldlM_range (fun i => tabulate (rows * cols) (diagonal cols i)) hround
  rw [eye?, hstart, hloop, Option.map_some, hend]
  rfl

/-! ## The product -/

/-- Adds `x` times row `t` of `b`, which has `n` columns, to row `row` of the
entries. -/
def addRow? (b : Tensor) (n row t : Nat) (x : Float) (data : Array Float) :
    Option (Array Float) :=
  (List.range n).foldlM (fun data col => do
    let y ← b.data[t * n + col]?
    let sum ← data[row * n + col]?
    store? data (row * n + col) (sum + x * y)) data

def productRow? (a b : Tensor) (k n : Nat) (data : Array Float) (row : Nat) :
    Option (Array Float) :=
  (List.range k).foldlM (fun data t => do
    let x ← a.data[row * k + t]?
    addRow? b n row t x data) data

def productData? (a b : Tensor) (m k n : Nat) : Option (Array Float) :=
  (List.range m).foldlM (productRow? a b k n) (Array.replicate (m * n) 0.0)

def product? (a b : Tensor) : Option (Except TensorFault Tensor) :=
  match a.shape, b.shape with
  | .matrix m k, .matrix k' n =>
      if k = k' then
        (productData? a b m k n).map fun data =>
          .ok ⟨.matrix m n, a.entryKind.join b.entryKind, data⟩
      else some (.error (.productMismatch a.shape b.shape))
  | _, _ => some (.error (.productOfVectors a.shape b.shape))

/-- The first `count` products of a sum, added up. -/
def partialDot (a b : Tensor) (k n i j count : Nat) : Float :=
  (List.range count).foldl
    (fun sum t => sum + a.entry (i * k + t) * b.entry (t * n + j)) 0.0

theorem partialDot_succ (a b : Tensor) (k n i j count : Nat) :
    partialDot a b k n i j (count + 1) = partialDot a b k n i j count
      + a.entry (i * k + count) * b.entry (count * n + j) := by
  rw [partialDot, List.range_succ, List.foldl_append]
  rfl

/-- How many products are in the sum at offset `p`, when the loops have come to
`row`, `t` and `col`. -/
def progress (k n row t col p : Nat) : Nat :=
  if p < row * n then k
  else if p < row * n + col then t + 1
  else if p < (row + 1) * n then t
  else 0

/-- The entries of the product when the loops have come to `row`, `t` and `col`. -/
def partialProduct (a b : Tensor) (m k n row t col : Nat) : Array Float :=
  tabulate (m * n) fun p =>
    partialDot a b k n (p / n) (p % n) (progress k n row t col p)

theorem addRow?_eq {m k n row t : Nat} (hb : b.data.size = k * n) (hrow : row < m)
    (ht : t < k) :
    addRow? b n row t (a.entry (row * k + t)) (partialProduct a b m k n row t 0)
      = some (partialProduct a b m k n row t n) := by
  refine foldlM_range (fun col => partialProduct a b m k n row t col) fun col hcol => ?_
  have hp : row * n + col < m * n := cell_lt hrow hcol
  have hy : t * n + col < b.data.size := by
    rw [hb]
    exact cell_lt ht hcol
  -- The sum at this offset has `t` products before the round and one more after it.
  have hcount : progress k n row t col (row * n + col) = t := by
    rw [progress, if_neg (by omega), if_neg (by omega), if_pos (by rw [rowStop_eq]; omega)]
  have hnext : progress k n row t (col + 1) (row * n + col) = t + 1 := by
    rw [progress, if_neg (by omega), if_pos (by omega)]
  simp only [getElem?_eq_entry hy, partialProduct, getElem?_tabulate _ hp, hcount,
    Option.bind_eq_bind, Option.bind_some]
  refine store?_tabulate hp ?_ fun p _ hne => ?_
  · simp only [hnext, partialDot_succ, cell_div hcol, cell_mod hcol]
  · have hcol : p < row * n + (col + 1) ↔ p < row * n + col := by omega
    simp only [progress, hcol]

theorem progress_nextTerm (k n row t p : Nat) :
    progress k n row t n p = progress k n row (t + 1) 0 p := by
  simp only [progress, rowStop_eq, Nat.add_zero]
  repeat' split
  all_goals omega

theorem progress_nextRow (k n row p : Nat) :
    progress k n row k 0 p = progress k n (row + 1) 0 0 p := by
  simp only [progress, rowStop_eq, Nat.add_zero]
  repeat' split
  all_goals omega

theorem productRow?_eq {m k n row : Nat} (ha : a.data.size = m * k)
    (hb : b.data.size = k * n) (hrow : row < m) :
    productRow? a b k n (partialProduct a b m k n row 0 0) row
      = some (partialProduct a b m k n (row + 1) 0 0) := by
  have hround : ∀ t < k, (a.data[row * k + t]? >>= fun x =>
        addRow? b n row t x (partialProduct a b m k n row t 0))
      = some (partialProduct a b m k n row (t + 1) 0) := by
    intro t ht
    have hx : row * k + t < a.data.size := by
      rw [ha]
      exact cell_lt hrow ht
    rw [getElem?_eq_entry hx, Option.bind_eq_bind, Option.bind_some,
      addRow?_eq hb hrow ht]
    simp only [partialProduct, progress_nextTerm]
  have hend : partialProduct a b m k n row k 0
      = partialProduct a b m k n (row + 1) 0 0 := by
    simp only [partialProduct, progress_nextRow]
  rw [← hend]
  exact foldlM_range (fun t => partialProduct a b m k n row t 0) hround

theorem productData?_eq {m k n : Nat} (ha : a.data.size = m * k)
    (hb : b.data.size = k * n) :
    productData? a b m k n
      = some (tabulate (m * n) fun p => dot a b k n (p / n) (p % n)) := by
  have hstart : Array.replicate (m * n) 0.0 = partialProduct a b m k n 0 0 0 := by
    refine Array.ext (by simp [partialProduct]) fun p _ _ => ?_
    simp [partialProduct, tabulate, progress, partialDot]
  have hend : partialProduct a b m k n m 0 0
      = tabulate (m * n) fun p => dot a b k n (p / n) (p % n) := by
    refine tabulate_congr fun p hp => ?_
    rw [progress, if_pos hp]
    rfl
  rw [productData?, hstart, ← hend]
  exact foldlM_range (fun row => partialProduct a b m k n row 0 0) fun _ hrow =>
    productRow?_eq ha hb hrow

theorem WellFormed.product? (ha : a.WellFormed) (hb : b.WellFormed) :
    a.product? b = some (a.product b) := by
  cases hshape : a.shape with
  | vector n => simp only [Tensor.product?, Tensor.product, hshape]
  | matrix m k =>
      cases hshape' : b.shape with
      | vector n => simp only [Tensor.product?, Tensor.product, hshape, hshape']
      | matrix k' n =>
          simp only [Tensor.product?, Tensor.product, hshape, hshape']
          split
          · subst k'
            rw [productData?_eq (ha.size_matrix hshape) (hb.size_matrix hshape')]
            rfl
          · rfl

/-! ## The transpose -/

/-- Column `j` of a matrix with `m` rows and `n` columns is put behind the
entries. -/
def pushColumn? (a : Tensor) (m n : Nat) (data : Array Float) (j : Nat) :
    Option (Array Float) :=
  (List.range m).foldlM (fun data i => do
    let x ← a.data[i * n + j]?
    some (data.push x)) data

def transposeData? (a : Tensor) (m n : Nat) : Option (Array Float) :=
  (List.range n).foldlM (pushColumn? a m n) #[]

def transpose? (a : Tensor) : Option Tensor :=
  match a.shape with
  | .vector _ => some a
  | .matrix m n =>
      (transposeData? a m n).map fun data => ⟨.matrix n m, a.entryKind, data⟩

theorem pushColumn?_eq {m n j : Nat} {f : Nat → Float} (ha : a.data.size = m * n)
    (hj : j < n) (hf : ∀ p, f p = a.entry (p % m * n + p / m)) :
    pushColumn? a m n (tabulate (j * m) f) j = some (tabulate ((j + 1) * m) f) := by
  rw [rowStop_eq]
  refine foldlM_range (fun i => tabulate (j * m + i) f) fun i hi => ?_
  have hlt : i * n + j < a.data.size := by
    rw [ha]
    exact cell_lt hi hj
  have hx : a.entry (i * n + j) = f (j * m + i) := by
    rw [hf, cell_div hi, cell_mod hi]
  rw [getElem?_eq_entry hlt, Option.bind_eq_bind, Option.bind_some, hx, push_tabulate]
  rfl

theorem transposeData?_eq {m n : Nat} (ha : a.data.size = m * n) :
    transposeData? a m n
      = some (tabulate (n * m) fun p => a.entry (p % m * n + p / m)) := by
  have hstart : #[] = tabulate (0 * m) fun p => a.entry (p % m * n + p / m) := by
    simp [tabulate]
  rw [transposeData?, hstart]
  exact foldlM_range
    (fun j => tabulate (j * m) fun p => a.entry (p % m * n + p / m))
    fun _ hj => pushColumn?_eq ha hj fun _ => rfl

theorem WellFormed.transpose? (ha : a.WellFormed) :
    a.transpose? = some a.transpose := by
  cases hshape : a.shape with
  | vector n => simp only [Tensor.transpose?, Tensor.transpose, hshape]
  | matrix m n =>
      simp only [Tensor.transpose?, Tensor.transpose, hshape,
        transposeData?_eq (ha.size_matrix hshape)]
      rfl

/-! ## The text -/

/-- The rows of a matrix are slices of its cells. -/
def chars? (a : Tensor) : Option (List Char) :=
  let cells := (aligned a.cellTexts).toArray
  match a.shape with
  | .vector _ => some (rowText cells.toList)
  | .matrix rows cols => do
      let texts ← (List.range rows).mapM fun row =>
        (slice? cells (row * cols) ((row + 1) * cols)).map fun slots =>
          rowText slots.toList
      some ('[' :: ['\n', ' '].intercalate texts ++ [']'])

theorem length_cellTexts (a : Tensor) : (aligned a.cellTexts).length = a.data.size := by
  unfold aligned cellTexts filledCells
  simp only [List.length_map]
  split
  · simp
  · split <;> simp

theorem rowsOf_eq_map (rows cols : Nat) (cells : List (List Char)) :
    rowsOf rows cols cells
      = (List.range rows).map fun row => (cells.drop (row * cols)).take cols := by
  induction rows generalizing cells with
  | zero => rfl
  | succ rows ih =>
      rw [rowsOf, ih, List.range_succ_eq_map]
      simp [List.drop_drop, Function.comp_def, Nat.succ_mul, Nat.add_comm]

theorem WellFormed.chars? (ha : a.WellFormed) : a.chars? = some a.chars := by
  cases hshape : a.shape with
  | vector n => simp only [Tensor.chars?, Tensor.chars, hshape]
  | matrix rows cols =>
      have hslots : ∀ row ∈ List.range rows,
          ((slice? (aligned a.cellTexts).toArray (row * cols) ((row + 1) * cols)).map
            fun slots => rowText slots.toList)
          = some (rowText (((aligned a.cellTexts).drop (row * cols)).take cols)) := by
        intro row hrow
        have hstop := rowStop_le cols (List.mem_range.mp hrow)
        rw [← ha.size_matrix hshape, ← length_cellTexts] at hstop
        rw [slice?_eq (by rw [rowStop_eq]; omega) (by simpa using hstop)]
        simp [rowStop_eq, List.extract_eq_take_drop]
      simp only [Tensor.chars?, Tensor.chars, hshape, mapM_eq_some hslots,
        rowsOf_eq_map, List.map_map]
      rfl

/-! ## All of them -/

/-- No access of an operation is outside of the entries, whatever the indices
are. -/
structure InBounds (a : Tensor) : Prop where
  get : ∀ i, a.get? i = some (a.get i)
  get₂ : ∀ i j, a.get₂? i j = some (a.get₂ i j)
  set : ∀ i x, a.set? i x = some (a.set i x)
  setRow : ∀ i row, Built row → a.setRow? i row = some (a.setRow i row)
  set₂ : ∀ i j x, a.set₂? i j x = some (a.set₂ i j x)
  product : ∀ b, Built b → a.product? b = some (a.product b)
  transpose : a.transpose? = some a.transpose
  chars : a.chars? = some a.chars

theorem WellFormed.inBounds (ha : a.WellFormed) : a.InBounds where
  get := ha.get?
  get₂ := ha.get₂?
  set := ha.set?
  setRow i _ hrow := ha.setRow? hrow.wellFormed i
  set₂ := ha.set₂?
  product _ hb := ha.product? hb.wellFormed
  transpose := ha.transpose?
  chars := ha.chars?

/-- **Tensors are well formed and no access to them is out of bounds.** Every
tensor that the operations can give, also when some of them fail, has as many
entries as its shape says. So no offset and no slice that an operation computes
from the shape is outside of the entries, for any index. The diagonal of an
identity is inside of its entries, too. -/
theorem built_inBounds {a : Tensor} (h : Built a) :
    a.WellFormed ∧ a.InBounds
      ∧ ∀ rows cols, eye? rows cols = some (eye rows cols) :=
  ⟨h.wellFormed, h.wellFormed.inBounds, eye?_eq⟩

def Sample.row : Tensor := ofNumbers [.int 1, .int 2, .int 3]

/-- `[[1, 2, 3], [1, 2, 3]]'`, after a write to a row that it does not have. -/
theorem built_inBounds_failedWrite :
    ∃ a, ofRows [Sample.row, Sample.row] = .ok a
      ∧ a.transpose.set (-4) (.int 0) = .error (.outOfBounds (-4) 0 3)
      ∧ Built (a.transpose.after (a.transpose.set (-4) (.int 0)))
      ∧ (a.transpose.after (a.transpose.set (-4) (.int 0))).WellFormed
      ∧ (a.transpose.after (a.transpose.set (-4) (.int 0))).InBounds := by
  have hrows : ∀ r ∈ [Sample.row, Sample.row], Built r := by
    intro r hr
    obtain rfl : r = Sample.row := by simpa using hr
    exact .ofNumbers _
  obtain ⟨a, ha⟩ : ∃ a, ofRows [Sample.row, Sample.row] = .ok a := ⟨_, rfl⟩
  have hbuilt := ((Built.ofRows hrows ha).transpose).set (-4) (.int 0)
  refine ⟨a, ha, ?_, hbuilt, (built_inBounds hbuilt).1, (built_inBounds hbuilt).2.1⟩
  cases ha
  rfl

end MatrixLang.Tensor
