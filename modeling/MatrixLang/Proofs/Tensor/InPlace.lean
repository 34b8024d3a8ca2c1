import MatrixLang.Proofs.Tensor.Bounds

/-!
# Writing in place

`Tensor.set` and its like make a new tensor. A machine changes the one that is there,
entry by entry, and what it has changed before it fails stays changed: that is what
`EStateM` says, which keeps the state along with an error. Here the operations are
written so, each with its checks where a machine makes them.

They are all transactions (`setInPlace_eq`, `setRowInPlace_eq`, `set₂InPlace_eq`): a
write that fails has not begun, since all checks come before the first entry is
stored. The induction is on the number of entries stored (`run_storeEntries`).
-/

namespace MatrixLang

variable {ε σ α : Type}

/-- A change that either takes place as a whole or leaves the old state. -/
def transaction (change : σ → Except ε σ) : EStateM ε σ Unit := fun s =>
  match change s with
  | .ok t => .ok () t
  | .error e => .error e s

theorem run_transaction (change : σ → Except ε σ) (s : σ) :
    (transaction change).run s = match change s with
      | .ok t => .ok () t
      | .error e => .error e s := rfl

theorem run_getThe_bind (f : σ → EStateM ε σ α) (s : σ) :
    (getThe σ >>= f).run s = (f s).run s := rfl

theorem run_transaction_eq_error {change : σ → Except ε σ} {s t : σ} {e : ε} :
    (transaction change).run s = .error e t ↔ t = s ∧ change s = .error e := by
  rw [run_transaction]
  cases change s <;> simp [and_comm, eq_comm]

namespace Tensor

/-! ## Entries -/

def storeEntry (k : Nat) (x : Float) : EStateM TensorFault Tensor Unit :=
  modify fun a => { a with data := a.data.setIfInBounds k x }

/-- Stores `count` entries one after another, beginning at `start`. -/
def storeEntries (start : Nat) (new : Nat → Float) : Nat → EStateM TensorFault Tensor Unit
  | 0 => pure ()
  | count + 1 => do
      storeEntries start new count
      storeEntry (start + count) (new count)

theorem run_storeEntry (a : Tensor) (k : Nat) (x : Float) :
    (storeEntry k x).run a = .ok () (a.overwrite k (k + 1) fun _ => x) := by
  have hdata : a.data.setIfInBounds k x
      = a.data.mapIdx fun p y => if k ≤ p ∧ p < k + 1 then x else y := by
    refine Array.ext (by simp) fun p hp _ => ?_
    have hone : k = p ↔ k ≤ p ∧ p < k + 1 := by omega
    rw [Array.size_setIfInBounds] at hp
    simp only [Array.getElem_setIfInBounds hp, Array.getElem_mapIdx, hone]
  exact congrArg (EStateM.Result.ok () ∘ a.withData) hdata

theorem overwrite_nothing (a : Tensor) (start : Nat) (f : Nat → Float) :
    a.overwrite start start f = a := by
  have hdata : (a.overwrite start start f).data = a.data := by
    refine Array.ext (by simp [overwrite]) fun p _ _ => ?_
    simp only [overwrite, Array.getElem_mapIdx]
    rw [if_neg (by omega)]
  exact congrArg a.withData hdata

theorem overwrite_next (a : Tensor) {start stop : Nat} (h : start ≤ stop) (f : Nat → Float) :
    (a.overwrite start stop f).overwrite stop (stop + 1) (fun _ => f stop)
      = a.overwrite start (stop + 1) f := by
  refine congrArg a.withData (Array.ext (by simp [overwrite]) fun p _ _ => ?_)
  simp only [overwrite, Array.getElem_mapIdx]
  grind

theorem run_storeEntries (a : Tensor) (start : Nat) {new f : Nat → Float}
    (hnew : ∀ t, new t = f (start + t)) (count : Nat) :
    (storeEntries start new count).run a = .ok () (a.overwrite start (start + count) f) := by
  induction count with
  | zero =>
      rw [Nat.add_zero, overwrite_nothing]
      rfl
  | succ count ih =>
      rw [storeEntries, EStateM.run_bind, ih]
      simp only [run_storeEntry, hnew]
      rw [overwrite_next a (by omega), Nat.add_assoc]

/-! ## Operations -/

def setInPlace (i : Int64) (x : Number) : EStateM TensorFault Tensor Unit := do
  let a ← getThe Tensor
  let y := a.stored x.toDouble
  match a.shape with
  | .vector n => do
      let k ← ofExcept (resolve i 0 n)
      storeEntry k y
  | .matrix rows cols => do
      let k ← ofExcept (resolve i 0 rows)
      storeEntries (k * cols) (fun _ => y) cols

def setRowInPlace (i : Int64) (row : Tensor) : EStateM TensorFault Tensor Unit := do
  let a ← getThe Tensor
  match a.shape with
  | .vector _ => throw .sequenceIntoElement
  | .matrix rows cols =>
      if row.shape = .vector cols then do
        let k ← ofExcept (resolve i 0 rows)
        storeEntries (k * cols) (fun t => a.stored (row.entry t)) cols
      else throw (.rowLength row.shape cols)

def set₂InPlace (i j : Int64) (x : Number) : EStateM TensorFault Tensor Unit := do
  let a ← getThe Tensor
  let k ← ofExcept (a.offset i j)
  storeEntry k (a.stored x.toDouble)

/-- A write after a check takes place as a whole or not at all. -/
theorem run_checked {a : Tensor} {check : Except TensorFault Nat}
    {write : Nat → EStateM TensorFault Tensor Unit} {new : Nat → Tensor}
    (h : ∀ k, (write k).run a = .ok () (new k)) :
    (ofExcept check >>= write).run a
      = (transaction fun _ => check >>= fun k => .ok (new k)).run a := by
  cases check with
  | error e => rfl
  | ok k => exact h k

theorem run_storeRow (a : Tensor) (cols k : Nat) {new : Nat → Float} (f : Nat → Float)
    (hnew : ∀ t, new t = f (k * cols + t)) :
    (storeEntries (k * cols) new cols).run a
      = .ok () (a.overwrite (k * cols) ((k + 1) * cols) f) := by
  rw [run_storeEntries a _ hnew, rowStop_eq]

theorem setInPlace_eq (i : Int64) (x : Number) :
    setInPlace i x = transaction (set · i x) := by
  funext a
  change (setInPlace i x).run a = (transaction (set · i x)).run a
  rw [setInPlace, run_getThe_bind]
  cases hshape : a.shape with
  | vector n =>
      refine (run_checked fun k => run_storeEntry a k _).trans ?_
      simp only [run_transaction, set, hshape]
  | matrix rows cols =>
      refine (run_checked fun k =>
        run_storeRow a cols k (fun _ => a.stored x.toDouble) fun _ => rfl).trans ?_
      simp only [run_transaction, set, hshape]

theorem setRowInPlace_eq (i : Int64) (row : Tensor) :
    setRowInPlace i row = transaction (setRow · i row) := by
  funext a
  change (setRowInPlace i row).run a = (transaction (setRow · i row)).run a
  rw [setRowInPlace, run_getThe_bind]
  cases hshape : a.shape with
  | vector n =>
      simp only [run_transaction, setRow, hshape]
      rfl
  | matrix rows cols =>
      by_cases hrow : row.shape = .vector cols
      · simp only [if_pos hrow]
        refine (run_checked fun k => run_storeRow a cols k
          (fun p => a.stored (row.entry (p - k * cols))) fun t => ?_).trans ?_
        · rw [Nat.add_sub_cancel_left]
        · simp only [run_transaction, setRow, hshape, if_pos hrow]
      · simp only [run_transaction, setRow, hshape, if_neg hrow]
        rfl

theorem set₂InPlace_eq (i j : Int64) (x : Number) :
    set₂InPlace i j x = transaction (set₂ · i j x) := by
  funext a
  change (set₂InPlace i j x).run a = (transaction (set₂ · i j x)).run a
  rw [set₂InPlace, run_getThe_bind]
  exact run_checked fun k => run_storeEntry a k _

end Tensor

end MatrixLang
