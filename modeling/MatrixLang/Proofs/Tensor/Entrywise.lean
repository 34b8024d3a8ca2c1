import MatrixLang.Proofs.Tensor.Lens
import MatrixLang.Proofs.Tensor.Transpose
import MatrixLang.Proofs.Typing.Tables

/-!
# Arithmetic position by position

An operator works on two tensors by one loop over their entries, and on two scalars
by itself. The loop knows offsets only. A program reads an entry by one index or by
two, and `Position.Lies` is the offset that they name: there the entry of the result
is the operator on the entries of the operands (`entry_entrywise`, `entry_neg`).

Scalars and entries have a table of operators each. The two differ in one thing
(`BinaryOp.onFloats_eq`): a division by zero is a fault on scalars, and its quotient is an
entry of a tensor.
-/

namespace MatrixLang

/-- The tables of scalars and of entries agree, but for a division by zero. -/
theorem BinaryOp.onFloats_eq (op : BinaryOp) (x y : Float) :
    op.onFloats x y = if op.arithmetic = .div ∧ y == 0.0 then .error .divisionByZero
      else .ok (.float (op.arithmetic.onDoubles x y)) := by
  cases op with
  | add | sub | mul | dotAdd | dotSub | dotMul => rfl
  | div | dotDiv => simp only [onFloats, arithmetic, Arithmetic.onDoubles, true_and]

namespace Tensor

/-! ## Positions -/

/-- A position as a program names it: by one index in a vector and by two in a matrix. -/
inductive Position where
  | entry (i : Int64)
  | cell (i j : Int64)

/-- Where a tensor of some shape has the entry at a position. -/
inductive Position.Lies : Shape → Position → Nat → Prop where
  | entry {n k : Nat} {i : Int64} (hk : Names n i k) : Lies (.vector n) (.entry i) k
  | cell {rows cols r c : Nat} {i j : Int64} (hr : Names rows i r) (hc : Names cols j c) :
      Lies (.matrix rows cols) (.cell i j) (r * cols + c)

/-- The positions that tensors of some shape have. -/
def Position.In (s : Shape) (p : Position) : Prop := ∃ k, p.Lies s k

/-- `a[i]` or `a[i, j]`. -/
def read (a : Tensor) : Position → Except TensorFault Item
  | .entry i => a.get i
  | .cell i j => (a.get₂ i j).map .entry

namespace Position.Lies

variable {p : Position} {k : Nat}

theorem lt_size {s : Shape} (h : Lies s p k) : k < s.size := by
  cases h with
  | entry hk => exact hk.1
  | cell hr hc => exact cell_lt hr.1 hc.1

theorem read {a : Tensor} (h : Lies a.shape p k) : a.read p = .ok (.entry (a.numberAt k)) := by
  generalize hshape : a.shape = s at h
  cases h with
  | entry hk => exact get_vector hshape hk
  | cell hr hc =>
      rw [Tensor.read, get₂_matrix hshape hr hc]
      rfl

theorem read_float {a : Tensor} (h : Lies a.shape p k) (hkind : a.entryKind = .float) :
    a.read p = .ok (.entry (.float (a.entry k))) := by
  rw [h.read, numberAt, hkind]

end Position.Lies

/-! ## Entries of a result -/

variable {a b c : Tensor} {k : Nat}

theorem entry_entrywise {op : Arithmetic} (ha : a.WellFormed) (hb : b.WellFormed)
    (h : entrywise op a b = .ok c) (hk : k < a.shape.size) :
    c.entry k = op.onDoubles (a.entry k) (b.entry k) := by
  obtain ⟨hshape, rfl⟩ := entrywise_eq_ok.mp h
  have hka : k < a.data.size := by rwa [ha]
  have hkb : k < b.data.size := by rwa [hb, ← hshape]
  simp [entry, hka, hkb]

theorem entry_neg (hk : k < a.data.size) : a.neg.entry k = -a.entry k := by
  simp [entry, neg, hk]

theorem entryKind_entrywise {op : Arithmetic} (h : entrywise op a b = .ok c)
    (ha : a.entryKind = .float) (hb : b.entryKind = .float) : c.entryKind = .float := by
  obtain ⟨-, rfl⟩ := entrywise_eq_ok.mp h
  rw [ha, hb]
  cases op <;> rfl

/-! ## Tensors of floats and floats -/

/-- A tensor of floats that has the positions of another one. -/
structure FloatsLike (c a : Tensor) : Prop where
  wellFormed : c.WellFormed
  shape : c.shape = a.shape
  entryKind : c.entryKind = .float

/-- **Arithmetic on tensors of floats is arithmetic on floats.** The operands have one
shape, and so has the result. At each of its positions stands what the same operator
gives for what stands there in the operands; only where the divisor is zero do the
scalars fault and the tensor has the quotient of the doubles. Operands of unequal
shapes are a fault. It is the same with the negative. -/
theorem floats_entrywise (op : BinaryOp) (ha : a.WellFormed) (hb : b.WellFormed)
    (hkinda : a.entryKind = .float) (hkindb : b.entryKind = .float)
    (hop : ¬(op = .mul ∧ a.rank = 2 ∧ b.rank = 2)) :
    (a.shape = b.shape → ∃ c, Value.binary op (.tensor a) (.tensor b) = .ok (.tensor c)
      ∧ c.FloatsLike a
      ∧ ∀ p : Position, p.In a.shape → ∃ x y z, a.read p = .ok (.entry (.float x))
        ∧ b.read p = .ok (.entry (.float y)) ∧ c.read p = .ok (.entry (.float z))
        ∧ Value.binary op (.float x) (.float y)
          = (if op.arithmetic = .div ∧ y == 0.0 then .error .divisionByZero else .ok (.float z))
        ∧ (op.arithmetic = .div → z = x / y))
      ∧ (a.shape ≠ b.shape → Value.binary op (.tensor a) (.tensor b)
        = .error (.tensor (.shapeMismatch a.shape b.shape)))
      ∧ ∃ c, Value.neg (.tensor a) = .ok (.tensor c) ∧ c.FloatsLike a
        ∧ ∀ p : Position, p.In a.shape → ∃ x z, a.read p = .ok (.entry (.float x))
          ∧ c.read p = .ok (.entry (.float z)) ∧ Value.neg (.float x) = .ok (.float z) := by
  refine ⟨fun hshape => ?_, Value.binary_unequal hop,
    a.neg, rfl, ⟨ha.neg, rfl, hkinda⟩, ?_⟩
  · obtain ⟨c, hc, hcshape, hresult⟩ := Value.binary_equal op hop hshape
    have hkindc := entryKind_entrywise hc hkinda hkindb
    refine ⟨c, hresult, ⟨ha.entrywise hb hc, hcshape, hkindc⟩, ?_⟩
    rintro p ⟨k, hk⟩
    have hentry := entry_entrywise ha hb hc hk.lt_size
    refine ⟨_, _, _, hk.read_float hkinda, (hshape ▸ hk).read_float hkindb,
      (hcshape ▸ hk).read_float hkindc, ?_, fun hdiv => ?_⟩
    · rw [hentry]
      exact op.onFloats_eq _ _
    · rw [hentry, hdiv]
      rfl
  · rintro p ⟨k, hk⟩
    have hsize : k < a.data.size := ha.symm ▸ hk.lt_size
    refine ⟨_, _, hk.read_float hkinda,
      Position.Lies.read_float (a := a.neg) hk hkinda, ?_⟩
    rw [entry_neg hsize]
    rfl

/-- A row of floats, and one to divide it by. -/
def dividends : Tensor := ⟨.matrix 1 2, .float, #[1.0, 6.0]⟩

def divisors : Tensor := ⟨.matrix 1 2, .float, #[0.0, 4.0]⟩

/-- One of two quotients is also that of the scalars. -/
theorem floats_entrywise_quotients :
    ∃ c, Value.binary .dotDiv (.tensor dividends) (.tensor divisors) = .ok (.tensor c)
      ∧ c.read (.cell 0 (-1)) = .ok (.entry (.float 1.5))
      ∧ Value.binary .dotDiv (.float 6.0) (.float 4.0) = .ok (.float 1.5)
      ∧ c.read (.cell 0 0) = .ok (.entry (.float (1.0 / 0.0)))
      ∧ Value.binary .dotDiv (.float 1.0) (.float 0.0) = .error .divisionByZero := by
  have hzero : Names 1 0 0 := ⟨by decide, .inl (by decide)⟩
  have hfirst : Names 2 0 0 := ⟨by decide, .inl (by decide)⟩
  have hlast : Names 2 (-1) 1 := ⟨by decide, .inr (by decide)⟩
  obtain ⟨hequal, -⟩ :=
    floats_entrywise (a := dividends) (b := divisors) .dotDiv rfl rfl rfl rfl nofun
  obtain ⟨c, hc, -, hpositions⟩ := hequal rfl
  obtain ⟨x, y, z, hx, hy, hz, hscalars, hquotient⟩ :=
    hpositions (.cell 0 (-1)) ⟨_, .cell hzero hlast⟩
  obtain ⟨x', y', z', hx', hy', hz', hscalars', hquotient'⟩ :=
    hpositions (.cell 0 0) ⟨_, .cell hzero hfirst⟩
  cases hx
  cases hy
  cases hx'
  cases hy'
  have hvalue : z = 1.5 := (hquotient rfl).trans (by decide +kernel)
  subst hvalue
  have hinfinite : z' = 1.0 / 0.0 := hquotient' rfl
  subst hinfinite
  exact ⟨c, hc, hz, hscalars.trans (if_neg (by decide +kernel)), hz',
    hscalars'.trans (if_pos (by decide +kernel))⟩

end Tensor

end MatrixLang
