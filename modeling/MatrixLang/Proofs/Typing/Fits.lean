import MatrixLang.Proofs.Except
import MatrixLang.Typing.Check
import MatrixLang.Run.Memory
import MatrixLang.Value.Room

/-!
# Values against static types

`Value.Fits` says what a static type promises of a value. Two readings of the
numeric kinds are of use. The *exact* one is what the checker infers along a
straight line: an `int` is an integer, and a `float` is any number, because an
item read from an integer vector counts as a float. The *coarse* one does not
tell the numeric kinds apart; it is what survives loops, where a variable may be
an integer on one round and a float on the next.

The operators keep both readings (`Value.Fits.binary`, `Value.Fits.compound`,
`Value.Fits.neg`, `Value.Fits.transpose`): where the table of operators gives a
type, the operator gives a value that fits it or one of the arithmetic faults,
which no type rules out.
-/

namespace MatrixLang

/-- In a program an operator gives what it gives by itself, or crashes. -/
theorem Settles.operate {F : Fault → Prop} {P : Value → Prop} {op : BinaryOp} {v w : Value}
    (line : Nat) (h : Settles F P (Value.binary op v w)) :
    Settles (Halt.Permitted (fun e : RunError => F e.fault) True) P
      (Halt.onLine line (Value.operate op v w)) := by
  unfold Value.operate
  split
  · trivial
  · cases hbinary : Value.binary op v w with
    | ok r => exact h.gives hbinary
    | error fault => exact h.fails hbinary

/-- The faults that no type rules out: they depend on the numbers met, and on
how much room there is. -/
def Fault.Arithmetic : Fault → Prop
  | .divisionByZero | .integerOverflow _ | .tensor (.tooBig _ _) => True
  | _ => False

def Halt.Arithmetic : Halt RunError → Prop :=
  Halt.Permitted (fun e => e.fault.Arithmetic) True

/-- The faults of an operation on two numbers. -/
def Fault.Scalar : Fault → Prop
  | .divisionByZero | .integerOverflow _ => True
  | _ => False

theorem Fault.arithmetic_of_scalar (f : Fault) (h : f.Scalar) : f.Arithmetic := by
  cases f with
  | divisionByZero | integerOverflow => trivial
  | _ => cases h

/-! ## What a type promises -/

/-- Whether the numeric kinds are told apart. -/
inductive Precision where
  | exact | coarse

/-- A value is what its type says. -/
inductive Value.Fits (p : Precision) : Value → Ty → Prop
  | int (n : Int64) : Fits p (.int n) ⟨.int, none⟩
  | rounded (x : Float) : p = .coarse → Fits p (.float x) ⟨.int, none⟩
  | whole (n : Int64) : Fits p (.int n) ⟨.float, none⟩
  | float (x : Float) : Fits p (.float x) ⟨.float, none⟩
  | str (s : String) : Fits p (.str s) ⟨.string, none⟩
  | vector {a : Tensor} {n : Nat} : a.shape = .vector n →
      Fits p (.tensor a) ⟨.vector, some (.vector n)⟩
  | matrix {a : Tensor} {m n : Nat} : a.shape = .matrix m n →
      Fits p (.tensor a) ⟨.matrix, some (.matrix m n)⟩

/-- A type that leaves nothing open: scalars and strings have no shape, arrays
have one of their rank. -/
inductive Ty.Known : Ty → Prop
  | int : Known ⟨.int, none⟩
  | float : Known ⟨.float, none⟩
  | string : Known ⟨.string, none⟩
  | vector (n : Nat) : Known ⟨.vector, some (.vector n)⟩
  | matrix (m n : Nat) : Known ⟨.matrix, some (.matrix m n)⟩

namespace Value.Fits

variable {p : Precision} {v w : Value} {t u r : Ty}

theorem known (h : v.Fits p t) : t.Known := by
  cases h <;> constructor

/-- What fits a numeric type is a number. -/
theorem number (h : v.Fits p t) (ht : t.kind.isNumeric = true) :
    ∃ n, v.number? = some n := by
  cases h with
  | int n | whole n => exact ⟨.int n, rfl⟩
  | rounded x _ | float x => exact ⟨.float x, rfl⟩
  | str | vector | matrix => cases ht

/-- Every number fits the type of floats. -/
theorem ofNumber (p : Precision) (n : Number) :
    (Value.ofNumber n).Fits p .float := by
  cases n with
  | int n => exact .whole n
  | float x => exact .float x

theorem tensor_of_vector {n : Nat} (h : v.Fits p (.vector n)) :
    ∃ a, v = .tensor a ∧ a.shape = .vector n := by
  cases h with
  | vector ha => exact ⟨_, rfl, ha⟩

theorem tensor_of_matrix {m n : Nat} (h : v.Fits p (.matrix m n)) :
    ∃ a, v = .tensor a ∧ a.shape = .matrix m n := by
  cases h with
  | matrix ha => exact ⟨_, rfl, ha⟩

end Value.Fits

/-! ## The table of operators on known types

The entries of the table, read off once, so that no later proof looks into it.
-/

theorem operatorRule_vectors {op : BinaryOp} {k : Kind} {rule : ShapeRule}
    (h : operatorRule op .vector .vector = some (k, rule)) :
    k = .vector ∧ rule = .same := by
  cases op <;> simp only [operatorRule, reduceCtorEq] at h <;> cases h <;>
    exact ⟨rfl, rfl⟩

theorem operatorRule_matrices {op : BinaryOp} {k : Kind} {rule : ShapeRule}
    (h : operatorRule op .matrix .matrix = some (k, rule)) :
    k = .matrix ∧ (op = .mul ∧ rule = .product ∨ op ≠ .mul ∧ rule = .same) := by
  cases op <;> simp only [operatorRule, reduceCtorEq] at h <;> cases h <;> simp

theorem applyRule_same {symbol : String} {kind : Kind} {l r : Shape} {t : Ty}
    (h : applyRule symbol kind .same (some l) (some r) = .ok t) :
    l = r ∧ t = ⟨kind, some l⟩ := by
  simp only [applyRule] at h
  split at h
  · rename_i heq
    cases h
    exact ⟨heq, rfl⟩
  · cases h

theorem applyRule_product {symbol : String} {kind : Kind} {m k k' n : Nat}
    {t : Ty}
    (h : applyRule symbol kind .product (some (.matrix m k))
      (some (.matrix k' n)) = .ok t) :
    k = k' ∧ t = .matrix m n := by
  simp only [applyRule] at h
  split at h
  · rename_i heq
    cases h
    exact ⟨heq, rfl⟩
  · cases h

/-- `op` gives type `r` on types `t` and `u`. -/
inductive Ty.Combines (op : BinaryOp) : Ty → Ty → Ty → Prop
  | ints : Combines op .int .int .int
  | floats {t u : Ty} : t.kind.isNumeric = true → u.kind.isNumeric = true →
      Combines op t u .float
  | vectors (n : Nat) : Combines op (.vector n) (.vector n) (.vector n)
  | matrices (m n : Nat) :
      op ≠ .mul → Combines op (.matrix m n) (.matrix m n) (.matrix m n)
  | product (m k n : Nat) :
      op = .mul → Combines op (.matrix m k) (.matrix k n) (.matrix m n)

theorem Ty.binary_eq_ok {op : BinaryOp} {t u r : Ty}
    (h : Ty.binary op t u = .ok r) :
    ∃ kind rule, operatorRule op t.kind u.kind = some (kind, rule)
      ∧ applyRule op.text kind rule t.shape u.shape = .ok r := by
  simp only [Ty.binary] at h
  split at h
  · cases h
  · exact ⟨_, _, ‹_›, h⟩

theorem Ty.compound_eq_ok {op : AssignOp} {base : BinaryOp} {t u r : Ty}
    (hbase : op.base? = some base) (h : Ty.compound op t u = .ok r) :
    ∃ kind rule, operatorRule base t.kind u.kind = some (kind, rule)
      ∧ applyRule op.text kind rule.keepingTarget t.shape u.shape = .ok r := by
  simp only [Ty.compound, hbase] at h
  split at h
  · cases h
  · exact ⟨_, _, ‹_›, h⟩

theorem Ty.Combines.of_binary {op : BinaryOp} {t u r : Ty} (ht : t.Known)
    (hu : u.Known) (h : Ty.binary op t u = .ok r) : Combines op t u r := by
  obtain ⟨kind, rule, hrule, happly⟩ := Ty.binary_eq_ok h
  cases ht <;> cases hu
  case int.int => cases hrule; cases happly; exact .ints
  case int.float | float.int | float.float =>
      cases hrule; cases happly; exact .floats rfl rfl
  case vector.vector m n =>
      obtain ⟨rfl, rfl⟩ := operatorRule_vectors hrule
      obtain ⟨heq, rfl⟩ := applyRule_same happly
      obtain rfl := Shape.vector.inj heq
      exact .vectors m
  case matrix.matrix m k k' n =>
      obtain ⟨rfl, ⟨hop, rfl⟩ | ⟨hop, rfl⟩⟩ := operatorRule_matrices hrule
      · obtain ⟨rfl, rfl⟩ := applyRule_product happly
        exact .product m k n hop
      · obtain ⟨heq, rfl⟩ := applyRule_same happly
        obtain ⟨rfl, rfl⟩ := Shape.matrix.inj heq
        exact .matrices m k hop
  all_goals cases hrule

/-- A compound assignment to a number combines the types as its operator does. To
an array it assigns an array of the same type, under `*=` as well. -/
theorem Ty.Combines.of_compound {op : AssignOp} {base : BinaryOp} {t u r : Ty}
    (hbase : op.base? = some base) (ht : t.Known) (hu : u.Known)
    (h : Ty.compound op t u = .ok r) :
    t.shape = none ∧ Combines base t u r
      ∨ t.shape.isSome = true ∧ u = t ∧ r = t := by
  obtain ⟨kind, rule, hrule, happly⟩ := Ty.compound_eq_ok hbase h
  cases ht <;> cases hu
  case int.int => cases hrule; cases happly; exact .inl ⟨rfl, .ints⟩
  case int.float | float.int | float.float =>
      cases hrule; cases happly; exact .inl ⟨rfl, .floats rfl rfl⟩
  case vector.vector m n =>
      obtain ⟨rfl, rfl⟩ := operatorRule_vectors hrule
      obtain ⟨heq, rfl⟩ := applyRule_same happly
      obtain rfl := Shape.vector.inj heq
      exact .inr ⟨rfl, rfl, rfl⟩
  case matrix.matrix m k k' n =>
      have hsame : kind = .matrix ∧ rule.keepingTarget = .same := by
        obtain ⟨rfl, ⟨-, rfl⟩ | ⟨-, rfl⟩⟩ := operatorRule_matrices hrule
        · exact ⟨rfl, rfl⟩
        · exact ⟨rfl, rfl⟩
      obtain ⟨rfl, hkeep⟩ := hsame
      rw [hkeep] at happly
      obtain ⟨heq, rfl⟩ := applyRule_same happly
      obtain ⟨rfl, rfl⟩ := Shape.matrix.inj heq
      exact .inr ⟨rfl, rfl, rfl⟩
  all_goals cases hrule

/-! ## The operators -/

theorem fitting_settles (n : Int) (operation : Overflow) :
    Settles Fault.Scalar (fun v => ∃ k, v = .int k) (fitting n operation) := by
  unfold fitting
  split
  · exact ⟨_, rfl⟩
  · trivial

theorem BinaryOp.onInts_settles (op : BinaryOp) (a b : Int64) :
    Settles Fault.Scalar (fun v => ∃ k, v = .int k) (op.onInts a b) := by
  cases op with
  | add | sub | mul | dotAdd | dotSub | dotMul => exact fitting_settles _ _
  | div | dotDiv =>
      simp only [onInts]
      split
      · trivial
      · exact fitting_settles _ _

theorem BinaryOp.onFloats_settles (op : BinaryOp) (a b : Float) :
    Settles Fault.Scalar (fun v => ∃ x, v = .float x) (op.onFloats a b) := by
  cases op with
  | add | sub | mul | dotAdd | dotSub | dotMul => exact ⟨_, rfl⟩
  | div | dotDiv =>
      simp only [onFloats]
      split
      · trivial
      · exact ⟨_, rfl⟩

/-- Two numbers give a number. -/
theorem Value.binary_numbers (op : BinaryOp) {v w : Value} {a b : Number}
    (ha : v.number? = some a) (hb : w.number? = some b) :
    Settles Fault.Arithmetic (fun r => ∃ n, r = Value.ofNumber n)
      (Value.binary op v w) := by
  have hints : ∀ m n : Int64, Settles Fault.Arithmetic
      (fun r => ∃ n, r = Value.ofNumber n) (op.onInts m n) := by
    intro m n
    refine (op.onInts_settles m n).imp Fault.arithmetic_of_scalar ?_
    rintro r ⟨k, hk⟩
    exact ⟨.int k, hk⟩
  have hfloats : ∀ x y : Float, Settles Fault.Arithmetic
      (fun r => ∃ n, r = Value.ofNumber n) (op.onFloats x y) := by
    intro x y
    refine (op.onFloats_settles x y).imp Fault.arithmetic_of_scalar ?_
    rintro r ⟨z, hz⟩
    exact ⟨.float z, hz⟩
  cases v <;> cases ha <;> cases w <;> cases hb
  · exact hints _ _
  · exact hfloats _ _
  · exact hfloats _ _
  · exact hfloats _ _

theorem Value.compare_numbers (op : Relation) {v w : Value}
    (hv : ∃ a, v.number? = some a) (hw : ∃ b, w.number? = some b) :
    ∃ b, Value.compare op v w = .ok (.ofBool b) := by
  obtain ⟨a, ha⟩ := hv
  obtain ⟨b, hb⟩ := hw
  cases v <;> cases ha <;> cases w <;> cases hb <;> exact ⟨_, rfl⟩

theorem Tensor.rank_vector {a : Tensor} {n : Nat} (h : a.shape = .vector n) :
    a.rank = 1 := by
  rw [rank, h, Shape.rank]

theorem Tensor.rank_matrix {a : Tensor} {m n : Nat} (h : a.shape = .matrix m n) :
    a.rank = 2 := by
  rw [rank, h, Shape.rank]

/-- A vector is never multiplied as a matrix. -/
theorem BinaryOp.not_product (op : BinaryOp) {a b : Tensor} {n : Nat}
    (h : a.shape = .vector n) : ¬(op = .mul ∧ a.rank = 2 ∧ b.rank = 2) := by
  rintro ⟨-, hrank, -⟩
  rw [Tensor.rank_vector h] at hrank
  cases hrank

theorem Value.binary_tensor (op : BinaryOp) (a b : Tensor) :
    Value.binary op (.tensor a) (.tensor b)
      = (TensorFault.lift (op.onTensors a b)).map .tensor := by
  simp only [Value.binary]
  cases TensorFault.lift (op.onTensors a b) <;> rfl

theorem Value.binary_entrywise {op : BinaryOp} {a b : Tensor}
    (hop : ¬(op = .mul ∧ a.rank = 2 ∧ b.rank = 2)) :
    Value.binary op (.tensor a) (.tensor b)
      = (TensorFault.lift (Tensor.entrywise op.arithmetic a b)).map .tensor := by
  rw [Value.binary_tensor, BinaryOp.onTensors, if_neg hop]

/-- Tensors of one shape are combined to a tensor of that shape, unless they are
multiplied as matrices. -/
theorem Value.binary_equal (op : BinaryOp) {a b : Tensor}
    (hop : ¬(op = .mul ∧ a.rank = 2 ∧ b.rank = 2)) (h : a.shape = b.shape) :
    ∃ c, Tensor.entrywise op.arithmetic a b = .ok c ∧ c.shape = a.shape
      ∧ Value.binary op (.tensor a) (.tensor b) = .ok (.tensor c) := by
  rw [Value.binary_entrywise hop, Tensor.entrywise, if_pos h]
  exact ⟨_, rfl, rfl, rfl⟩

theorem Value.binary_product {a b : Tensor} {m k n : Nat}
    (ha : a.shape = .matrix m k) (hb : b.shape = .matrix k n) :
    ∃ c, Value.binary .mul (.tensor a) (.tensor b) = .ok (.tensor c)
      ∧ c.shape = .matrix m n := by
  have hrank : a.rank = 2 ∧ b.rank = 2 :=
    ⟨Tensor.rank_matrix ha, Tensor.rank_matrix hb⟩
  simp only [Value.binary, BinaryOp.onTensors, hrank, and_self, if_true,
    Tensor.product, ha, hb]
  exact ⟨_, rfl, rfl⟩

namespace Value.Fits

variable {p : Precision} {v w : Value} {t u r : Ty}

/-- An operator keeps to the table. -/
theorem binary {op : BinaryOp} (hv : v.Fits p t) (hw : w.Fits p u)
    (h : Ty.Combines op t u r) :
    Settles Fault.Arithmetic (Value.Fits p · r) (Value.binary op v w) := by
  cases h with
  | ints =>
      have hfloats : p = .coarse → ∀ x y : Float, Settles Fault.Arithmetic
          (Value.Fits p · .int) (op.onFloats x y) := by
        intro hp x y
        refine (op.onFloats_settles x y).imp Fault.arithmetic_of_scalar ?_
        rintro r ⟨z, rfl⟩
        exact .rounded z hp
      cases hv with
      | int a =>
          cases hw with
          | int b =>
              refine (op.onInts_settles a b).imp Fault.arithmetic_of_scalar ?_
              rintro r ⟨n, rfl⟩
              exact .int n
          | rounded y hp => exact hfloats hp _ _
      | rounded x hp =>
          cases hw with
          | int b => exact hfloats hp _ _
          | rounded y _ => exact hfloats hp _ _
  | floats ht hu =>
      obtain ⟨a, ha⟩ := hv.number ht
      obtain ⟨b, hb⟩ := hw.number hu
      refine (Value.binary_numbers op ha hb).mono ?_
      rintro r ⟨n, rfl⟩
      exact ofNumber p n
  | vectors n =>
      obtain ⟨a, rfl, ha⟩ := hv.tensor_of_vector
      obtain ⟨b, rfl, hb⟩ := hw.tensor_of_vector
      obtain ⟨c, -, hshape, hc⟩ := Value.binary_equal op
        (op.not_product ha) (ha.trans hb.symm)
      rw [hc]
      exact .vector (hshape.trans ha)
  | matrices m n hop =>
      obtain ⟨a, rfl, ha⟩ := hv.tensor_of_matrix
      obtain ⟨b, rfl, hb⟩ := hw.tensor_of_matrix
      obtain ⟨c, -, hshape, hc⟩ := Value.binary_equal op (fun h => hop h.1)
        (ha.trans hb.symm)
      rw [hc]
      exact .matrix (hshape.trans ha)
  | product m k n hop =>
      subst hop
      obtain ⟨a, rfl, ha⟩ := hv.tensor_of_matrix
      obtain ⟨b, rfl, hb⟩ := hw.tensor_of_matrix
      obtain ⟨c, hc, hshape⟩ := Value.binary_product ha hb
      rw [hc]
      exact .matrix hshape

/-- So does the operator that a compound assignment applies to the old value. -/
theorem compound {op : AssignOp} {base : BinaryOp}
    (hbase : op.base? = some base) (hv : v.Fits p t) (hw : w.Fits p u)
    (h : Ty.compound op t u = .ok r) :
    Settles Fault.Arithmetic (Value.Fits p · r)
      (Value.binary (Value.compoundOp base v w) v w) := by
  rcases Ty.Combines.of_compound hbase hv.known hw.known h with
    ⟨hscalar, hcomb⟩ | ⟨harray, rfl, rfl⟩
  · have hop : Value.compoundOp base v w = base := by
      cases hv <;> cases hscalar <;> cases base <;> rfl
    rw [hop]
    exact hv.binary hw hcomb
  · obtain ⟨a, b, rfl, rfl, hshape⟩ :
        ∃ a b, v = .tensor a ∧ w = .tensor b ∧ a.shape = b.shape := by
      cases hv <;> cases harray <;> cases hw <;> exact ⟨_, _, rfl, rfl, by simp [*]⟩
    obtain ⟨c, -, hcs, hc⟩ :=
      Value.binary_equal (Value.compoundOp base (.tensor a) (.tensor b))
        (by cases base <;> simp [Value.compoundOp]) hshape
    rw [hc]
    cases hv with
    | vector ha => exact .vector (hcs.trans ha)
    | matrix ha => exact .matrix (hcs.trans ha)

theorem neg (hv : v.Fits p t) (ht : t.kind ≠ .string) :
    Settles Fault.Arithmetic (Value.Fits p · t) v.neg := by
  cases hv with
  | int n =>
      refine (fitting_settles _ _).imp Fault.arithmetic_of_scalar ?_
      rintro r ⟨k, rfl⟩
      exact .int k
  | whole n =>
      refine (fitting_settles _ _).imp Fault.arithmetic_of_scalar ?_
      rintro r ⟨k, rfl⟩
      exact .whole k
  | rounded x hp => exact .rounded _ hp
  | float x => exact .float _
  | str s => exact absurd rfl ht
  | vector ha => exact .vector ha
  | matrix ha => exact .matrix ha

theorem transpose {m n : Nat} (hv : v.Fits p (.matrix m n)) :
    Settles Fault.Arithmetic (Value.Fits p · (.matrix n m)) v.transpose := by
  obtain ⟨a, rfl, ha⟩ := hv.tensor_of_matrix
  have hshape : a.transpose.shape = .matrix n m := by
    simp only [Tensor.transpose, ha]
  exact .matrix hshape

end Value.Fits

end MatrixLang
