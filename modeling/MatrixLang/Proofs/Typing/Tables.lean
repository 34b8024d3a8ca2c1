import MatrixLang.Proofs.Typing.Fits
import MatrixLang.Proofs.Tensor.Room

/-!
# The table of operators and the operators

The checker looks an operation up in a table of kinds and shapes; a running
program dispatches on the values it meets. `Foretold` says how the two agree on
values whose exact types the checker knows: a type that the table gives is that
of the result, and shapes that it rejects are those of the fault. The table also
has no entry for some operands that are combined entry by entry all the same
(`BinaryOp.Lenient`).

There is one lemma for each class of operands: numbers, arrays under a rule of
the table, and pairs without one. A compound assignment goes to the same lemmas
with the rule and the operator that it uses. These lemmas are about the operators
alone; a program gets what they give unless it multiplies matrices whose product
cannot be stored (`Value.operate_eq`).
-/

namespace MatrixLang

/-! ## Exact types -/

namespace Value

def shape? : Value → Option Shape
  | .tensor a => some a.shape
  | _ => none

/-- The type of a value; `null` has none. -/
def ty? (v : Value) : Option Ty := v.kind?.map fun kind => ⟨kind, v.shape?⟩

theorem ty?_eq_some {v : Value} {t : Ty} :
    v.ty? = some t ↔ v.kind? = some t.kind ∧ v.shape? = t.shape := by
  obtain ⟨kind, shape⟩ := t
  simp only [ty?, Option.map_eq_some_iff, Ty.mk.injEq]
  constructor
  · rintro ⟨_, hkind, rfl, hshape⟩
    exact ⟨hkind, hshape⟩
  · rintro ⟨hkind, hshape⟩
    exact ⟨kind, hkind, rfl, hshape⟩

theorem ty?_vector {a : Tensor} {n : Nat} (h : a.shape = .vector n) :
    (Value.tensor a).ty? = some (.vector n) := by
  simp [ty?, kind?, shape?, h, Ty.vector]

theorem ty?_matrix {a : Tensor} {m n : Nat} (h : a.shape = .matrix m n) :
    (Value.tensor a).ty? = some (.matrix m n) := by
  simp [ty?, kind?, shape?, h, Ty.matrix]

theorem ty?_tensor {a : Tensor} {t : Ty} :
    (Value.tensor a).ty? = some t ↔ (∃ n, a.shape = .vector n ∧ t = .vector n)
      ∨ ∃ m n, a.shape = .matrix m n ∧ t = .matrix m n := by
  constructor
  · intro h
    cases ha : a.shape with
    | vector n =>
        exact .inl ⟨n, rfl, Option.some.inj (h.symm.trans (ty?_vector ha))⟩
    | matrix m n =>
        exact .inr ⟨m, n, rfl, Option.some.inj (h.symm.trans (ty?_matrix ha))⟩
  · rintro (⟨n, ha, rfl⟩ | ⟨m, n, ha, rfl⟩)
    · exact ty?_vector ha
    · exact ty?_matrix ha

theorem ty?_of_ne_null {v : Value} (h : v ≠ .null) : ∃ t, v.ty? = some t := by
  cases v with
  | int _ | float _ | str _ => exact ⟨_, rfl⟩
  | null => exact absurd rfl h
  | tensor a =>
      cases ha : a.shape with
      | vector n => exact ⟨_, ty?_vector ha⟩
      | matrix m n => exact ⟨_, ty?_matrix ha⟩

theorem shape?_of_number {v : Value} {a : Number} (h : v.number? = some a) :
    v.shape? = none := by
  cases v <;> cases h <;> rfl

/-- What is no number has no numeric type. -/
theorem isNumeric_eq_false {v : Value} {t : Ty} (h : v.ty? = some t)
    (hv : v.number? = none) : t.kind.isNumeric = false := by
  cases v with
  | int n => cases hv
  | float x => cases hv
  | str s => cases h; rfl
  | null => cases h
  | tensor a => rcases ty?_tensor.mp h with ⟨_, -, rfl⟩ | ⟨_, _, -, rfl⟩ <;> rfl

theorem isArray_eq_false {v : Value} {t : Ty} (h : v.ty? = some t)
    (hv : v.shape? = none) : t.kind.isArray = false := by
  cases v <;> cases hv <;> cases h <;> rfl

end Value

/-- What the table says of two values, beside what the operator gives. -/
structure Foretold (v w : Value) (static : Except Problem Ty)
    (result : Except Fault Value) : Prop where
  /-- The type is that of the result, unless arithmetic on two numbers fails. -/
  value : ∀ r, static = .ok r →
    Settles (fun fault => v.number?.isSome = true ∧ w.number?.isSome = true
      ∧ fault.Scalar) (·.ty? = some r) result
  /-- Shapes that ought to be equal are not. -/
  shapes : ∀ p, static = .error p → p.code = .incompatibleShapes →
    ∃ symbol l r, p = .incompatibleShapes symbol l r
      ∧ v.shape? = some l ∧ w.shape? = some r
      ∧ result = .error (.tensor (.shapeMismatch l r))
  /-- The inner sizes of a matrix product differ. -/
  product : ∀ p, static = .error p → p.code = .productMismatch →
    ∃ l r, p = .productMismatch l r ∧ v.shape? = some l ∧ w.shape? = some r
      ∧ result = .error (.tensor (.productMismatch l r))

namespace Foretold

variable {v w : Value} {result : Except Fault Value}

theorem typed {r : Ty} (hresult : Settles (fun fault => v.number?.isSome = true
      ∧ w.number?.isSome = true ∧ fault.Scalar) (·.ty? = some r) result) :
    Foretold v w (.ok r) result where
  value := by
    rintro _ ⟨⟩
    exact hresult
  shapes := nofun
  product := nofun

theorem unequal (symbol : String) (a b : Tensor) :
    Foretold (.tensor a) (.tensor b)
      (.error (.incompatibleShapes symbol a.shape b.shape))
      (.error (.tensor (.shapeMismatch a.shape b.shape))) where
  value := nofun
  shapes := by
    rintro _ ⟨⟩ -
    exact ⟨symbol, a.shape, b.shape, rfl, rfl, rfl, rfl⟩
  product := by rintro _ ⟨⟩ ⟨⟩

theorem mismatched (a b : Tensor) :
    Foretold (.tensor a) (.tensor b) (.error (.productMismatch a.shape b.shape))
      (.error (.tensor (.productMismatch a.shape b.shape))) where
  value := nofun
  shapes := by rintro _ ⟨⟩ ⟨⟩
  product := by
    rintro _ ⟨⟩ -
    exact ⟨a.shape, b.shape, rfl, rfl, rfl, rfl⟩

/-- Nothing is foretold of operands without an entry in the table. -/
theorem unruled {p : Problem} (hp : p.code ≠ .incompatibleShapes)
    (hq : p.code ≠ .productMismatch) : Foretold v w (.error p) result where
  value := nofun
  shapes := by
    rintro _ ⟨⟩ h
    exact absurd h hp
  product := by
    rintro _ ⟨⟩ h
    exact absurd h hq

end Foretold

/-! ## Numbers -/

theorem Value.ty?_int {r : Value} (h : ∃ n, r = .int n) : r.ty? = some .int := by
  obtain ⟨n, rfl⟩ := h
  rfl

theorem Value.ty?_float {r : Value} (h : ∃ x, r = .float x) :
    r.ty? = some .float := by
  obtain ⟨x, rfl⟩ := h
  rfl

/-- Two numbers have an entry under every operator, and it is right. -/
theorem Value.binary_numbers_ty? (op : BinaryOp) {v w : Value} {a b : Number}
    (ha : v.number? = some a) (hb : w.number? = some b) :
    ∃ k l r, v.ty? = some (.ofKind k) ∧ w.ty? = some (.ofKind l)
      ∧ operatorRule op k l = some (r, .any)
      ∧ Settles Fault.Scalar (·.ty? = some (.ofKind r)) (Value.binary op v w) := by
  have hfloats : ∀ x y, Settles Fault.Scalar (·.ty? = some .float)
      (op.onFloats x y) := fun x y =>
    (op.onFloats_settles x y).mono fun _ => ty?_float
  cases v <;> cases ha <;> cases w <;> cases hb
  · exact ⟨.int, .int, .int, rfl, rfl, rfl,
      (op.onInts_settles _ _).mono fun _ => ty?_int⟩
  · exact ⟨.int, .float, .float, rfl, rfl, rfl, hfloats _ _⟩
  · exact ⟨.float, .int, .float, rfl, rfl, rfl, hfloats _ _⟩
  · exact ⟨.float, .float, .float, rfl, rfl, rfl, hfloats _ _⟩

/-! ## Arrays -/

/-- Arrays of unequal shapes are not combined entry by entry. -/
theorem Value.binary_unequal {op : BinaryOp} {a b : Tensor}
    (hop : ¬(op = .mul ∧ a.rank = 2 ∧ b.rank = 2)) (h : a.shape ≠ b.shape) :
    Value.binary op (.tensor a) (.tensor b)
      = .error (.tensor (.shapeMismatch a.shape b.shape)) := by
  rw [Value.binary_entrywise hop, Tensor.entrywise, if_neg h]
  rfl

/-- Only arithmetic on two numbers can fail where the table has an entry. -/
theorem Foretold.ofNumbers {op : BinaryOp} (symbol : String) {v w : Value}
    {a b : Number} {r : Kind} (ha : v.number? = some a) (hb : w.number? = some b)
    (hresult : Settles Fault.Scalar (·.ty? = some (.ofKind r)) (Value.binary op v w)) :
    Foretold v w (applyRule symbol r .any none none) (Value.binary op v w) := by
  refine .typed (hresult.imp (fun fault hfault => ⟨?_, ?_, hfault⟩) fun _ h => h)
  · rw [ha]; rfl
  · rw [hb]; rfl

/-- An entry of the table that asks for equal shapes. -/
theorem Foretold.same {op : BinaryOp} (symbol : String) {a b : Tensor} {t u : Ty}
    (ha : (Value.tensor a).ty? = some t) (hb : (Value.tensor b).ty? = some u)
    (hop : ¬(op = .mul ∧ a.rank = 2 ∧ b.rank = 2)) :
    Foretold (.tensor a) (.tensor b) (applyRule symbol t.kind .same t.shape u.shape)
      (Value.binary op (.tensor a) (.tensor b)) := by
  obtain ⟨hkind, hshape⟩ := Value.ty?_eq_some.mp ha
  obtain ⟨-, hshape'⟩ := Value.ty?_eq_some.mp hb
  rw [← hshape, ← hshape']
  show Foretold _ _ (if a.shape = b.shape then .ok ⟨t.kind, some a.shape⟩
    else .error (.incompatibleShapes symbol a.shape b.shape)) _
  by_cases heq : a.shape = b.shape
  · obtain ⟨c, -, hc, hresult⟩ := Value.binary_equal op hop heq
    rw [if_pos heq, hresult, ← hc]
    refine .typed (Value.ty?_eq_some.mpr ⟨?_, rfl⟩)
    simpa only [Value.kind?, hc] using hkind
  · rw [if_neg heq, Value.binary_unequal hop heq]
    exact .unequal symbol a b

theorem Foretold.matrixProduct (symbol : String) {a b : Tensor} {m k k' n : Nat}
    (ha : a.shape = .matrix m k) (hb : b.shape = .matrix k' n) :
    Foretold (.tensor a) (.tensor b)
      (applyRule symbol .matrix .product (some (.matrix m k)) (some (.matrix k' n)))
      (Value.binary .mul (.tensor a) (.tensor b)) := by
  have hrank : a.rank = 2 ∧ b.rank = 2 :=
    ⟨Tensor.rank_matrix ha, Tensor.rank_matrix hb⟩
  rw [Value.binary_tensor, BinaryOp.onTensors, if_pos ⟨rfl, hrank⟩, ← ha, ← hb]
  have hmismatch := Foretold.mismatched a b
  simp only [Tensor.product, ha, hb, applyRule] at hmismatch ⊢
  by_cases hk : k = k'
  · rw [if_pos hk, if_pos hk]
    exact .typed rfl
  · rw [if_neg hk, if_neg hk]
    exact hmismatch

/-- Two values are not combined that are neither two numbers nor two arrays. -/
theorem Value.binary_unlike (op : BinaryOp) {v w : Value}
    (hnumbers : v.number? = none ∨ w.number? = none)
    (harrays : v.shape? = none ∨ w.shape? = none) :
    Value.binary op v w = .error (.invalidOperands op.text v.kind? w.kind?) := by
  cases v <;> cases w <;> simp_all [Value.binary, Value.number?, Value.shape?]

/-! ## Pairs of operands -/

theorem operatorRule_eq_none (op : BinaryOp) {k l : Kind}
    (hnumeric : k.isNumeric = false ∨ l.isNumeric = false)
    (harray : k.isArray = false ∨ l.isArray = false) : operatorRule op k l = none := by
  cases k <;> cases l <;> simp_all [operatorRule, Kind.isNumeric, Kind.isArray]

/-- Operands for which the table has no entry, but which are combined entry by
entry when the program runs. -/
def BinaryOp.Lenient (op : BinaryOp) (t u : Ty) : Prop :=
  t = u ∧ (t.kind = .vector ∧ (op = .mul ∨ op = .div)
    ∨ t.kind = .matrix ∧ op = .div)

theorem operatorRule_vectors_eq_none {op : BinaryOp} :
    operatorRule op .vector .vector = none ↔ op = .mul ∨ op = .div := by
  cases op <;> simp [operatorRule]

theorem operatorRule_matrices_eq_none {op : BinaryOp} :
    operatorRule op .matrix .matrix = none ↔ op = .div := by
  cases op <;> simp [operatorRule]

/-- Two values and their types: numbers, vectors, matrices, or a pair that no
operator takes. -/
inductive Operands : Value → Value → Ty → Ty → Prop
  | numbers {v w : Value} {a b : Number} {t u : Ty} :
      v.number? = some a → w.number? = some b → Operands v w t u
  | vectors {a b : Tensor} {m n : Nat} : a.shape = .vector m → b.shape = .vector n →
      Operands (.tensor a) (.tensor b) (.vector m) (.vector n)
  | matrices {a b : Tensor} {m k k' n : Nat} : a.shape = .matrix m k →
      b.shape = .matrix k' n →
      Operands (.tensor a) (.tensor b) (.matrix m k) (.matrix k' n)
  | others {v w : Value} {t u : Ty} : (∀ op, operatorRule op t.kind u.kind = none) →
      (∀ op, ¬BinaryOp.Lenient op t u) →
      (∀ op, ∃ fault, Value.binary op v w = .error fault) → Operands v w t u

namespace Operands

variable {v w : Value} {t u : Ty}

theorem of_unlike (hv : v.ty? = some t) (hw : w.ty? = some u)
    (hnumbers : v.number? = none ∨ w.number? = none)
    (harrays : v.shape? = none ∨ w.shape? = none) : Operands v w t u := by
  have hnumeric : t.kind.isNumeric = false ∨ u.kind.isNumeric = false :=
    hnumbers.imp (Value.isNumeric_eq_false hv) (Value.isNumeric_eq_false hw)
  have harray : t.kind.isArray = false ∨ u.kind.isArray = false :=
    harrays.imp (Value.isArray_eq_false hv) (Value.isArray_eq_false hw)
  refine .others (fun op => operatorRule_eq_none op hnumeric harray) ?_
    fun op => ⟨_, Value.binary_unlike op hnumbers harrays⟩
  rintro op ⟨rfl, ⟨hkind, -⟩ | ⟨hkind, -⟩⟩ <;> simp [hkind, Kind.isArray] at harray

theorem of_tensors {a b : Tensor} (ha : (Value.tensor a).ty? = some t)
    (hb : (Value.tensor b).ty? = some u) : Operands (.tensor a) (.tensor b) t u := by
  have hranks (hrank : a.rank ≠ b.rank)
      (hrule : ∀ op, operatorRule op t.kind u.kind = none) (hne : t ≠ u) :
      Operands (.tensor a) (.tensor b) t u :=
    .others hrule (fun _ h => hne h.1) fun op =>
      ⟨_, Value.binary_unequal (fun h => hrank (h.2.1.trans h.2.2.symm))
        fun h => hrank (congrArg Shape.rank h)⟩
  rcases Value.ty?_tensor.mp ha with ⟨m, hs, rfl⟩ | ⟨m, k, hs, rfl⟩
  · rcases Value.ty?_tensor.mp hb with ⟨n, hs', rfl⟩ | ⟨k', n, hs', rfl⟩
    · exact .vectors hs hs'
    · refine hranks ?_ (fun _ => rfl) nofun
      rw [Tensor.rank_vector hs, Tensor.rank_matrix hs']
      exact nofun
  · rcases Value.ty?_tensor.mp hb with ⟨n, hs', rfl⟩ | ⟨k', n, hs', rfl⟩
    · refine hranks ?_ (fun _ => rfl) nofun
      rw [Tensor.rank_matrix hs, Tensor.rank_vector hs']
      exact nofun
    · exact .matrices hs hs'

end Operands

theorem Value.operands {v w : Value} {t u : Ty} (hv : v.ty? = some t)
    (hw : w.ty? = some u) : Operands v w t u := by
  by_cases hnumbers : v.number? = none ∨ w.number? = none
  · by_cases harrays : v.shape? = none ∨ w.shape? = none
    · exact .of_unlike hv hw hnumbers harrays
    · cases v <;> cases w <;> simp [Value.shape?] at harrays
      exact .of_tensors hv hw
  · obtain ⟨hv, hw⟩ := not_or.mp hnumbers
    obtain ⟨a, ha⟩ := Option.ne_none_iff_exists'.mp hv
    obtain ⟨b, hb⟩ := Option.ne_none_iff_exists'.mp hw
    exact .numbers ha hb

/-! ## The two tables -/

section Entries

variable {op : BinaryOp} {t u : Ty}

theorem Ty.binary_of_none (h : operatorRule op t.kind u.kind = none) :
    Ty.binary op t u = .error (.invalidOperands op t.kind u.kind) := by
  simp only [Ty.binary, h]

theorem Ty.binary_of_some {kind : Kind} {rule : ShapeRule}
    (h : operatorRule op t.kind u.kind = some (kind, rule)) :
    Ty.binary op t u = applyRule op.text kind rule t.shape u.shape := by
  simp only [Ty.binary, h]

theorem Ty.compound_of_none {assign : AssignOp} (hbase : assign.base? = some op)
    (h : operatorRule op t.kind u.kind = none) :
    Ty.compound assign t u = .error (.invalidCompound assign t.kind u.kind) := by
  simp only [Ty.compound, hbase, h]

theorem Ty.compound_of_some {assign : AssignOp} {kind : Kind} {rule : ShapeRule}
    (hbase : assign.base? = some op)
    (h : operatorRule op t.kind u.kind = some (kind, rule)) :
    Ty.compound assign t u
      = applyRule assign.text kind rule.keepingTarget t.shape u.shape := by
  simp only [Ty.compound, hbase, h]

end Entries

/-- An entry of the table is only ever missed by the shapes. -/
theorem applyRule_code {symbol : String} {kind : Kind} {rule : ShapeRule}
    {l r : Option Shape} {p : Problem} (h : applyRule symbol kind rule l r = .error p) :
    p.code = .incompatibleShapes ∨ p.code = .productMismatch := by
  unfold applyRule at h
  split at h
  · cases h
  · split at h
    · cases h
    · cases h; exact .inl rfl
  · cases h
  · split at h
    · cases h
    · cases h; exact .inr rfl
  · cases h

section Agreement

variable {v w : Value} {t u : Ty}

/-- Every entry for arrays combines them entry by entry, but for `*` on two
matrices. -/
theorem Foretold.binary (op : BinaryOp) (hv : v.ty? = some t) (hw : w.ty? = some u) :
    Foretold v w (Ty.binary op t u) (Value.binary op v w) := by
  cases hrule : operatorRule op t.kind u.kind with
  | none =>
      rw [Ty.binary_of_none hrule]
      exact .unruled nofun nofun
  | some entry =>
      obtain ⟨kind, rule⟩ := entry
      rw [Ty.binary_of_some hrule]
      cases Value.operands hv hw with
      | numbers ha hb =>
          obtain ⟨k, l, r, hk, hl, hrule', hresult⟩ :=
            Value.binary_numbers_ty? op ha hb
          obtain rfl := Option.some.inj (hv.symm.trans hk)
          obtain rfl := Option.some.inj (hw.symm.trans hl)
          cases hrule.symm.trans hrule'
          exact .ofNumbers op.text ha hb hresult
      | vectors ha hb =>
          obtain ⟨rfl, rfl⟩ := operatorRule_vectors hrule
          exact .same op.text hv hw (op.not_product ha)
      | matrices ha hb =>
          obtain ⟨rfl, ⟨rfl, rfl⟩ | ⟨hop, rfl⟩⟩ := operatorRule_matrices hrule
          · exact .matrixProduct _ ha hb
          · exact .same op.text hv hw fun h => hop h.1
      | others hnone => cases hrule.symm.trans (hnone op)

/-- Under a compound assignment there is no exception: neither side multiplies
matrices. -/
theorem Foretold.compound {assign : AssignOp} {op : BinaryOp}
    (hbase : assign.base? = some op) (hv : v.ty? = some t) (hw : w.ty? = some u) :
    Foretold v w (Ty.compound assign t u)
      (Value.binary (Value.compoundOp op v w) v w) := by
  cases hrule : operatorRule op t.kind u.kind with
  | none =>
      rw [Ty.compound_of_none hbase hrule]
      exact .unruled nofun nofun
  | some entry =>
      obtain ⟨kind, rule⟩ := entry
      rw [Ty.compound_of_some hbase hrule]
      cases Value.operands hv hw with
      | numbers ha hb =>
          obtain ⟨k, l, r, hk, hl, hrule', hresult⟩ :=
            Value.binary_numbers_ty? op ha hb
          obtain rfl := Option.some.inj (hv.symm.trans hk)
          obtain rfl := Option.some.inj (hw.symm.trans hl)
          cases hrule.symm.trans hrule'
          have hop : Value.compoundOp op v w = op := by
            cases v <;> cases ha <;> cases op <;> rfl
          rw [hop]
          exact .ofNumbers assign.text ha hb hresult
      | vectors ha hb =>
          obtain ⟨rfl, rfl⟩ := operatorRule_vectors hrule
          exact .same assign.text hv hw (BinaryOp.not_product _ ha)
      | matrices ha hb =>
          obtain ⟨rfl, hshapes⟩ := operatorRule_matrices hrule
          have hkeep : rule.keepingTarget = .same := by
            rcases hshapes with ⟨-, rfl⟩ | ⟨-, rfl⟩ <;> rfl
          rw [hkeep]
          exact .same assign.text hv hw (by cases op <;> simp [Value.compoundOp])
      | others hnone => cases hrule.symm.trans (hnone op)

/-- Operands without an entry are a fault, unless the operator is lenient. -/
theorem Value.binary_unruled {op : BinaryOp} (hv : v.ty? = some t)
    (hw : w.ty? = some u) (h : operatorRule op t.kind u.kind = none)
    (hstrict : ¬op.Lenient t u) : ∃ fault, Value.binary op v w = .error fault := by
  cases Value.operands hv hw with
  | numbers ha hb =>
      obtain ⟨k, l, r, hk, hl, hrule, -⟩ := Value.binary_numbers_ty? op ha hb
      obtain rfl := Option.some.inj (hv.symm.trans hk)
      obtain rfl := Option.some.inj (hw.symm.trans hl)
      cases h.symm.trans hrule
  | vectors ha hb =>
      have hop := operatorRule_vectors_eq_none.mp h
      refine ⟨_, Value.binary_unequal (op.not_product ha) fun heq => ?_⟩
      obtain rfl := Shape.vector.inj (ha.symm.trans (heq.trans hb))
      exact hstrict ⟨rfl, .inl ⟨rfl, hop⟩⟩
  | matrices ha hb =>
      obtain rfl := operatorRule_matrices_eq_none.mp h
      refine ⟨_, Value.binary_unequal nofun fun heq => ?_⟩
      obtain ⟨rfl, rfl⟩ := Shape.matrix.inj (ha.symm.trans (heq.trans hb))
      exact hstrict ⟨rfl, .inr ⟨rfl, rfl⟩⟩
  | others _ _ hfault => exact hfault op

/-- A lenient operator has no entry and combines two arrays entry by entry. -/
theorem Value.binary_lenient {op : BinaryOp} (hv : v.ty? = some t)
    (hw : w.ty? = some u) (h : op.Lenient t u) :
    operatorRule op t.kind u.kind = none
      ∧ ∃ a b c, v = .tensor a ∧ w = .tensor b
        ∧ Tensor.entrywise op.arithmetic a b = .ok c
        ∧ Value.binary op v w = .ok (.tensor c) := by
  obtain ⟨rfl, hkind⟩ := h
  cases Value.operands hv hw with
  | numbers ha hb =>
      have harray := Value.isArray_eq_false hv (Value.shape?_of_number ha)
      rcases hkind with ⟨hkind, -⟩ | ⟨hkind, -⟩ <;> simp [hkind, Kind.isArray] at harray
  | vectors ha hb =>
      obtain ⟨-, hop⟩ | ⟨⟨⟩, -⟩ := hkind
      obtain ⟨c, hc, -, hresult⟩ := Value.binary_equal op
        (op.not_product ha) (ha.trans hb.symm)
      exact ⟨operatorRule_vectors_eq_none.mpr hop, _, _, c, rfl, rfl, hc, hresult⟩
  | matrices ha hb =>
      obtain ⟨⟨⟩, -⟩ | ⟨-, rfl⟩ := hkind
      obtain ⟨c, hc, -, hresult⟩ := Value.binary_equal .div nofun (ha.trans hb.symm)
      exact ⟨rfl, _, _, c, rfl, rfl, hc, hresult⟩
  | others _ hstrict _ => exact absurd ⟨rfl, hkind⟩ (hstrict op)

end Agreement

/-- The table and the operators agree on every pair of values other than `null`,
but for a matrix product for which there is no room. Where the table has no entry
the operator faults, except that it divides arrays of one shape, and multiplies
vectors of one length, entry by entry. -/
theorem operators_foretold {v w : Value} (hv : v ≠ .null) (hw : w ≠ .null) :
    ∃ t u, v.ty? = some t ∧ w.ty? = some u
      ∧ (∀ op, ¬BinaryOp.Crowded op v w →
        ∃ result, Value.operate op v w = result.mapError .fault
          ∧ Foretold v w (Ty.binary op t u) result
          ∧ (op.Lenient t u →
              Ty.binary op t u = .error (.invalidOperands op t.kind u.kind)
                ∧ ∃ a b c, v = .tensor a ∧ w = .tensor b
                  ∧ Tensor.entrywise op.arithmetic a b = .ok c
                  ∧ result = .ok (.tensor c))
          ∧ (¬op.Lenient t u → ∀ p, Ty.binary op t u = .error p →
              p.code = .invalidOperands → ∃ fault, result = .error fault))
      ∧ ∀ assign op, AssignOp.base? assign = some op →
        ∃ result, Value.operate (Value.compoundOp op v w) v w = result.mapError .fault
          ∧ Foretold v w (Ty.compound assign t u) result := by
  obtain ⟨t, ht⟩ := Value.ty?_of_ne_null hv
  obtain ⟨u, hu⟩ := Value.ty?_of_ne_null hw
  refine ⟨t, u, ht, hu, fun op hroom => ?_, fun assign op hbase => ?_⟩
  · refine ⟨_, Value.operate_eq hroom, .binary op ht hu, fun h => ?_,
      fun h p hp hcode => ?_⟩
    · obtain ⟨hrule, harrays⟩ := Value.binary_lenient ht hu h
      exact ⟨Ty.binary_of_none hrule, harrays⟩
    · cases hrule : operatorRule op t.kind u.kind with
      | none => exact Value.binary_unruled ht hu hrule h
      | some entry =>
          rw [Ty.binary_of_some hrule] at hp
          rcases applyRule_code hp with hp | hp <;> cases hcode.symm.trans hp
  · exact ⟨_, Value.operate_eq (op.not_crowded_compoundOp v w),
      .compound hbase ht hu⟩

/-- A matrix product whose inner sizes differ, rejected before the run with the
shapes that the run would name. -/
theorem operators_foretold_product :
    Value.tensor (.zeros 2 3) ≠ .null ∧ Value.tensor (.ones 2 3) ≠ .null
      ∧ Value.operate .mul (.tensor (.zeros 2 3)) (.tensor (.ones 2 3))
        = .error (.fault (.tensor (.productMismatch (.matrix 2 3) (.matrix 2 3)))) := by
  obtain ⟨t, u, ht, hu, htable, -⟩ :=
    operators_foretold (v := .tensor (.zeros 2 3)) (w := .tensor (.ones 2 3)) nofun nofun
  cases ht
  cases hu
  have hroom : Value.binaryCrash? .mul (.tensor (.zeros 2 3)) (.tensor (.ones 2 3))
      = none := rfl
  obtain ⟨result, hresult, hforetold, -⟩ :=
    htable .mul (Value.binaryCrash?_eq_none.mp hroom)
  obtain ⟨l, r, -, hl, hr, rfl⟩ := hforetold.product _ rfl rfl
  cases hl
  cases hr
  exact ⟨nofun, nofun, hresult⟩

/-- The table gives the type of a product that cannot be stored. -/
theorem operators_foretold_crowded :
    (Value.tensor (.zeros 1073741824 0)).ty? = some (.matrix 1073741824 0)
      ∧ (Value.tensor (.zeros 0 1073741824)).ty? = some (.matrix 0 1073741824)
      ∧ Ty.binary .mul (.matrix 1073741824 0) (.matrix 0 1073741824)
        = .ok (.matrix 1073741824 1073741824)
      ∧ Value.operate .mul (.tensor (.zeros 1073741824 0)) (.tensor (.zeros 0 1073741824))
        = .error (.crash .noRoom) :=
  ⟨Value.ty?_matrix rfl, Value.ty?_matrix rfl, rfl, operate_crash rfl rfl (by decide)⟩

end MatrixLang
