import MatrixLang.Proofs.Tensor.WellFormed
import MatrixLang.Proofs.Typing.Clean
import MatrixLang.Proofs.Typing.Fits
import MatrixLang.Run.Evaluate

/-!
# Evaluating what was checked

If a memory agrees with the symbols on the names of an expression, and the
checker reports nothing on it, then it has a type that leaves nothing open, and
evaluating it gives a value of this type or one of the arithmetic faults
(`Expr.evaluates`). Both readings of the numeric kinds are covered at once.

The induction is on the expression. In every case the type rules out the other
faults: a place is there (`Memory.read_fits`), an operator has operands from its
table, and the rows of a matrix literal have one length.
-/

namespace MatrixLang

variable {p : Precision} {m : Memory} {symbols : Symbols}

/-- What is remembered of a name is true of its value. -/
def Memory.Agrees (p : Precision) (m : Memory) (symbols : Symbols)
    (name : String) : Prop :=
  ∀ ty, symbols.get? name = some ty →
    ∃ t v, ty = some t ∧ m.get? name = some v ∧ v.Fits p t

/-! ## Reading a place -/

theorem resolve_of_bounds {i : Int64} (axis : Nat) {size : Nat}
    (h : 0 ≤ i.toInt ∧ i.toInt < size) :
    Tensor.resolve i axis size = .ok i.toInt.toNat := by
  have hneg : ¬i.toInt < 0 := by omega
  simp only [Tensor.resolve, if_neg hneg, if_pos h]

theorem Memory.indexed_eq {name : String} {a : Tensor}
    (h : m.get? name = some (.tensor a)) :
    m.indexed name = .ok a := by
  simp only [Memory.indexed, Memory.value, h, Option.getD_some]

theorem Memory.read_item {name : String} {i : Int64} {line : Nat} {t : Ty}
    {v : Value} (hv : m.get? name = some v) (hfit : v.Fits p t)
    (hclean : (itemType line name i t).reports = []) :
    ∃ u w, (itemType line name i t).ty = some u ∧ m.read (.item name i) = .ok w
      ∧ w.Fits p u := by
  cases hfit with
  | int | rounded | whole | float | str => cases hclean
  | @vector a n ha =>
      have hin := boundsReport_eq_nil.mp hclean
      refine ⟨.float, .ofNumber (a.numberAt i.toInt.toNat), rfl, ?_, .ofNumber p _⟩
      simp only [Memory.read, Memory.indexed_eq hv, ok_bind, Tensor.get, ha,
        resolve_of_bounds 0 hin, TensorFault.lift]
  | @matrix a rows cols ha =>
      have hin := boundsReport_eq_nil.mp hclean
      refine ⟨.vector cols, .tensor (a.rowAt cols i.toInt.toNat), rfl, ?_,
        .vector rfl⟩
      simp only [Memory.read, Memory.indexed_eq hv, ok_bind, Tensor.get, ha,
        resolve_of_bounds 0 hin, TensorFault.lift]

theorem Memory.read_cell {name : String} {i j : Int64} {line : Nat} {t : Ty}
    {v : Value} (hv : m.get? name = some v) (hfit : v.Fits p t)
    (hclean : (cellType line name i j t).reports = []) :
    ∃ u w, (cellType line name i j t).ty = some u ∧ m.read (.cell name i j) = .ok w
      ∧ w.Fits p u := by
  cases hfit with
  | int | rounded | whole | float | str | vector => cases hclean
  | @matrix a rows cols ha =>
      obtain ⟨hrow, hcol⟩ := List.append_eq_nil_iff.mp hclean
      have hi := boundsReport_eq_nil.mp hrow
      have hj := boundsReport_eq_nil.mp hcol
      refine ⟨.float,
        .ofNumber (a.numberAt (i.toInt.toNat * cols + j.toInt.toNat)), rfl, ?_,
        .ofNumber p _⟩
      simp only [Memory.read, Memory.indexed_eq hv, ok_bind, Tensor.get₂,
        Tensor.offset, ha, resolve_of_bounds 0 hi, resolve_of_bounds 1 hj,
        TensorFault.lift]

/-- The variable of a place on which nothing is reported has a type and a value. -/
theorem Memory.Agrees.place {place : Place} {line : Nat}
    (h : m.Agrees p symbols place.name)
    (hclean : (placeType symbols line place).reports = []) :
    ∃ t v, symbols.get? place.name = some (some t) ∧ m.get? place.name = some v
      ∧ v.Fits p t := by
  cases hs : symbols.get? place.name with
  | none => simp only [placeType, hs] at hclean; cases hclean
  | some ty =>
      obtain ⟨t, v, rfl, hv, hfit⟩ := h ty hs
      exact ⟨t, v, rfl, hv, hfit⟩

/-- A place on which nothing is reported can be read, and what stands there has
the type that was inferred. -/
theorem Memory.read_fits {place : Place} {line : Nat}
    (h : m.Agrees p symbols place.name)
    (hclean : (placeType symbols line place).reports = []) :
    ∃ t v, (placeType symbols line place).ty = some t ∧ m.read place = .ok v
      ∧ v.Fits p t := by
  obtain ⟨t, v, hs, hv, hfit⟩ := h.place hclean
  simp only [placeType, hs] at hclean ⊢
  cases place with
  | var name =>
      refine ⟨t, v, rfl, ?_, hfit⟩
      have hget : m.get? name = some v := hv
      simp only [Memory.read, Memory.value, hget, Option.getD_some]
  | item name i => exact Memory.read_item hv hfit hclean
  | cell name i j => exact Memory.read_cell hv hfit hclean

/-! ## Literals and constructors -/

theorem constructValue_settles {line : Nat} {f : Constructor} {dims : Dims}
    (hclean : (constructType line f dims).reports = []) :
    ∃ rows cols, (constructType line f dims).ty = some (.matrix rows cols)
      ∧ Settles Fault.Arithmetic (fun a => a.shape = .matrix rows cols)
          (constructValue f dims) := by
  simp only [constructType] at hclean ⊢
  split at hclean
  · rename_i hpos
    rw [if_pos hpos]
    refine ⟨_, _, rfl, ?_⟩
    have hneg : ¬(dims.rowsCols.1.toInt < 0 ∨ dims.rowsCols.2.toInt < 0) := by omega
    simp only [constructValue, if_neg hneg, Tensor.checkedSize]
    split
    · cases f <;> rfl
    · trivial
  · cases hclean

/-- Vectors of one length are the rows of a matrix. Without rows there are no
columns either. -/
theorem Tensor.ofRows_of_vectors {rows : List Tensor} {cols : Nat}
    (h : ∀ a ∈ rows, a.shape = .vector cols) (hnil : rows = [] → cols = 0) :
    ∃ a, Tensor.ofRows rows = .ok a ∧ a.shape = .matrix rows.length cols := by
  have hlengths := Tensor.mapM_vectorLength.mpr (Tensor.map_shape_replicate h)
  have hhead : (List.replicate rows.length cols).headD 0 = cols := by
    cases rows with
    | nil => exact (hnil rfl).symm
    | cons a rest => rfl
  have hall : (List.replicate rows.length cols).all (· = cols) = true := by simp
  refine ⟨⟨.matrix rows.length cols, joinedKind rows,
    (rows.flatMap (·.data.toList)).toArray⟩, ?_, rfl⟩
  simp only [Tensor.ofRows, hlengths, ok_bind, hhead, hall, if_true]

/-! ## Expressions -/

/-- An expression has a type, and its value fits it unless the arithmetic
fails. -/
def Expr.Evaluates (p : Precision) (m : Memory) (symbols : Symbols) (e : Expr) :
    Prop :=
  ∃ t, (infer symbols e).ty = some t ∧ t.Known
    ∧ Settles Halt.Arithmetic (Value.Fits p · t) (evaluate m e)

theorem evaluateItems_settles {items : List Expr}
    (h : ∀ e ∈ items, e.Evaluates p m symbols)
    (hnum : ∀ e ∈ items, ∀ t, (infer symbols e).ty = some t →
      t.kind.isNumeric = true) :
    Settles Halt.Arithmetic (fun ns => ns.length = items.length)
      (evaluateItems m items) := by
  rw [evaluateItems_eq_mapM]
  refine (Settles.mapM (P := fun _ => True) fun e he => ?_).mono fun ns hns => hns.1
  obtain ⟨t, ht, -, hv⟩ := h e he
  refine hv.bind fun v hfit => ?_
  obtain ⟨n, hn⟩ := hfit.number (hnum e he t ht)
  simp only [itemNumber, hn]
  trivial

theorem evaluateRows_settles {rows : List Expr} {cols : Nat}
    (h : ∀ e ∈ rows, e.Evaluates p m symbols)
    (hcols : ∀ e ∈ rows, ∀ t, (infer symbols e).ty = some t → t = .vector cols) :
    Settles Halt.Arithmetic
      (fun as => as.length = rows.length ∧ ∀ a ∈ as, a.shape = .vector cols)
      (evaluateRows m rows) := by
  rw [evaluateRows_eq_mapM]
  refine Settles.mapM fun e he => ?_
  obtain ⟨t, ht, -, hv⟩ := h e he
  refine hv.bind fun v hfit => ?_
  obtain rfl := hcols e he t ht
  obtain ⟨a, rfl, ha⟩ := hfit.tensor_of_vector
  exact ha

theorem Ty.Combines.known {op : BinaryOp} {t u r : Ty}
    (h : Ty.Combines op t u r) :
    r.Known := by
  cases h <;> constructor

theorem Ty.Known.eq_matrix {t : Ty} (h : t.Known) (hkind : t.kind = .matrix) :
    ∃ rows cols, t = .matrix rows cols := by
  cases h with
  | matrix rows cols => exact ⟨rows, cols, rfl⟩
  | int | float | string | vector => cases hkind

/-- What agrees on the names of a list agrees on those of its members. -/
theorem Memory.agrees_member {es : List Expr} {e : Expr}
    (h : ∀ x ∈ Expr.namesAll es, m.Agrees p symbols x) (he : e ∈ es) :
    ∀ x ∈ e.names, m.Agrees p symbols x := by
  intro x hx
  exact h x (Expr.mem_namesAll.mpr ⟨e, he, hx⟩)

/-- An expression on which nothing is reported evaluates to what was inferred. -/
theorem Expr.evaluates {e : Expr} (hagree : ∀ x ∈ e.names, m.Agrees p symbols x)
    (hclean : (infer symbols e).reports = []) : e.Evaluates p m symbols := by
  induction e with
  | int line n => exact ⟨.int, rfl, .int, .int n⟩
  | float line x => exact ⟨.float, rfl, .float, .float x⟩
  | str line s => exact ⟨.string, rfl, .string, .str s⟩
  | read line place =>
      obtain ⟨t, v, ht, hv, hfit⟩ :=
        Memory.read_fits (hagree place.name (List.mem_singleton.mpr rfl)) hclean
      refine ⟨t, ht, hfit.known, ?_⟩
      simp only [evaluate, hv]
      exact hfit
  | binary line op l r ihl ihr =>
      obtain ⟨hl, hr⟩ := Judgement.bind₂_reports_eq_nil hclean
      obtain ⟨t, ht, htk, hvl⟩ :=
        ihl (fun x hx => hagree x (List.mem_append_left _ hx)) hl
      obtain ⟨u, hu, huk, hvr⟩ :=
        ihr (fun x hx => hagree x (List.mem_append_right _ hx)) hr
      simp only [infer, Judgement.bind₂, ht, hu, hl, hr,
        List.nil_append] at hclean
      obtain ⟨res, hres, hty⟩ := Judgement.ofExcept_reports_eq_nil hclean
      have hcomb := Ty.Combines.of_binary htk huk hres
      refine ⟨res, ?_, hcomb.known, ?_⟩
      · simp only [infer, Judgement.bind₂, ht, hu, hty]
      · simp only [evaluate]
        refine hvl.bind fun v hv => hvr.bind fun w hw => ?_
        exact (hv.binary hw hcomb).operate line
  | compare line op l r ihl ihr =>
      simp only [infer, List.append_eq_nil_iff] at hclean
      obtain ⟨⟨hl, hr⟩, hcmp⟩ := hclean
      obtain ⟨t, ht, -, hvl⟩ :=
        ihl (fun x hx => hagree x (List.mem_append_left _ hx)) hl
      obtain ⟨u, hu, -, hvr⟩ :=
        ihr (fun x hx => hagree x (List.mem_append_right _ hx)) hr
      rw [ht, hu] at hcmp
      obtain ⟨htn, hun⟩ := compareReports_eq_nil.mp hcmp
      refine ⟨.int, rfl, .int, ?_⟩
      simp only [evaluate]
      refine hvl.bind fun v hv => hvr.bind fun w hw => ?_
      obtain ⟨b, hb⟩ := Value.compare_numbers op (hv.number htn) (hw.number hun)
      rw [hb]
      exact .int _
  | vector line items ih =>
      have hitems := itemReports_eq_nil.mp hclean
      have heval : ∀ e ∈ items, e.Evaluates p m symbols := by
        intro e he
        exact ih e he (Memory.agrees_member hagree he) (hitems e he).1
      refine ⟨.vector items.length, rfl, .vector _, ?_⟩
      simp only [evaluate]
      have hnumbers := evaluateItems_settles heval fun e he => (hitems e he).2
      refine hnumbers.bind fun ns hns => ?_
      exact .vector (congrArg Shape.vector hns)
  | matrix line rows ih =>
      simp only [infer, List.append_eq_nil_iff] at hclean
      obtain ⟨hrows, hragged⟩ := hclean
      have heval : ∀ e ∈ rows, e.Evaluates p m symbols := by
        intro e he
        have hrow := (rowReports_eq_nil.mp hrows e he).2
        exact ih e he (Memory.agrees_member hagree he) hrow
      obtain ⟨cols, hcols, hty⟩ := matrixType_eq hrows hragged
      have hnil : rows = [] → cols = 0 := fun h => by subst h; cases hty; rfl
      refine ⟨.matrix rows.length cols, congrArg some hty, .matrix _ _, ?_⟩
      simp only [evaluate]
      refine (evaluateRows_settles heval hcols).bind ?_
      rintro as ⟨hlen, has⟩
      obtain ⟨a, ha, hshape⟩ := Tensor.ofRows_of_vectors has fun h => hnil (by
        rw [h] at hlen
        exact List.length_eq_zero_iff.mp hlen.symm)
      rw [ha]
      exact .matrix (hlen ▸ hshape)
  | construct line f dims =>
      obtain ⟨rows, cols, hty, hval⟩ := constructValue_settles hclean
      refine ⟨_, hty, .matrix rows cols, ?_⟩
      simp only [evaluate]
      exact (hval.onLine line).bind fun a ha => .matrix ha
  | neg line e ih =>
      have he := Judgement.bind_reports_eq_nil hclean
      obtain ⟨t, ht, htk, hv⟩ := ih hagree he
      simp only [infer, Judgement.bind, ht, he, List.nil_append,
        negType] at hclean
      split at hclean
      · cases hclean
      · rename_i hkind
        refine ⟨t, ?_, htk, ?_⟩
        · simp only [infer, Judgement.bind, ht, negType, if_neg hkind,
            Judgement.known]
        · simp only [evaluate]
          exact hv.bind fun v hv => (hv.neg hkind).onLine line
  | transpose line e ih =>
      have he := Judgement.bind_reports_eq_nil hclean
      obtain ⟨t, ht, htk, hv⟩ := ih hagree he
      simp only [infer, Judgement.bind, ht, he, List.nil_append,
        transposeType] at hclean
      split at hclean
      · rename_i hkind
        obtain ⟨rows, cols, rfl⟩ := htk.eq_matrix hkind
        refine ⟨.matrix cols rows, ?_, .matrix _ _, ?_⟩
        · simp only [infer, Judgement.bind, ht]
          rfl
        · simp only [evaluate]
          exact hv.bind fun v hv => hv.transpose.onLine line
      · cases hclean

end MatrixLang
