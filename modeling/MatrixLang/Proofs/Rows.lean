import MatrixLang.Proofs.Grammar.Produced
import MatrixLang.Proofs.Run.Visits
import MatrixLang.Proofs.Tensor.WellFormed
import MatrixLang.Proofs.Typing.Fits
import MatrixLang.Proofs.Typing.Reports

/-!
# Rows of matrix literals

The checker and the running program are prepared for matrix literals with rows
that are no vectors, but no such literal can be read. So the checker never
reports one of a program that was read (`checkStmt_besideRows`), and a run of it
never faults at one, in whatever memory it starts (`execute_besideRows`).

Both inductions only need that all rows are vector literals
(`Expr.vectorRows`), which is a part of the normal form of the trees that are
read (`Stmt.vectorRows_of_isNormal`).
-/

namespace MatrixLang

/-! ## Normal form -/

theorem Expr.vectorRows_of_isNormal {row : List Expr → Bool} {e : Expr}
    (h : e.isNormal row = true ∨ e.isRow row = true) : e.vectorRows = true := by
  induction e with
  | int | float | str | read | construct => rfl
  | compare line op l r => rcases h with h | h <;> cases h
  | binary line op l r ihl ihr =>
      obtain ⟨hl, hr⟩ := Bool.and_eq_true_iff.mp (h.resolve_right nofun)
      exact Bool.and_eq_true_iff.mpr ⟨ihl (.inl hl), ihr (.inl hr)⟩
  | vector line items ih =>
      have hitems : areNormal row items = true := by
        rcases h with h | h
        · exact (Bool.and_eq_true_iff.mp h).2
        · exact (Bool.and_eq_true_iff.mp h).2
      refine vectorRowsAll_iff.mpr fun e he => ih e he ?_
      exact .inl (areNormal_iff.mp hitems e he)
  | matrix line rows ih =>
      have hrows := areRows_iff.mp (h.resolve_right nofun)
      refine vectorRows_matrix.mpr
        ⟨fun e he => ?_, fun e he => ih e he (.inr (hrows e he))⟩
      have hrow := hrows e he
      cases e with
      | vector => rfl
      | _ => cases hrow
  | neg line e ih | transpose line e ih => exact ih (.inl (h.resolve_right nofun))

namespace Stmt

/-- All rows in the expressions of a statement and of the statements in it are
vector literals. -/
def VectorRows (s : Stmt) : Prop :=
  ∀ part ∈ s.parts, ∀ e ∈ part.exprs, e.vectorRows = true

theorem vectorRows_of_isNormalTest {row : List Expr → Bool} {e : Expr}
    (h : isNormalTest row e = true) : e.vectorRows = true := by
  cases e with
  | compare line op l r =>
      obtain ⟨hl, hr⟩ := Bool.and_eq_true_iff.mp h
      simp only [Expr.vectorRows, Expr.vectorRows_of_isNormal (.inl hl),
        Expr.vectorRows_of_isNormal (.inl hr), Bool.and_self]
  | _ => cases h

theorem vectorRows_of_isNormal {row : List Expr → Bool} {s : Stmt}
    (h : s.isNormal row = true) : s.VectorRows := by
  have hvalue : ∀ {e : Expr}, e.isNormal row = true → e.vectorRows = true :=
    fun he => Expr.vectorRows_of_isNormal (.inl he)
  induction s with
  | block line body ih =>
      have hbody := areNormal_iff.mp h
      refine List.forall_mem_cons.mpr ⟨nofun, fun part hpart => ?_⟩
      obtain ⟨s, hs, hpart⟩ := mem_partsAll.mp hpart
      exact ih s hs (hbody s hs) part hpart
  | assign line op p e =>
      obtain ⟨-, he⟩ := Bool.and_eq_true_iff.mp h
      exact List.forall_mem_singleton.mpr (List.forall_mem_singleton.mpr (hvalue he))
  | branch line test yes no ihYes ihNo =>
      cases no with
      | none =>
          obtain ⟨htest, hyes⟩ := Bool.and_eq_true_iff.mp h
          exact List.forall_mem_cons.mpr
            ⟨List.forall_mem_singleton.mpr (vectorRows_of_isNormalTest htest),
              ihYes hyes⟩
      | some no =>
          obtain ⟨h, hno⟩ := Bool.and_eq_true_iff.mp h
          obtain ⟨htest, hyes⟩ :=
            Bool.and_eq_true_iff.mp (Bool.and_eq_true_iff.mp h).1
          exact List.forall_mem_cons.mpr
            ⟨List.forall_mem_singleton.mpr (vectorRows_of_isNormalTest htest),
              List.forall_mem_append.mpr ⟨ihYes hyes, ihNo no rfl hno⟩⟩
  | loop line test body ih =>
      obtain ⟨htest, hbody⟩ := Bool.and_eq_true_iff.mp h
      exact List.forall_mem_cons.mpr
        ⟨List.forall_mem_singleton.mpr (vectorRows_of_isNormalTest htest), ih hbody⟩
  | count line var range body ih =>
      obtain ⟨h, hbody⟩ := Bool.and_eq_true_iff.mp h
      obtain ⟨hstart, hstop⟩ := Bool.and_eq_true_iff.mp h
      refine List.forall_mem_cons.mpr ⟨?_, ih hbody⟩
      exact List.forall_mem_cons.mpr
        ⟨hvalue hstart, List.forall_mem_singleton.mpr (hvalue hstop)⟩
  | break_ | continue_ => exact List.forall_mem_singleton.mpr nofun
  | ret line e =>
      exact List.forall_mem_singleton.mpr (List.forall_mem_singleton.mpr (hvalue h))
  | print line values =>
      obtain ⟨-, hvalues⟩ := Bool.and_eq_true_iff.mp h
      exact List.forall_mem_singleton.mpr fun e he =>
        hvalue (Expr.areNormal_iff.mp hvalues e he)

end Stmt

/-! ## What is reported -/

theorem Ty.compound_besideRows {op : AssignOp} {t v : Ty} {p : Problem}
    (h : Ty.compound op t v = .error p) : p.besideRows = true := by
  unfold Ty.compound at h
  split at h
  · cases h
  · split at h
    · cases h
      rfl
    · exact applyRule_problem (P := (·.besideRows = true)) (fun _ _ h => h) h

section Reports

variable {symbols : Symbols} {inLoop : Bool}

theorem one_besideRows {p : Problem} (h : p.besideRows = true) (line : Nat) :
    Reports (·.besideRows = true) [p.onLine line] :=
  .one h line

theorem infer_besideRows {e : Expr} (h : e.vectorRows = true) :
    Reports (·.besideRows = true) (infer symbols e).reports :=
  infer_reports (fun _ _ h => h) (.inl h)

theorem checkVariable_besideRows (line : Nat) (op : AssignOp) (name : String)
    (value : Option Ty) :
    Reports (·.besideRows = true) (checkVariable symbols line op name value).reports := by
  unfold checkVariable
  split
  · exact .nil
  · split
    · exact one_besideRows rfl line
    · split
      · split
        · exact .nil
        · exact one_besideRows (Ty.compound_besideRows ‹_›) line
      · exact .nil

theorem checkAssign_besideRows (line : Nat) (op : AssignOp) (p : Place)
    (value : Option Ty) :
    Reports (·.besideRows = true) (checkAssign symbols line op p value).reports := by
  cases p with
  | var name => exact checkVariable_besideRows line op name value
  | item name i => exact placeType_reports (fun _ _ h => h) line (.item name i)
  | cell name i j => exact placeType_reports (fun _ _ h => h) line (.cell name i j)

theorem rangeReports_besideRows {r : Range} (hstart : r.start.vectorRows = true)
    (hstop : r.stop.vectorRows = true) :
    Reports (·.besideRows = true) (rangeReports symbols r) := by
  have hbound : ∀ line bound t, Reports (·.besideRows = true) (boundReport line bound t) := by
    intro line bound t
    unfold boundReport
    split
    · exact .ite .nil (one_besideRows rfl line)
    · exact .nil
  exact (((infer_besideRows hstart).append (infer_besideRows hstop)).append
    (hbound _ _ _)).append (hbound _ _ _)

theorem checkStmts_besideRows {body : List Stmt}
    (h : ∀ s ∈ body, ∀ symbols,
      Reports (·.besideRows = true) (checkStmt inLoop symbols s).reports)
    (symbols : Symbols) :
    Reports (·.besideRows = true) (checkStmts inLoop symbols body).reports := by
  induction body generalizing symbols with
  | nil => exact .nil
  | cons s rest ih =>
      obtain ⟨hs, hrest⟩ := List.forall_mem_cons.mp h
      exact (hs symbols).append (ih hrest _)

/-- No row is reported of a statement in which all rows are vector literals. -/
theorem checkStmt_besideRows {s : Stmt} (h : s.VectorRows) (inLoop : Bool)
    (symbols : Symbols) :
    Reports (·.besideRows = true) (checkStmt inLoop symbols s).reports := by
  have hself := h s s.self_mem_parts
  induction s generalizing inLoop symbols with
  | block line body ih =>
      refine checkStmts_besideRows (fun s hs symbols => ?_) symbols
      have hs' : s.VectorRows := fun part hpart => h part (Stmt.mem_parts_block hs hpart)
      exact ih s hs hs' inLoop symbols (hs' s s.self_mem_parts)
  | assign line op p e =>
      exact (infer_besideRows (hself _ List.mem_cons_self)).append
        (checkAssign_besideRows line op p _)
  | branch line test yes no ihYes ihNo =>
      have htest : Reports (·.besideRows = true) (infer symbols test).reports :=
        infer_besideRows (hself _ List.mem_cons_self)
      have hyes : yes.VectorRows := fun part hpart => h part (Stmt.mem_parts_yes hpart)
      have hthen := ihYes hyes inLoop symbols (hyes yes yes.self_mem_parts)
      cases no with
      | none => exact htest.append hthen
      | some no =>
          have hno : no.VectorRows := fun part hpart => h part (Stmt.mem_parts_no hpart)
          exact (htest.append hthen).append
            (ihNo no rfl hno inLoop _ (hno no no.self_mem_parts))
  | loop line test body ih =>
      have hbody : body.VectorRows := fun part hpart =>
        h part (List.mem_cons_of_mem _ hpart)
      exact (infer_besideRows (hself _ List.mem_cons_self)).append
        (ih hbody true symbols (hbody body body.self_mem_parts))
  | count line var range body ih =>
      have hbody : body.VectorRows := fun part hpart =>
        h part (List.mem_cons_of_mem _ hpart)
      obtain ⟨hstart, hstop⟩ := List.forall_mem_cons.mp hself
      exact (rangeReports_besideRows hstart (hstop _ List.mem_cons_self)).append
        (ih hbody true _ (hbody body body.self_mem_parts))
  | break_ line | continue_ line => exact .ite .nil (one_besideRows rfl line)
  | ret line e => exact infer_besideRows (hself _ List.mem_cons_self)
  | print line values => exact .flatMap fun e he => infer_besideRows (hself e he)

end Reports

/-- The report of a row can be told from every other report. -/
theorem Problem.onLine_ne_rowNotVector {p : Problem} (h : p.besideRows = true)
    (line i l : Nat) : p.onLine line ≠ (Problem.rowNotVector i).onLine l := by
  intro heq
  have hcode : p.code = .malformedMatrix := congrArg Diagnostic.code heq
  have hmessage : p.message = (Problem.rowNotVector i).message :=
    congrArg Diagnostic.message heq
  cases p with
  | raggedRows lengths =>
      -- the messages part behind the word "row", which is a plural in one of them
      have htexts : "Matrix rows have different sizes: \x7b"
            ++ ", ".intercalate (lengths.map toString) ++ "\x7d"
          = "Matrix row " ++ toString i ++ " is not a vector" := hmessage
      have hchar := congrArg (fun text : String => text.toList[10]?) htexts
      simp at hchar
  | rowNotVector => cases h
  | _ => cases hcode

/-! ## What goes wrong in a run -/

/-- A fault of a tensor other than that a row is no vector. -/
def TensorFault.BesideRows : TensorFault → Prop
  | .rowNotVector _ => False
  | _ => True

/-- A fault other than that a row is no vector. -/
def Fault.BesideRows : Fault → Prop
  | .nonVectorRow _ => False
  | .tensor fault => fault.BesideRows
  | _ => True

theorem Fault.besideRows_of_scalar (f : Fault) (h : f.Scalar) : f.BesideRows := by
  cases f with
  | divisionByZero | integerOverflow => trivial
  | _ => cases h

namespace Settles

/-- The faults of a tensor, as faults of a value. -/
theorem lift {α : Type} {P : α → Prop} {x : Except TensorFault α}
    (h : Settles TensorFault.BesideRows P x) :
    Settles Fault.BesideRows P (TensorFault.lift x) := by
  cases x <;> exact h

end Settles

namespace Tensor

theorem resolve_besideRows (i : Int64) (axis size : Nat) :
    Settles TensorFault.BesideRows (fun _ => True) (resolve i axis size) := by
  unfold resolve
  simp only
  split <;> split <;> trivial

theorem get_besideRows (a : Tensor) (i : Int64) :
    Settles TensorFault.BesideRows (fun _ => True) (a.get i) := by
  unfold get
  split <;> exact (resolve_besideRows i _ _).bind fun _ _ => trivial

theorem offset_besideRows (a : Tensor) (i j : Int64) :
    Settles TensorFault.BesideRows (fun _ => True) (a.offset i j) := by
  unfold offset
  split
  · trivial
  · exact (resolve_besideRows i _ _).bind fun _ _ =>
      (resolve_besideRows j _ _).bind fun _ _ => trivial

theorem get₂_besideRows (a : Tensor) (i j : Int64) :
    Settles TensorFault.BesideRows (fun _ => True) (a.get₂ i j) :=
  (offset_besideRows a i j).bind fun _ _ => trivial

theorem set_besideRows (a : Tensor) (i : Int64) (x : Number) :
    Settles TensorFault.BesideRows (fun _ => True) (a.set i x) := by
  unfold set
  simp only
  split <;> exact (resolve_besideRows i _ _).bind fun _ _ => trivial

theorem setRow_besideRows (a : Tensor) (i : Int64) (row : Tensor) :
    Settles TensorFault.BesideRows (fun _ => True) (a.setRow i row) := by
  unfold setRow
  split
  · trivial
  · split
    · exact (resolve_besideRows i _ _).bind fun _ _ => trivial
    · trivial

theorem set₂_besideRows (a : Tensor) (i j : Int64) (x : Number) :
    Settles TensorFault.BesideRows (fun _ => True) (a.set₂ i j x) :=
  (offset_besideRows a i j).bind fun _ _ => trivial

theorem entrywise_besideRows (op : Arithmetic) (a b : Tensor) :
    Settles TensorFault.BesideRows (fun _ => True) (entrywise op a b) := by
  unfold entrywise
  split <;> trivial

theorem product_besideRows (a b : Tensor) :
    Settles TensorFault.BesideRows (fun _ => True) (a.product b) := by
  unfold product
  split
  · split <;> trivial
  · trivial

/-- Vectors can be put together unless their lengths differ. -/
theorem ofRows_besideRows {rows : List Tensor}
    (h : ∀ a ∈ rows, ∃ n, a.shape = .vector n) :
    Settles TensorFault.BesideRows (fun _ => True) (ofRows rows) := by
  obtain ⟨lengths, hshapes⟩ : ∃ lengths : List Nat, rows.map shape = lengths.map .vector := by
    induction rows with
    | nil => exact ⟨[], rfl⟩
    | cons a rest ih =>
        obtain ⟨⟨n, ha⟩, hrest⟩ := List.forall_mem_cons.mp h
        obtain ⟨lengths, hlengths⟩ := ih hrest
        exact ⟨n :: lengths, by rw [List.map_cons, ha, hlengths, List.map_cons]⟩
  have hlengths := mapM_vectorLength.mpr hshapes
  simp only [ofRows, hlengths, ok_bind]
  split <;> trivial

end Tensor

/-! ### Values and places -/

theorem Value.binary_besideRows (op : BinaryOp) (v w : Value) :
    Settles Fault.BesideRows (fun _ => True) (Value.binary op v w) := by
  unfold Value.binary
  split
  · exact (op.onInts_settles _ _).imp Fault.besideRows_of_scalar
      fun _ _ => trivial
  · refine Settles.bind (P := fun _ => True) (Settles.lift ?_) fun _ _ => trivial
    unfold BinaryOp.onTensors
    split
    · exact Tensor.product_besideRows _ _
    · exact Tensor.entrywise_besideRows _ _ _
  · split
    · exact (op.onFloats_settles _ _).imp Fault.besideRows_of_scalar
        fun _ _ => trivial
    · trivial

theorem Value.compare_besideRows (op : Relation) (v w : Value) :
    Settles Fault.BesideRows (fun _ => True) (Value.compare op v w) := by
  unfold Value.compare
  split
  · trivial
  · split <;> trivial

theorem Value.neg_besideRows (v : Value) :
    Settles Fault.BesideRows (fun _ => True) v.neg := by
  cases v with
  | int n =>
      exact (fitting_settles _ _).imp Fault.besideRows_of_scalar fun _ _ => trivial
  | _ => trivial

theorem Value.transpose_besideRows (v : Value) :
    Settles Fault.BesideRows (fun _ => True) v.transpose := by
  cases v <;> trivial

theorem Value.truth_besideRows (v : Value) :
    Settles Fault.BesideRows (fun _ => True) v.truth := by
  cases v <;> trivial

theorem Value.bounds_besideRows (v w : Value) :
    Settles Fault.BesideRows (fun _ => True) (Value.bounds v w) := by
  have hbound : ∀ v : Value, Settles Fault.BesideRows (fun _ => True) v.bound := by
    intro v
    cases v <;> trivial
  exact (hbound v).bind fun _ _ => (hbound w).bind fun _ _ => trivial

theorem constructValue_besideRows (f : Constructor) (dims : Dims) :
    Settles Fault.BesideRows (fun _ => True) (constructValue f dims) := by
  unfold constructValue
  simp only
  split
  · trivial
  · refine Settles.bind (P := fun _ => True) (Settles.lift ?_) fun _ _ => trivial
    unfold Tensor.checkedSize
    split <;> trivial

namespace Memory

theorem indexed_besideRows (m : Memory) (name : String) :
    Settles Fault.BesideRows (fun _ => True) (m.indexed name) := by
  unfold indexed
  split <;> trivial

theorem read_besideRows (m : Memory) (p : Place) :
    Settles Fault.BesideRows (fun _ => True) (m.read p) := by
  cases p with
  | var name => trivial
  | item name i =>
      refine (indexed_besideRows m name).bind fun a _ => ?_
      refine (Tensor.get_besideRows a i).lift.bind fun item _ => ?_
      cases item <;> trivial
  | cell name i j =>
      refine (indexed_besideRows m name).bind fun a _ => ?_
      exact (Tensor.get₂_besideRows a i j).lift.bind fun _ _ => trivial

theorem element_besideRows (v : Value) :
    Settles Fault.BesideRows (fun _ => True) (element v) := by
  unfold element
  split <;> trivial

theorem update_besideRows (m : Memory) (name : String)
    {change : Tensor → Except Fault Tensor}
    (h : ∀ a, Settles Fault.BesideRows (fun _ => True) (change a)) :
    Settles Fault.BesideRows (fun _ => True) (m.update name change) := by
  unfold update
  split
  · exact (h _).bind fun _ _ => trivial
  · trivial
  · trivial

theorem write_besideRows (m : Memory) (op : AssignOp) (p : Place) (v : Value) :
    Settles Fault.BesideRows (fun _ => True) (m.write op p v) := by
  cases p with
  | var name =>
      refine Settles.bind (P := fun _ => True) ?_ fun _ _ => trivial
      unfold combined
      split
      · trivial
      · split
        · trivial
        · exact Value.binary_besideRows _ _ _
  | item name i =>
      refine update_besideRows m name fun a => ?_
      unfold storeItem
      split
      · exact (Tensor.setRow_besideRows a i _).lift
      · exact (element_besideRows v).bind fun n _ => (Tensor.set_besideRows a i n).lift
  | cell name i j =>
      refine update_besideRows m name fun a => ?_
      exact (element_besideRows v).bind fun n _ => (Tensor.set₂_besideRows a i j n).lift

end Memory

/-! ### Expressions and statements -/

section Run

variable {m : Memory}

/-- A fault that is none of rows, or a crash. -/
def Halt.BesideRows : Halt RunError → Prop :=
  Halt.Permitted (fun e => e.fault.BesideRows) True

/-- A vector literal gives a vector, and the others give something. -/
def Expr.GivesRow (e : Expr) (v : Value) : Prop :=
  e.isVector = true → ∃ a n, v = .tensor a ∧ a.shape = .vector n

theorem evaluateItems_besideRows {items : List Expr}
    (h : ∀ e ∈ items, Settles Halt.BesideRows e.GivesRow (evaluate m e)) :
    Settles Halt.BesideRows (fun _ => True)
      (evaluateItems m items) := by
  have hnumber : ∀ v, Settles Fault.BesideRows (fun _ => True) (itemNumber v) := by
    intro v
    unfold itemNumber
    split <;> trivial
  rw [evaluateItems_eq_mapM]
  refine (Settles.mapM (P := fun _ => True) fun e he => ?_).mono fun _ _ => trivial
  exact (h e he).bind fun v _ => (hnumber v).onLine e.line

/-- Vector literals give vectors, so that none of them is reproached. -/
theorem evaluateRows_besideRows {rows : List Expr}
    (h : ∀ e ∈ rows, Settles Halt.BesideRows e.GivesRow (evaluate m e))
    (hrows : ∀ e ∈ rows, e.isVector = true) :
    Settles Halt.BesideRows
      (fun as => ∀ a ∈ as, ∃ n, a.shape = .vector n) (evaluateRows m rows) := by
  rw [evaluateRows_eq_mapM]
  refine (Settles.mapM fun e he => ?_).mono fun as has => has.2
  refine (h e he).bind fun v hv => ?_
  obtain ⟨a, n, rfl, ha⟩ := hv (hrows e he)
  exact ⟨n, ha⟩

theorem evaluate_besideRows {e : Expr} (hrows : e.vectorRows = true) :
    Settles Halt.BesideRows e.GivesRow (evaluate m e) := by
  induction e with
  | int | float | str => exact nofun
  | read line p =>
      exact ((Memory.read_besideRows m p).onLine line).mono fun _ _ => nofun
  | binary line op l r ihl ihr =>
      obtain ⟨hl, hr⟩ := Bool.and_eq_true_iff.mp hrows
      refine (ihl hl).bind fun v _ => (ihr hr).bind fun w _ => ?_
      exact ((Value.binary_besideRows op v w).operate line).mono fun _ _ => nofun
  | compare line op l r ihl ihr =>
      obtain ⟨hl, hr⟩ := Bool.and_eq_true_iff.mp hrows
      refine (ihl hl).bind fun v _ => (ihr hr).bind fun w _ => ?_
      exact ((Value.compare_besideRows op v w).onLine line).mono fun _ _ => nofun
  | vector line items ih =>
      have hitems := Expr.vectorRowsAll_iff.mp hrows
      refine (evaluateItems_besideRows fun e he => ih e he (hitems e he)).bind ?_
      intro ns _ _
      exact ⟨_, _, rfl, rfl⟩
  | matrix line rows ih =>
      obtain ⟨hvectors, hrows⟩ := Expr.vectorRows_matrix.mp hrows
      refine (evaluateRows_besideRows (fun e he => ih e he (hrows e he)) hvectors).bind ?_
      intro as has
      exact ((Tensor.ofRows_besideRows has).lift.onLine line).bind fun _ _ => nofun
  | construct line f dims =>
      exact ((constructValue_besideRows f dims).onLine line).bind fun _ _ => nofun
  | neg line e ih =>
      refine (ih hrows).bind fun v _ => ?_
      exact ((Value.neg_besideRows v).onLine line).mono fun _ _ => nofun
  | transpose line e ih =>
      refine (ih hrows).bind fun v _ => ?_
      exact ((Value.transpose_besideRows v).onLine line).mono fun _ _ => nofun

theorem Stmt.keeps_besideRows {stmt : Stmt} (h : ∀ e ∈ stmt.exprs, e.vectorRows = true) :
    stmt.Keeps (fun _ => True) (fun _ _ => Halt.BesideRows) := by
  intro s _
  cases stmt with
  | assign line op p e =>
      refine (evaluate_besideRows (h e List.mem_cons_self)).bind fun v _ => ?_
      exact ((Memory.write_besideRows s.memory op p v).onLine line).bind fun _ _ => trivial
  | print line values =>
      have hvalue : ∀ e ∈ values, Settles Halt.BesideRows
          (fun _ => True) (evaluate s.memory e) := fun e he =>
        (evaluate_besideRows (h e he)).mono fun _ _ => trivial
      have hline : Settles Halt.BesideRows
          (fun _ => True) (printed s.memory values) :=
        (Settles.mapM hvalue).bind fun _ _ => trivial
      exact hline.bind fun _ _ => trivial
  | ret line e =>
      exact (evaluate_besideRows (h e List.mem_cons_self)).mono fun _ _ => trivial
  | branch line test yes no =>
      refine (evaluate_besideRows (h test List.mem_cons_self)).bind fun v _ => ?_
      exact (Value.truth_besideRows v).onLine test.line
  | loop line test body =>
      refine (evaluate_besideRows (h test List.mem_cons_self)).bind fun v _ => ?_
      exact (Value.truth_besideRows v).onLine test.line
  | count line var range body =>
      refine ⟨?_, fun _ => trivial⟩
      obtain ⟨hstart, hstop⟩ := List.forall_mem_cons.mp h
      refine (evaluate_besideRows hstart).bind fun v _ => ?_
      refine (evaluate_besideRows (hstop _ List.mem_cons_self)).bind fun w _ => ?_
      exact (Value.bounds_besideRows v w).onLine range.line
  | block | break_ | continue_ => trivial

end Run

/-- No run of statements in which all rows are vector literals faults at a row. -/
theorem runFrom_besideRows {p : Program} (h : ∀ s ∈ p, s.VectorRows) {budget : Nat}
    {m : Memory} {e : RunError} {s : State} (hrun : runFrom budget m p = .halted (.fault e) s) :
    e.fault.BesideRows := by
  have hkeeps : ∀ part ∈ (Stmt.block 0 p).parts,
      part.Keeps (fun _ => True) (fun _ _ => Halt.BesideRows) := by
    intro part hpart
    rcases List.mem_cons.mp hpart with rfl | hpart
    · exact fun _ _ => trivial
    · obtain ⟨s, hs, hpart⟩ := Stmt.mem_partsAll.mp hpart
      exact Stmt.keeps_besideRows (h s hs part hpart)
  have hsafe := execute_safe budget hkeeps (s := ⟨m, .empty⟩) trivial
  have hexec : execute budget (.block 0 p) ⟨m, .empty⟩ = .halted (.fault e) s := by
    simp only [execute]
    exact hrun
  rw [hexec] at hsafe
  obtain ⟨-, culprit, -, -, hfault⟩ := hsafe
  exact hfault

/-! ## What was read -/

/-- **What can be read.** From tokens without negative integers only trees in
normal form are made, with the lines and signs that they have in a text, and the
statements before a mistake are such trees too. Nothing is reported of the rows of
their matrix literals, whatever the symbols are, and no run of them faults at one,
whatever the memory is. The tokens of a text have no negative integers. -/
theorem parse_produced {ts : List Token} (h : Reader.Unsigned ts) :
    (∀ s ∈ (parse ts).program, s.Produced)
      ∧ (∀ symbols i line, (Problem.rowNotVector i).onLine line
          ∉ (checkFrom symbols (parse ts).program).reports)
      ∧ (∀ budget m e s, runFrom budget m (parse ts).program = .halted (.fault e) s →
          (∀ kind, e.fault ≠ .nonVectorRow kind)
            ∧ ∀ shape, e.fault ≠ .tensor (.rowNotVector shape))
      ∧ ∀ source, Reader.Unsigned (scan source).tokens := by
  have hproduced := parse_unsigned h
  have hrows : ∀ s ∈ (parse ts).program, s.VectorRows := fun s hs =>
    Stmt.vectorRows_of_isNormal (hproduced s hs).normal
  refine ⟨hproduced, fun symbols i line hmem => ?_, fun budget m e s hrun => ?_,
    scan_unsigned⟩
  · have hreports : Reports (·.besideRows = true)
        (checkFrom symbols (parse ts).program).reports :=
      checkStmts_besideRows
        (fun s hs symbols => checkStmt_besideRows (hrows s hs) false symbols) symbols
    obtain ⟨p, l, hp, heq⟩ := hreports _ hmem
    exact Problem.onLine_ne_rowNotVector hp l i line heq.symm
  · have hfault := runFrom_besideRows hrows hrun
    constructor
    · rintro kind heq
      rw [heq] at hfault
      exact hfault
    · rintro shape heq
      rw [heq] at hfault
      exact hfault

/-- `y = [[2], []]; if`, which ends too early. -/
def stoppedTokens : List Token :=
  [.ident "y", .symbol .assign, .symbol .lbracket, .symbol .lbracket, .int 2,
    .symbol .rbracket, .symbol .comma, .symbol .lbracket, .symbol .rbracket,
    .symbol .rbracket, .symbol .semicolon, .word .if_, .eof].map (⟨·, 1⟩)

/-- The assignment before the mistake is kept. -/
theorem parse_produced_stopped :
    Reader.Unsigned stoppedTokens ∧ (parse stoppedTokens).errors.length = 1
      ∧ (parse stoppedTokens).program.length = 1
      ∧ ∀ s ∈ (parse stoppedTokens).program, s.Produced := by
  have hunsigned : Reader.Unsigned stoppedTokens := by
    simp [Reader.Unsigned, stoppedTokens]
  exact ⟨hunsigned, by decide, by decide, (parse_produced hunsigned).1⟩

end MatrixLang
