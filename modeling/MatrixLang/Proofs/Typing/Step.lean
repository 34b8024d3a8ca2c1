import MatrixLang.Proofs.Run.Crashes
import MatrixLang.Proofs.Scopes
import MatrixLang.Proofs.Typing.Evaluate

/-!
# Single steps of checked statements

An assignment on which nothing is reported leaves its variable with a value of
the type that the checker records for it (`assign_settles`), and the other steps
of a run cannot fail but in the expressions they evaluate. The one thing that
the checker does not look at is what is stored into an element, so assignments
to elements have three faults of their own (`Stmt.Permits`). Nor does it look at how
much room there is: besides a permitted fault, a checked statement may have a product
for which there is none (`Stmt.MayHalt`).
-/

namespace MatrixLang

/-! ## Permitted faults -/

def Stmt.AssignsElement : Stmt → Prop
  | .assign _ _ (.item _ _) _ | .assign _ _ (.cell _ _ _) _ => True
  | _ => False

/-- The faults that a checked statement may have. -/
def Stmt.Permits (stmt : Stmt) : Fault → Prop
  | .invalidElement _ | .tensor .sequenceIntoElement | .tensor (.rowLength _ _) =>
      stmt.AssignsElement
  | fault => fault.Arithmetic

theorem Stmt.permits_of_arithmetic {stmt : Stmt} {fault : Fault}
    (h : fault.Arithmetic) :
    stmt.Permits fault := by
  unfold Permits
  split
  · cases h
  · cases h
  · cases h
  · exact h

/-- What may halt a checked statement: a permitted fault, and a crash if it comes to a
product for which there is no room. -/
def Stmt.MayHalt (stmt : Stmt) (s : State) : Halt RunError → Prop :=
  Halt.Permitted (fun e => stmt.Permits e.fault) (stmt.Crowded s.memory)

/-- Less is permitted to the expressions of a statement than to the statement. -/
theorem Settles.permits {α : Type} {stmt : Stmt} {P : α → Prop}
    {x : Except (Halt RunError) α} (h : Settles Halt.Arithmetic P x) :
    Settles (Halt.Permitted (fun e => stmt.Permits e.fault) True) P x := by
  refine h.imp (fun halt hhalt => ?_) fun _ ha => ha
  cases halt with
  | fault e => exact Stmt.permits_of_arithmetic hhalt
  | crash c => trivial

variable {p : Precision} {m : Memory} {symbols : Symbols} {inLoop : Bool}

/-! ## Variables -/

/-- An assignment to a variable on which nothing is reported records a type, and
the value that the variable gets fits it. -/
theorem Memory.combined_settles {line : Nat} {op : AssignOp} {name : String}
    {u : Ty} (hagree : m.Agrees p symbols name)
    (hclean : (checkVariable symbols line op name (some u)).reports = []) :
    ∃ r, (checkVariable symbols line op name (some u)).symbols
        = symbols.define name (some r)
      ∧ ∀ v : Value, v.Fits p u →
        Settles Fault.Arithmetic (Value.Fits p · r) (m.combined op name v) := by
  by_cases hop : op = .set
  · subst hop
    exact ⟨u, rfl, fun v hv => hv⟩
  obtain ⟨base, hbase⟩ : ∃ base, op.base? = some base := by
    cases op with
    | set => exact absurd rfl hop
    | add | sub | mul | div => exact ⟨_, rfl⟩
  simp only [checkVariable, if_neg hop] at hclean ⊢
  cases hs : symbols.get? name with
  | none => simp only [hs] at hclean; cases hclean
  | some target =>
      obtain ⟨t, w, rfl, hw, hfit⟩ := hagree target hs
      simp only [hs] at hclean ⊢
      cases hc : Ty.compound op t u with
      | error problem => simp only [hc] at hclean; cases hclean
      | ok r =>
          refine ⟨r, rfl, fun v hv => ?_⟩
          simp only [Memory.combined, hbase, hw]
          exact hfit.compound hbase hv hc

/-! ## Elements -/

theorem storeItem_settles {stmt : Stmt} (hstmt : stmt.AssignsElement)
    {line : Nat} {name : String} {i : Int64} {t : Ty} {a : Tensor}
    (hfit : (Value.tensor a).Fits p t)
    (hclean : (itemType line name i t).reports = []) (v : Value) :
    Settles stmt.Permits (fun b => b.shape = a.shape) (Memory.storeItem i v a) := by
  have hset : ∀ n, ∃ b, a.set i n = .ok b ∧ b.shape = a.shape := by
    intro n
    cases hfit with
    | vector ha | matrix ha =>
        have hin := boundsReport_eq_nil.mp hclean
        simp only [Tensor.set, ha, resolve_of_bounds 0 hin, ok_bind]
        exact ⟨_, rfl, ha⟩
  have hrow : ∀ row, Settles stmt.Permits (fun b => b.shape = a.shape)
      (TensorFault.lift (a.setRow i row)) := by
    intro row
    cases hfit with
    | vector ha => simp only [Tensor.setRow, ha]; exact hstmt
    | matrix ha =>
        have hin := boundsReport_eq_nil.mp hclean
        simp only [Tensor.setRow, ha, resolve_of_bounds 0 hin, ok_bind]
        split
        · exact ha
        · exact hstmt
  cases v with
  | tensor row => exact hrow row
  | int n =>
      obtain ⟨b, hb, hshape⟩ := hset (.int n)
      simp only [Memory.storeItem, Memory.element, Value.number?, ok_bind, hb]
      exact hshape
  | float x =>
      obtain ⟨b, hb, hshape⟩ := hset (.float x)
      simp only [Memory.storeItem, Memory.element, Value.number?, ok_bind, hb]
      exact hshape
  | str s | null => exact hstmt

theorem storeCell_settles {stmt : Stmt} (hstmt : stmt.AssignsElement)
    {line : Nat} {name : String} {i j : Int64} {t : Ty} {a : Tensor}
    (hfit : (Value.tensor a).Fits p t)
    (hclean : (cellType line name i j t).reports = []) (v : Value) :
    Settles stmt.Permits (fun b => b.shape = a.shape)
      (Memory.storeCell i j v a) := by
  cases hfit with
  | vector ha => cases hclean
  | matrix ha =>
      obtain ⟨hrow, hcol⟩ := List.append_eq_nil_iff.mp hclean
      have hi := resolve_of_bounds 0 (boundsReport_eq_nil.mp hrow)
      have hj := resolve_of_bounds 1 (boundsReport_eq_nil.mp hcol)
      cases v with
      | int n | float x =>
          simp only [Memory.storeCell, Memory.element, Value.number?, ok_bind,
            Tensor.set₂, Tensor.offset, ha, hi, hj]
          exact ha
      | tensor row | str s | null => exact hstmt

/-- A variable that holds a tensor still holds one of its type afterwards. -/
theorem Memory.update_settles {F : Fault → Prop} {name : String} {t : Ty}
    {v : Value} {change : Tensor → Except Fault Tensor}
    (hv : m.get? name = some v) (hfit : v.Fits p t)
    (hshape : t.shape.isSome = true)
    (hchange : ∀ a, v = .tensor a →
      Settles F (fun b => b.shape = a.shape) (change a)) :
    Settles F (fun m' => ∃ w, m' = m.assign name w ∧ w.Fits p t)
      (m.update name change) := by
  cases hfit with
  | int | rounded | whole | float | str => cases hshape
  | vector ha =>
      simp only [Memory.update, hv]
      exact (hchange _ rfl).bind fun b hb => ⟨_, rfl, .vector (hb.trans ha)⟩
  | matrix ha =>
      simp only [Memory.update, hv]
      exact (hchange _ rfl).bind fun b hb => ⟨_, rfl, .matrix (hb.trans ha)⟩

/-! ## Assignments -/

/-- What an assignment changes in the symbols is its own name. -/
theorem checkAssign_get?_ne {line : Nat} {op : AssignOp} {place : Place}
    {value : Option Ty} {x : String} (hx : place.name ≠ x) :
    (checkAssign symbols line op place value).symbols.get? x
      = symbols.get? x := by
  cases place with
  | item name i | cell name i j => rfl
  | var name =>
      have hdefine : ∀ ty, (symbols.define name ty).get? x = symbols.get? x := by
        intro ty
        rw [Scopes.get?_define]
        exact if_neg hx
      simp only [checkAssign, checkVariable]
      split
      · exact hdefine _
      · split
        · rfl
        · split
          · split
            · exact hdefine _
            · rfl
          · rfl

/-- An element that is written belongs to a variable whose recorded type stays. -/
theorem Memory.write_element {line : Nat} {op : AssignOp} {place : Place}
    {e : Expr} (helem : (Stmt.assign line op place e).AssignsElement)
    (hagree : m.Agrees p symbols place.name)
    (hclean : (placeType symbols line place).reports = []) :
    ∃ r, symbols.get? place.name = some (some r) ∧ ∀ v : Value,
      Settles (Stmt.assign line op place e).Permits
        (fun m' => ∃ w, m' = m.assign place.name w ∧ w.Fits p r)
        (m.write op place v) := by
  obtain ⟨t, w, hs, hw, hfit⟩ := hagree.place hclean
  refine ⟨t, hs, fun v => ?_⟩
  simp only [placeType, hs] at hclean
  have hshape : (∀ name, place ≠ .var name) → t.shape.isSome = true := by
    intro hne
    cases hfit with
    | vector | matrix => rfl
    | int | rounded | whole | float | str =>
        cases place with
        | var name => exact absurd rfl (hne name)
        | item | cell => cases hclean
  cases place with
  | var name => cases helem
  | item name i =>
      have harray : t.shape.isSome = true := hshape fun _ h => by cases h
      refine Memory.update_settles hw hfit harray fun a ha => ?_
      exact storeItem_settles helem (ha ▸ hfit) hclean v
  | cell name i j =>
      have harray : t.shape.isSome = true := hshape fun _ h => by cases h
      refine Memory.update_settles hw hfit harray fun a ha => ?_
      exact storeCell_settles helem (ha ▸ hfit) hclean v

theorem Memory.write_settles {line : Nat} {op : AssignOp} {place : Place}
    {e : Expr} {u : Ty} (hagree : m.Agrees p symbols place.name)
    (hclean : (checkAssign symbols line op place (some u)).reports = []) :
    ∃ r, (checkAssign symbols line op place (some u)).symbols.get? place.name
        = some (some r)
      ∧ ∀ v : Value, v.Fits p u →
        Settles (Stmt.assign line op place e).Permits
          (fun m' => ∃ w, m' = m.assign place.name w ∧ w.Fits p r)
          (m.write op place v) := by
  cases place with
  | var name =>
      have hname : m.Agrees p symbols name := hagree
      obtain ⟨r, hr, hval⟩ := Memory.combined_settles hname hclean
      refine ⟨r, ?_, fun v hv => ?_⟩
      · simp only [checkAssign, hr]
        exact Scopes.get?_define_self symbols name (some r)
      · refine Settles.bind (P := fun w => w.Fits p r) ?_ fun w hw => ⟨w, rfl, hw⟩
        cases hcomb : m.combined op name v with
        | ok w => exact (hval v hv).gives hcomb
        | error fault =>
            exact Stmt.permits_of_arithmetic ((hval v hv).fails hcomb)
  | item name i =>
      have helem : (Stmt.assign line op (.item name i) e).AssignsElement :=
        trivial
      obtain ⟨r, hr, hval⟩ := Memory.write_element helem hagree hclean
      exact ⟨r, hr, fun v _ => hval v⟩
  | cell name i j =>
      have helem : (Stmt.assign line op (.cell name i j) e).AssignsElement :=
        trivial
      obtain ⟨r, hr, hval⟩ := Memory.write_element helem hagree hclean
      exact ⟨r, hr, fun v _ => hval v⟩

/-- After an assignment on which nothing is reported, the variable has a value of
the type that is recorded for it. -/
theorem assign_settles {line : Nat} {op : AssignOp} {place : Place} {e : Expr}
    {s : State}
    (hagree : ∀ x ∈ place.name :: e.names, s.memory.Agrees p symbols x)
    (hclean : (checkStmt inLoop symbols (.assign line op place e)).reports = []) :
    ∃ r, (checkStmt inLoop symbols (.assign line op place e)).symbols.get?
        place.name = some (some r)
      ∧ Settles
          (Halt.Permitted (fun err => (Stmt.assign line op place e).Permits err.fault) True)
          (fun t => ∃ w, t = { s with memory := s.memory.assign place.name w }
            ∧ w.Fits p r)
          (MatrixLang.assign line op place e s) := by
  obtain ⟨hplace, hnames⟩ := List.forall_mem_cons.mp hagree
  simp only [checkStmt, Checked.andThen, List.append_eq_nil_iff] at hclean ⊢
  obtain ⟨hvalue, htarget⟩ := hclean
  obtain ⟨u, hu, -, heval⟩ := Expr.evaluates hnames hvalue
  rw [hu] at htarget ⊢
  -- the value is there, so what is left is to write it
  obtain ⟨r, hr, hwrite⟩ := Memory.write_settles (e := e) hplace htarget
  refine ⟨r, hr, heval.permits.bind fun v hv => ?_⟩
  refine ((hwrite v hv).onLine line).bind ?_
  rintro m' ⟨w, rfl, hw⟩
  exact ⟨w, rfl, hw⟩

/-! ## The other steps -/

/-- Printing only leaves a line behind. -/
theorem print_settles {values : List Expr} {s : State}
    (h : ∀ e ∈ values, e.Evaluates p s.memory symbols) :
    Settles Halt.Arithmetic (fun t => t.memory = s.memory)
      (print values s) := by
  have hvalues : Settles Halt.Arithmetic (fun _ => True)
      (values.mapM (evaluate s.memory)) := by
    refine (Settles.mapM (P := fun _ => True) fun e he => ?_).mono fun _ _ => trivial
    obtain ⟨t, -, -, heval⟩ := h e he
    exact heval.mono fun _ _ => trivial
  have hline : Settles Halt.Arithmetic (fun _ => True)
      (printed s.memory values) := hvalues.bind fun vs _ => trivial
  exact hline.bind fun line _ => rfl

/-- A comparison tells whether it holds. -/
theorem holds_settles {line : Nat} {op : Relation} {l r : Expr}
    (h : (Expr.compare line op l r).Evaluates p m symbols) :
    Settles Halt.Arithmetic (fun _ => True)
      (holds m (.compare line op l r)) := by
  obtain ⟨t, ht, -, hval⟩ := h
  obtain rfl : Ty.int = t := Option.some.inj ht
  unfold holds
  refine hval.bind fun v hv => ?_
  cases hv with
  | int | rounded => trivial

theorem Value.Fits.bound {v : Value} {t : Ty} (h : v.Fits p t)
    (ht : t.kind.isNumeric = true) :
    ∃ n, v.bound = .ok n := by
  cases h with
  | int | whole | rounded | float => exact ⟨_, rfl⟩
  | str | vector | matrix => cases ht

theorem boundReport_eq_nil {line : Nat} {bound : RangeEnd} {t : Ty} :
    boundReport line bound (some t) = [] ↔ t.kind.isNumeric = true := by
  by_cases ht : t.kind.isNumeric <;> simp [boundReport, ht]

/-- The bounds of a `for` loop on which nothing is reported are numbers. -/
theorem evaluateRange_settles {range : Range}
    (hagree : ∀ x ∈ range.start.names ++ range.stop.names, m.Agrees p symbols x)
    (hclean : rangeReports symbols range = []) :
    Settles Halt.Arithmetic (fun _ => True) (evaluateRange m range) := by
  simp only [rangeReports, List.append_eq_nil_iff] at hclean
  obtain ⟨⟨⟨hstart, hstop⟩, hstartNum⟩, hstopNum⟩ := hclean
  obtain ⟨hstartNames, hstopNames⟩ := List.forall_mem_append.mp hagree
  obtain ⟨t, ht, -, hv⟩ := Expr.evaluates hstartNames hstart
  obtain ⟨u, hu, -, hw⟩ := Expr.evaluates hstopNames hstop
  rw [ht] at hstartNum
  rw [hu] at hstopNum
  unfold evaluateRange
  refine hv.bind fun v hv => hw.bind fun w hw => ?_
  obtain ⟨a, ha⟩ := hv.bound (boundReport_eq_nil.mp hstartNum)
  obtain ⟨b, hb⟩ := hw.bound (boundReport_eq_nil.mp hstopNum)
  simp only [Value.bounds, ha, hb, ok_bind]
  trivial

end MatrixLang
