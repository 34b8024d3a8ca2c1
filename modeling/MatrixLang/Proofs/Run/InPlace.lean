import MatrixLang.Proofs.Scopes
import MatrixLang.Proofs.Tensor.InPlace
import MatrixLang.Run.Execute

/-!
# Faults change nothing

An assignment, a `print` or a `return` that faults leaves the state as it was (and so
does one that crashes, though there is nobody to see it). In
`execute` there is nothing to see of it, since a step that faults makes no state. A
machine has one state, which it changes as it goes: `Stmt.inPlace?` tells its steps,
and after a fault the state is what was made of it until then.

An element is stored in a tensor where it is bound, so that even a write that fails
leaves a tensor there. Such a write is a transaction, and to leave the tensor that was
there is to assign a variable the value that it has, which changes no scope
(`Scopes.assign_self`). The other steps read before they write. So the steps of a
machine come to what `execute` comes to (`execute_inPlace`), faults included.
-/

namespace MatrixLang

/-! ## Elements -/

namespace Memory

def storeItemInPlace (i : Int64) (v : Value) : EStateM Fault Tensor Unit :=
  match v with
  | .tensor row => (Tensor.setRowInPlace i row).adaptExcept .tensor
  | v => do
      let n ← ofExcept (element v)
      (Tensor.setInPlace i n).adaptExcept .tensor

def storeCellInPlace (i j : Int64) (v : Value) : EStateM Fault Tensor Unit := do
  let n ← ofExcept (element v)
  (Tensor.set₂InPlace i j n).adaptExcept .tensor

theorem adaptExcept_transaction (change : Tensor → Except TensorFault Tensor) :
    (transaction change).adaptExcept Fault.tensor
      = transaction fun a => TensorFault.lift (change a) := by
  funext a
  simp only [EStateM.adaptExcept, transaction]
  cases change a <;> rfl

theorem ofExcept_bind_transaction {α : Type} (x : Except Fault α)
    (change : α → Tensor → Except Fault Tensor) :
    (ofExcept x >>= fun n => transaction (change n) : EStateM Fault Tensor Unit)
      = transaction fun a => x >>= fun n => change n a := by
  cases x <;> rfl

theorem storeItemInPlace_eq (i : Int64) (v : Value) :
    storeItemInPlace i v = transaction (storeItem i v) := by
  cases v <;>
    simp only [storeItemInPlace, Tensor.setRowInPlace_eq, Tensor.setInPlace_eq,
      adaptExcept_transaction, ofExcept_bind_transaction] <;>
    rfl

theorem storeCellInPlace_eq (i j : Int64) (v : Value) :
    storeCellInPlace i j v = transaction (storeCell i j v) := by
  simp only [storeCellInPlace, Tensor.set₂InPlace_eq, adaptExcept_transaction,
    ofExcept_bind_transaction]
  rfl

end Memory

/-! ## Steps -/

/-- A step of a machine that runs a program. -/
abbrev Running := EStateM (Halt RunError) State

def evaluating (e : Expr) : Running Value := do
  let s ← get
  ofExcept (evaluate s.memory e)

def binding (name : String) (v : Value) : Running Unit :=
  modify fun s => { s with memory := s.memory.assign name v }

/-- Changes the tensor that a variable is bound to. It is changed where it is, so that a
fault does not take back what was done to it before. -/
def changing (line : Nat) (name : String) (change : EStateM Fault Tensor Unit) :
    Running Unit := do
  let s ← get
  match s.memory.get? name with
  | some (.tensor a) =>
      match change.run a with
      | .ok _ b => binding name (.tensor b)
      | .error fault b => do
          binding name (.tensor b)
          throw (.fault ⟨fault, line⟩)
  | some v => throw (.fault ⟨.notIndexable name v.kind?, line⟩)
  | none => throw (.fault ⟨.undefinedVariable name, line⟩)

def assigning (line : Nat) (op : AssignOp) (p : Place) (e : Expr) : Running Unit := do
  let v ← evaluating e
  match p with
  | .var name => do
      let s ← get
      let v ← ofExcept (Fault.onLine line (s.memory.combined op name v))
      binding name v
  | .item name i => changing line name (Memory.storeItemInPlace i v)
  | .cell name i j => changing line name (Memory.storeCellInPlace i j v)

def writing (e : Expr) : Running String := do
  let v ← evaluating e
  return v.text

/-- The texts are there before the line is printed. -/
def printing (values : List Expr) : Running Unit := do
  let texts ← values.mapM writing
  modify fun s => { s with output := s.output.println (" ".intercalate texts) }

/-- The steps of a statement that has no statements in it and is no loop control. -/
def Stmt.inPlace? : Stmt → Option (Running Signal)
  | .assign line op p e => some do
      assigning line op p e
      return .normal
  | .print _ values => some do
      printing values
      return .normal
  | .ret _ e => some do
      let v ← evaluating e
      return .returned v
  | _ => none

def Outcome.ofRun : EStateM.Result (Halt RunError) State Signal → Outcome
  | .ok signal t => .done signal t
  | .error halt t => .halted halt t

/-! ## What the steps come to -/

section

variable {s : State} {line : Nat}

theorem run_evaluating (e : Expr) (s : State) :
    (evaluating e).run s = match evaluate s.memory e with
      | .ok v => .ok v s
      | .error err => .error err s := by
  simp only [evaluating, EStateM.run_bind, EStateM.run_get]
  cases evaluate s.memory e <;> rfl

/-- A change that is a transaction makes the step one. -/
theorem run_changing (name : String) (change : Tensor → Except Fault Tensor) :
    (changing line name (transaction change)).run s
      = (transaction fun s => do
          let m ← Fault.onLine line (s.memory.update name change)
          .ok { s with memory := m }).run s := by
  simp only [changing, EStateM.run_bind, EStateM.run_get]
  cases hname : s.memory.get? name with
  | none => simp only [run_transaction, Memory.update, hname]; rfl
  | some v =>
      cases v with
      | tensor a =>
          have hself : s.memory.assign name (.tensor a) = s.memory := Scopes.assign_self hname
          cases hchange : change a with
          | ok b => simp only [run_transaction, Memory.update, hname, hchange]; rfl
          | error fault =>
              -- The variable is bound once more to the tensor that it has.
              simp only [run_transaction, Memory.update, hname, hchange, error_bind]
              exact congrArg (fun m => EStateM.Result.error
                (.fault ⟨fault, line⟩ : Halt RunError) { s with memory := m }) hself
      | int | float | str | null =>
          simp only [run_transaction, Memory.update, hname]; rfl

theorem run_assigning (op : AssignOp) (p : Place) (e : Expr) :
    (assigning line op p e).run s = (transaction (assign line op p e)).run s := by
  rw [assigning, EStateM.run_bind, run_evaluating]
  cases hv : evaluate s.memory e with
  | error err => simp only [run_transaction, assign, hv]; rfl
  | ok v =>
      cases p with
      | item name i =>
          simp only [Memory.storeItemInPlace_eq, run_changing]
          simp only [run_transaction, assign, hv, ok_bind]
          rfl
      | cell name i j =>
          simp only [Memory.storeCellInPlace_eq, run_changing]
          simp only [run_transaction, assign, hv, ok_bind]
          rfl
      | var name =>
          simp only [EStateM.run_bind, EStateM.run_get]
          simp only [run_transaction, assign, hv, ok_bind, Memory.write]
          cases s.memory.combined op name v <;> rfl

theorem run_texts (values : List Expr) (s : State) :
    (values.mapM writing).run s
      = match values.mapM (evaluate s.memory) with
        | .ok vs => .ok (vs.map Value.text) s
        | .error err => .error err s := by
  induction values with
  | nil => rfl
  | cons e rest ih =>
      rw [List.mapM_cons, List.mapM_cons, EStateM.run_bind, writing, EStateM.run_bind,
        run_evaluating]
      cases evaluate s.memory e with
      | error err => rfl
      | ok v =>
          simp only [EStateM.run_bind, EStateM.run_pure, ih, ok_bind]
          cases rest.mapM (evaluate s.memory) <;> rfl

theorem run_printing (values : List Expr) :
    (printing values).run s = (transaction (print values)).run s := by
  rw [printing, EStateM.run_bind, run_texts]
  simp only [run_transaction, print, printed]
  cases values.mapM (evaluate s.memory) <;> rfl

/-- The steps of a machine come to what the statement comes to. -/
theorem execute_inPlace {stmt : Stmt} {action : Running Signal}
    (h : stmt.inPlace? = some action) (budget : Nat) (s : State) :
    execute budget stmt s = .ofRun (action.run s) := by
  cases stmt with
  | assign line op p e =>
      cases h
      simp only [execute, EStateM.run_bind, run_assigning, run_transaction]
      cases assign line op p e s <;> rfl
  | print line values =>
      cases h
      simp only [execute, EStateM.run_bind, run_printing, run_transaction]
      cases print values s <;> rfl
  | ret line e =>
      cases h
      simp only [execute, EStateM.run_bind, run_evaluating]
      cases evaluate s.memory e <;> rfl
  | block | branch | loop | count | break_ | continue_ => cases h

theorem Outcome.ofExcept_halted {x : Except (Halt RunError) State} {halt : Halt RunError}
    {t : State} (h : Outcome.ofExcept s x = .halted halt t) : t = s := by
  cases x <;> cases h
  rfl

theorem execute_halted {stmt : Stmt} {action : Running Signal}
    (h : stmt.inPlace? = some action) {budget : Nat} {halt : Halt RunError} {t : State}
    (hhalt : execute budget stmt s = .halted halt t) : t = s := by
  cases stmt with
  | assign | print =>
      rw [execute] at hhalt
      exact Outcome.ofExcept_halted hhalt
  | ret line value =>
      rw [execute] at hhalt
      split at hhalt <;> cases hhalt
      rfl
  | block | branch | loop | count | break_ | continue_ => cases h

/-- **Faults change nothing.** A machine that carries out an assignment, a `print` or a
`return` in place ends as the statement does, and if that is in a fault then in the
state in which it started: no scope, no tensor in it and no printed line has changed.
No value is printed if one of them faults, and a write into a tensor that fails leaves
all of its entries. -/
theorem faults_change_nothing {stmt : Stmt} {action : Running Signal}
    (h : stmt.inPlace? = some action) (budget : Nat) (s : State) :
    execute budget stmt s = .ofRun (action.run s)
      ∧ (∀ e t, action.run s = .error e t → t = s)
      ∧ (∀ line before e after err, stmt = .print line (before ++ e :: after) →
        (∀ x ∈ before, ∃ v, evaluate s.memory x = .ok v) → evaluate s.memory e = .error err →
          action.run s = .error err s)
      ∧ ∀ (a b : Tensor) fault,
        (∀ i x, (Tensor.setInPlace i x).run a = .error fault b ↔ b = a ∧ a.set i x = .error fault)
        ∧ (∀ i j x, (Tensor.set₂InPlace i j x).run a = .error fault b
          ↔ b = a ∧ a.set₂ i j x = .error fault)
        ∧ ∀ i row, (Tensor.setRowInPlace i row).run a = .error fault b
          ↔ b = a ∧ a.setRow i row = .error fault := by
  have hrun := execute_inPlace h budget s
  refine ⟨hrun, fun e t herror => ?_, ?_, fun a b fault => ⟨fun i x => ?_, fun i j x => ?_,
    fun i row => ?_⟩⟩
  · rw [herror] at hrun
    exact execute_halted h hrun
  · rintro line before e after err rfl hbefore he
    cases h
    obtain ⟨vs, hbefore⟩ := mapM_eq_ok hbefore
    have hvalues : (before ++ e :: after).mapM (evaluate s.memory) = .error err :=
      mapM_eq_error.mpr ⟨before, e, after, vs, rfl, hbefore, he⟩
    rw [EStateM.run_bind, run_printing, run_transaction, print, printed, hvalues]
    rfl
  · rw [Tensor.setInPlace_eq, run_transaction_eq_error]
  · rw [Tensor.set₂InPlace_eq, run_transaction_eq_error]
  · rw [Tensor.setRowInPlace_eq, run_transaction_eq_error]

end

/-- A row that is too long for a matrix of an outer scope, and a second value that
cannot be indexed. -/
theorem faults_change_nothing_scopes :
    let a : Tensor := ⟨.matrix 2 2, .int, #[1.0, 2.0, 3.0, 4.0]⟩
    let s : State := ⟨(Memory.initial.assign "a" (.tensor a)).push (.empty "inner"), .empty⟩
    let row : Expr := .vector 1 [.int 1 7, .int 1 8, .int 1 9]
    execute 0 (.assign 1 .set (.item "a" 0) row) s
        = .halted (.fault ⟨.tensor (.rowLength (.vector 3) 2), 1⟩) s
      ∧ execute 0 (.print 2 [.int 2 7, .read 2 (.item "y" 0)]) s
        = .halted (.fault ⟨.notIndexable "y" none, 2⟩) s := by
  intro a s row
  constructor
  · obtain ⟨hexecute, hsame, -⟩ :=
      faults_change_nothing (rfl : (Stmt.assign 1 .set (.item "a" 0) row).inPlace? = some _) 0 s
    obtain ⟨t, ht⟩ : ∃ t, (assigning 1 .set (.item "a" 0) row >>= fun _ => pure Signal.normal).run s
        = .error (.fault ⟨.tensor (.rowLength (.vector 3) 2), 1⟩ : Halt RunError) t := ⟨_, rfl⟩
    rw [hexecute, ht, hsame _ _ ht]
    rfl
  · obtain ⟨hexecute, -, hprint, -⟩ := faults_change_nothing
      (rfl : (Stmt.print 2 [.int 2 7, .read 2 (.item "y" 0)]).inPlace? = some _) 0 s
    rw [hexecute, hprint 2 [.int 2 7] _ [] _ rfl (by simp [evaluate]) rfl]
    rfl

end MatrixLang
