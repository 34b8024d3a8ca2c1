import MatrixLang.Proofs.Except
import MatrixLang.Proofs.Tree
import MatrixLang.Run.Execute

/-!
# The states on the way of a run

`execute` tells where a statement ends. `Visits` tells what happens on the way:
which statements inside it are come to, and in which states. Every state of a
run is the state in which some statement is come to, or the one in which the run
ends.

The main fact is an induction over whole runs (`execute_safe`,
`Visits.invariant`): if every single step of the statements in a tree keeps a
property of the state and only halts in a permitted way (`Stmt.Keeps`), then the
property holds in every state on the way of every run, also of one that is cut
off inside a loop, and every fault or crash is a permitted one of a statement that
was come to.
-/

namespace MatrixLang

theorem executeAll_append (budget : Nat) (l k : List Stmt) (s : State) :
    executeAll budget (l ++ k) s =
      match executeAll budget l s with
      | .done .normal t => executeAll budget k t
      | o => o := by
  induction l generalizing s with
  | nil => rfl
  | cons stmt rest ih =>
      simp only [List.cons_append, executeAll]
      cases execute budget stmt s with
      | done signal t =>
          cases signal with
          | normal => exact ih t
          | break_ | continue_ | returned => rfl
      | halted halt t | cutOff t => rfl

/-! ## Rounds of loops -/

/-- The state in which a loop goes round again after its body. -/
def Outcome.again? : Outcome → Option State
  | .done .normal t | .done .continue_ t => some t
  | _ => none

/-- How a loop ends that does not go round again after its body. -/
def Outcome.left : Outcome → Outcome
  | .done .break_ t => .done .normal t
  | o => o

theorem whileLoop_round {test : State → Except (Halt RunError) Bool}
    {body : State → Outcome} {n : Nat} {s : State} (h : test s = .ok true) :
    whileLoop test body (n + 1) s =
      match (body s).again? with
      | some t => whileLoop test body n t
      | none => (body s).left := by
  simp only [whileLoop, h]
  cases body s with
  | done signal t => cases signal <;> rfl
  | halted halt t | cutOff t => rfl

/-- The state in which the body of a `for` loop starts. -/
def State.counting (s : State) (var : String) (i : Int) : State :=
  { s with memory := s.memory.assign var (.int (Int64.ofInt i)) }

theorem countLoop_round (var : String) (body : State → Outcome) (rounds : Nat)
    (i : Int) (s : State) :
    countLoop var body (rounds + 1) i s =
      match (body (s.counting var i)).again? with
      | some t => countLoop var body rounds (i + 1) t
      | none => (body (s.counting var i)).left := by
  simp only [countLoop, State.counting]
  cases body { s with memory := s.memory.assign var (.int (Int64.ofInt i)) } with
  | done signal t => cases signal <;> rfl
  | halted halt t | cutOff t => rfl

/-- A `for` loop that started at `a` in state `s` comes to round `i` in a state. -/
inductive CountRounds (var : String) (body : State → Outcome) (a : Int) (s : State) :
    Int → State → Prop
  | start : CountRounds var body a s a s
  | next {i : Int} {t u : State} : CountRounds var body a s i t →
      (body (t.counting var i)).again? = some u → CountRounds var body a s (i + 1) u

/-- The run of a statement from a state comes to another statement in another
state. -/
inductive Visits (budget : Nat) : Stmt → State → Stmt → State → Prop
  | here {stmt : Stmt} {s : State} : Visits budget stmt s stmt s
  | block {line : Nat} {before after : List Stmt} {stmt stmt' : Stmt}
      {s t u : State} :
      executeAll budget before s = .done .normal t → Visits budget stmt t stmt' u →
      Visits budget (.block line (before ++ stmt :: after)) s stmt' u
  | yes {line : Nat} {test : Expr} {yes : Stmt} {no : Option Stmt} {stmt' : Stmt}
      {s u : State} :
      holds s.memory test = .ok true → Visits budget yes s stmt' u →
      Visits budget (.branch line test yes no) s stmt' u
  | no {line : Nat} {test : Expr} {yes no stmt' : Stmt} {s u : State} :
      holds s.memory test = .ok false → Visits budget no s stmt' u →
      Visits budget (.branch line test yes (some no)) s stmt' u
  | round {line : Nat} {test : Expr} {body stmt' : Stmt} {s u : State} :
      holds s.memory test = .ok true → Visits budget body s stmt' u →
      Visits budget (.loop line test body) s stmt' u
  | again {line : Nat} {test : Expr} {body stmt' : Stmt} {s t u : State} :
      holds s.memory test = .ok true → (execute budget body s).again? = some t →
      Visits budget (.loop line test body) t stmt' u →
      Visits budget (.loop line test body) s stmt' u
  | count {line : Nat} {var : String} {range : Range} {body stmt' : Stmt} {s t u : State}
      {a b : Int64} {i : Int} :
      evaluateRange s.memory range = .ok (a, b) →
      CountRounds var (execute budget body) a.toInt s i t → i ≤ b.toInt →
      Visits budget body (t.counting var i) stmt' u →
      Visits budget (.count line var range body) s stmt' u

/-! ## Statements in a statement -/

namespace Stmt

mutual

/-- A statement and all statements in it. -/
def parts : Stmt → List Stmt
  | .block line body => .block line body :: partsAll body
  | .branch line test yes none => .branch line test yes none :: yes.parts
  | .branch line test yes (some no) =>
      .branch line test yes (some no) :: (yes.parts ++ no.parts)
  | .loop line test body => .loop line test body :: body.parts
  | .count line var range body => .count line var range body :: body.parts
  | s => [s]

def partsAll : List Stmt → List Stmt
  | [] => []
  | s :: rest => s.parts ++ partsAll rest

end

theorem mem_partsAll {x : Stmt} {body : List Stmt} :
    x ∈ partsAll body ↔ ∃ s ∈ body, x ∈ s.parts := by
  induction body with
  | nil => simp [partsAll]
  | cons s rest ih => simp [partsAll, ih]

theorem self_mem_parts (s : Stmt) : s ∈ s.parts := by
  cases s with
  | branch line test yes no => cases no <;> simp [parts]
  | _ => simp [parts]

theorem mem_parts_yes {line : Nat} {test : Expr} {yes : Stmt} {no : Option Stmt}
    {x : Stmt} (h : x ∈ yes.parts) :
    x ∈ (Stmt.branch line test yes no).parts := by
  cases no with
  | none => exact List.mem_cons_of_mem _ h
  | some no => exact List.mem_cons_of_mem _ (List.mem_append_left _ h)

theorem mem_parts_no {line : Nat} {test : Expr} {yes no x : Stmt}
    (h : x ∈ no.parts) :
    x ∈ (Stmt.branch line test yes (some no)).parts :=
  List.mem_cons_of_mem _ (List.mem_append_right _ h)

theorem mem_parts_block {line : Nat} {body : List Stmt} {stmt x : Stmt}
    (hstmt : stmt ∈ body) (h : x ∈ stmt.parts) :
    x ∈ (Stmt.block line body).parts :=
  List.mem_cons_of_mem _ (mem_partsAll.mpr ⟨stmt, hstmt, h⟩)

/-- A statement and all statements in it have a property. -/
def All (P : Stmt → Prop) (stmt : Stmt) : Prop :=
  ∀ part ∈ stmt.parts, P part

namespace All

variable {P : Stmt → Prop} {stmt other : Stmt} {line : Nat} {test : Expr}

theorem self (h : stmt.All P) : P stmt := h stmt stmt.self_mem_parts

theorem member {body : List Stmt} (h : (Stmt.block line body).All P) (hstmt : stmt ∈ body) :
    stmt.All P :=
  fun part hpart => h part (mem_parts_block hstmt hpart)

theorem yes {o : Option Stmt} (h : (Stmt.branch line test stmt o).All P) : stmt.All P :=
  fun part hpart => h part (mem_parts_yes hpart)

theorem no (h : (Stmt.branch line test stmt (some other)).All P) : other.All P :=
  fun part hpart => h part (mem_parts_no hpart)

theorem loop (h : (Stmt.loop line test stmt).All P) : stmt.All P :=
  fun part hpart => h part (List.mem_cons_of_mem _ hpart)

theorem count {var : String} {range : Range} (h : (Stmt.count line var range stmt).All P) :
    stmt.All P :=
  fun part hpart => h part (List.mem_cons_of_mem _ hpart)

end All

theorem all_of_partsAll {P : Stmt → Prop} {p : List Stmt} (h : ∀ part ∈ partsAll p, P part)
    {stmt : Stmt} (hstmt : stmt ∈ p) : stmt.All P :=
  fun part hpart => h part (mem_partsAll.mpr ⟨stmt, hstmt, hpart⟩)

/-! ## Steps -/

/-- A single step of a statement keeps `I`, and halts in a permitted way only. What
the statements inside it do is not part of the step. -/
def Keeps (I : State → Prop) (F : Stmt → State → Halt RunError → Prop) (stmt : Stmt) :
    Prop :=
  ∀ s, I s →
    match stmt with
    | .assign line op place e => Settles (F stmt s) I (MatrixLang.assign line op place e s)
    | .print _ values => Settles (F stmt s) I (MatrixLang.print values s)
    | .ret _ e => Settles (F stmt s) (fun _ => True) (evaluate s.memory e)
    | .branch _ test _ _ | .loop _ test _ =>
        Settles (F stmt s) (fun _ => True) (holds s.memory test)
    | .count _ var range _ =>
        Settles (F stmt s) (fun _ => True) (evaluateRange s.memory range)
          ∧ ∀ i, I (s.counting var i)
    | .block _ _ | .break_ _ | .continue_ _ => True

end Stmt

/-! ## Runs -/

/-- The state that was reached is good, and a fault or a crash has its explanation. -/
def Outcome.Safe (I : State → Prop) (C : Halt RunError → State → Prop) :
    Outcome → Prop
  | .done _ t | .cutOff t => I t
  | .halted halt t => I t ∧ C halt t

namespace Outcome.Safe

variable {I : State → Prop} {C D : Halt RunError → State → Prop} {o : Outcome}

theorem mono (h : o.Safe I C) (hcd : ∀ halt t, C halt t → D halt t) : o.Safe I D := by
  cases o with
  | done signal t | cutOff t => exact h
  | halted halt t => exact ⟨h.1, hcd halt t h.2⟩

theorem again {t : State} (h : o.Safe I C) (ht : o.again? = some t) : I t := by
  cases o with
  | done signal u =>
      cases signal <;> cases ht <;> exact h
  | halted halt u | cutOff u => cases ht

theorem left (h : o.Safe I C) : o.left.Safe I C := by
  cases o with
  | done signal t => cases signal <;> exact h
  | halted halt t | cutOff t => exact h

end Outcome.Safe

/-- A fault or a crash on the way of `stmt` from `s` is that of a statement which was
come to in the state in which the run ended. -/
def Blamed (F : Stmt → State → Halt RunError → Prop) (budget : Nat) (stmt : Stmt) (s : State)
    (halt : Halt RunError) (t : State) : Prop :=
  ∃ culprit, Visits budget stmt s culprit t ∧ execute budget culprit t = .halted halt t
    ∧ F culprit t halt

section

variable {I : State → Prop} {F : Stmt → State → Halt RunError → Prop} {budget : Nat}

theorem Blamed.imp {stmt stmt' : Stmt} {s s' : State} {halt : Halt RunError} {t : State}
    (h : Blamed F budget stmt s halt t)
    (hv : ∀ {c u}, Visits budget stmt s c u → Visits budget stmt' s' c u) :
    Blamed F budget stmt' s' halt t := by
  obtain ⟨culprit, hvisit, hexec, hhalt⟩ := h
  exact ⟨culprit, hv hvisit, hexec, hhalt⟩

/-- A step that is a computation on the state. -/
theorem ofExcept_safe {stmt : Stmt} {s : State} {x : Except (Halt RunError) State}
    (hexec : execute budget stmt s = .ofExcept s x) (hs : I s)
    (hx : Settles (F stmt s) I x) :
    (execute budget stmt s).Safe I (Blamed F budget stmt s) := by
  rw [hexec]
  cases x with
  | ok t => exact hx
  | error e => exact ⟨hs, stmt, .here, hexec, hx⟩

theorem halted_safe {stmt : Stmt} {s : State} {halt : Halt RunError}
    (hexec : execute budget stmt s = .halted halt s) (hs : I s)
    (hhalt : F stmt s halt) :
    (execute budget stmt s).Safe I (Blamed F budget stmt s) := by
  rw [hexec]
  exact ⟨hs, stmt, .here, hexec, hhalt⟩

theorem branch_safe {line : Nat} {test : Expr} {yes : Stmt} {no : Option Stmt}
    {s : State} (hkeep : (Stmt.branch line test yes no).Keeps I F)
    (hyes : (execute budget yes s).Safe I (Blamed F budget yes s))
    (hno : ∀ stmt ∈ no, (execute budget stmt s).Safe I (Blamed F budget stmt s))
    (hs : I s) :
    (execute budget (.branch line test yes no) s).Safe I
      (Blamed F budget (.branch line test yes no) s) := by
  cases htest : holds s.memory test with
  | error e =>
      refine halted_safe ?_ hs ((hkeep s hs).fails htest)
      cases no <;> simp only [execute, htest]
  | ok b =>
      cases b with
      | true =>
          have hexec : execute budget (.branch line test yes no) s
              = execute budget yes s := by
            cases no <;> simp only [execute, htest]
          rw [hexec]
          exact hyes.mono fun halt t h => h.imp (.yes htest)
      | false =>
          cases no with
          | none =>
              simp only [execute, htest]
              exact hs
          | some no =>
              simp only [execute, htest]
              exact (hno no rfl).mono fun halt t h => h.imp (.no htest)

theorem whileLoop_safe {line : Nat} {test : Expr} {body : Stmt}
    (hkeep : (Stmt.loop line test body).Keeps I F)
    (hbody : ∀ s, I s → (execute budget body s).Safe I (Blamed F budget body s)) :
    ∀ n s, n ≤ budget → I s →
      (whileLoop (fun t => holds t.memory test) (execute budget body) n s).Safe I
        (Blamed F budget (.loop line test body) s) := by
  intro n
  induction n with
  | zero => exact fun s _ hs => hs
  | succ n ih =>
      intro s hn hs
      cases htest : holds s.memory test with
      | error e =>
          obtain ⟨k, rfl⟩ : ∃ k, budget = k + 1 := ⟨budget - 1, by omega⟩
          simp only [whileLoop, htest]
          refine ⟨hs, _, .here, ?_, (hkeep s hs).fails htest⟩
          simp only [execute, whileLoop, htest]
      | ok b =>
          cases b with
          | false => simp only [whileLoop, htest]; exact hs
          | true =>
              rw [whileLoop_round htest]
              have hround := hbody s hs
              split
              · rename_i t hagain
                exact (ih t (by omega) (hround.again hagain)).mono fun halt u h =>
                  h.imp (.again htest hagain)
              · exact hround.left.mono fun halt t h => h.imp (.round htest)

theorem countLoop_safe {line : Nat} {var : String} {range : Range} {body : Stmt}
    {s : State} {a b : Int64}
    (hrange : evaluateRange s.memory range = .ok (a, b))
    (hcount : ∀ t i, I t → I (t.counting var i))
    (hbody : ∀ t, I t → (execute budget body t).Safe I (Blamed F budget body t)) :
    ∀ (rounds : Nat) (i : Int) (t : State),
      CountRounds var (execute budget body) a.toInt s i t →
      i + rounds ≤ b.toInt + 1 → I t →
      (countLoop var (execute budget body) rounds i t).Safe I
        (Blamed F budget (.count line var range body) s) := by
  intro rounds
  induction rounds with
  | zero => exact fun i t _ _ ht => ht
  | succ rounds ih =>
      intro i t hrounds hi ht
      rw [countLoop_round]
      have hround := hbody _ (hcount t i ht)
      split
      · rename_i u hagain
        exact ih (i + 1) u (.next hrounds hagain) (by omega) (hround.again hagain)
      · exact hround.left.mono fun halt u h => h.imp (.count hrange hrounds (by omega))

/-- Statements one after another. `before` is what was executed already. -/
theorem executeAll_safe {line : Nat} {s : State} :
    ∀ (body before : List Stmt) (t : State),
      executeAll budget before s = .done .normal t →
      (∀ stmt ∈ body, ∀ u, I u →
        (execute budget stmt u).Safe I (Blamed F budget stmt u)) →
      I t → (executeAll budget body t).Safe I
        (Blamed F budget (.block line (before ++ body)) s) := by
  intro body
  induction body with
  | nil => exact fun before t _ _ ht => ht
  | cons stmt rest ih =>
      intro before t hbefore hbody ht
      obtain ⟨hstmt, hrest⟩ := List.forall_mem_cons.mp hbody
      have hsafe : (execute budget stmt t).Safe I
          (Blamed F budget (.block line (before ++ stmt :: rest)) s) :=
        (hstmt t ht).mono fun halt u h => h.imp (.block hbefore)
      simp only [executeAll]
      split
      · rename_i u hexec
        have hbefore' : executeAll budget (before ++ [stmt]) s
            = .done .normal u := by
          simp only [executeAll_append, hbefore, executeAll, hexec]
        have hu : I u := by
          rw [hexec] at hsafe
          exact hsafe
        rw [List.append_cons]
        exact ih (before ++ [stmt]) u hbefore' hrest hu
      · exact hsafe

/-- **Runs keep what steps keep.** -/
theorem execute_safe (budget : Nat) {stmt : Stmt}
    (h : ∀ part ∈ stmt.parts, part.Keeps I F) {s : State} (hs : I s) :
    (execute budget stmt s).Safe I (Blamed F budget stmt s) := by
  have hself := h stmt stmt.self_mem_parts
  induction stmt generalizing s with
  | block line body ih =>
      simp only [execute]
      refine executeAll_safe body [] s rfl (fun x hx u hu => ?_) hs
      have hparts : ∀ part ∈ x.parts, part.Keeps I F := by
        intro part hpart
        exact h part (Stmt.mem_parts_block hx hpart)
      exact ih x hx hparts hu (hparts x x.self_mem_parts)
  | assign line op place e =>
      exact ofExcept_safe (by simp only [execute]) hs (hself s hs)
  | print line values =>
      exact ofExcept_safe (by simp only [execute]) hs (hself s hs)
  | break_ line | continue_ line => exact hs
  | ret line e =>
      cases heval : evaluate s.memory e with
      | ok v =>
          simp only [execute, heval]
          exact hs
      | error err =>
          refine halted_safe ?_ hs ((hself s hs).fails heval)
          simp only [execute, heval]
  | branch line test yes no ihYes ihNo =>
      have hyes : ∀ part ∈ yes.parts, part.Keeps I F := by
        intro part hpart
        exact h part (Stmt.mem_parts_yes hpart)
      refine branch_safe hself (ihYes hyes hs (hyes yes yes.self_mem_parts)) ?_ hs
      intro stmt hstmt
      obtain rfl := Option.mem_def.mp hstmt
      have hno : ∀ part ∈ stmt.parts, part.Keeps I F := by
        intro part hpart
        exact h part (Stmt.mem_parts_no hpart)
      exact ihNo stmt rfl hno hs (hno stmt stmt.self_mem_parts)
  | loop line test body ih =>
      have hbody : ∀ part ∈ body.parts, part.Keeps I F := by
        intro part hpart
        exact h part (List.mem_cons_of_mem _ hpart)
      simp only [execute]
      have hround : ∀ t, I t →
          (execute budget body t).Safe I (Blamed F budget body t) := by
        intro t ht
        exact ih hbody ht (hbody body body.self_mem_parts)
      exact whileLoop_safe hself hround budget s (Nat.le_refl budget) hs
  | count line var range body ih =>
      have hbody : ∀ part ∈ body.parts, part.Keeps I F := by
        intro part hpart
        exact h part (List.mem_cons_of_mem _ hpart)
      cases hrange : evaluateRange s.memory range with
      | error err =>
          refine halted_safe ?_ hs ((hself s hs).1.fails hrange)
          simp only [execute, hrange]
      | ok bounds =>
          obtain ⟨a, b⟩ := bounds
          simp only [execute, hrange]
          cases hsize : rangeSize a b with
          | zero => exact hs
          | succ rounds =>
              have hround : ∀ t, I t →
                  (execute budget body t).Safe I (Blamed F budget body t) :=
                fun t ht => ih hbody ht (hbody body body.self_mem_parts)
              refine countLoop_safe hrange (fun t i ht => (hself t ht).2 i) hround
                _ _ s .start ?_ hs
              simp only [rangeSize] at hsize
              omega

/-- The invariant at the head of every round of a `for` loop. -/
theorem CountRounds.invariant {var : String} {body : Stmt} {a i : Int}
    {s t : State} (hr : CountRounds var (execute budget body) a s i t)
    (hcount : ∀ t i, I t → I (t.counting var i))
    (hbody : ∀ part ∈ body.parts, part.Keeps I F) (hs : I s) : I t := by
  induction hr with
  | start => exact hs
  | next _ hagain ih =>
      exact (execute_safe budget hbody (hcount _ _ ih)).again hagain

/-- Every statement that a run comes to is come to in a good state. -/
theorem Visits.invariant {stmt stmt' : Stmt} {s u : State}
    (hv : Visits budget stmt s stmt' u)
    (h : ∀ part ∈ stmt.parts, part.Keeps I F) (hs : I s) : I u := by
  induction hv with
  | here => exact hs
  | @block line before after stmt stmt' s t u hbefore _ ih =>
      have hfirst : ∀ part ∈ (Stmt.block line before).parts, part.Keeps I F := by
        intro part hpart
        rcases List.mem_cons.mp hpart with rfl | hpart
        · exact fun _ _ => trivial
        · obtain ⟨x, hx, hpx⟩ := Stmt.mem_partsAll.mp hpart
          exact h part (Stmt.mem_parts_block (List.mem_append_left _ hx) hpx)
      have hsafe := execute_safe budget hfirst hs
      simp only [execute, hbefore] at hsafe
      exact ih (fun part hpart => h part
        (Stmt.mem_parts_block (List.mem_append_right _ List.mem_cons_self) hpart)) hsafe
  | yes _ _ ih =>
      exact ih (fun part hpart => h part (Stmt.mem_parts_yes hpart)) hs
  | no _ _ ih =>
      exact ih (fun part hpart => h part (Stmt.mem_parts_no hpart)) hs
  | round _ _ ih =>
      exact ih (fun part hpart => h part (List.mem_cons_of_mem _ hpart)) hs
  | again _ hagain _ ih =>
      have hbody := execute_safe budget
        (fun part hpart => h part (List.mem_cons_of_mem _ hpart)) hs
      exact ih h (hbody.again hagain)
  | @count line var range body stmt' s t u a b i _ hrounds _ _ ih =>
      have hbody : ∀ part ∈ body.parts, part.Keeps I F := by
        intro part hpart
        exact h part (List.mem_cons_of_mem _ hpart)
      have hcount : ∀ t i, I t → I (t.counting var i) := by
        intro t i ht
        exact (h _ (Stmt.self_mem_parts _) t ht).2 i
      exact ih hbody (hcount t i (hrounds.invariant hcount hbody hs))

end

end MatrixLang
