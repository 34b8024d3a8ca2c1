import MatrixLang.Diagnostic.Problem
import MatrixLang.Proofs.Run.Visits

/-!
# The signals of statements

A loop takes every `break` and `continue` of its body, so that it ends normally
or with a returned value, whatever the body is (`Outcome.Settled`). A program in
which no `break` or `continue` stands outside of all loops therefore never ends
with one of them (`execute_settled`), and statements behind a beginning of it are
skipped for no other reason than that it returned, faulted, crashed or was cut off
(`executeAll_split`).

Nothing takes a returned value. What blocks and loops return is what a statement
in them returned, in the round that ended them (`executeAll_returned`,
`whileLoop_returned`, `countLoop_returned`).
-/

namespace MatrixLang

/-! ## Loop controls outside of loops -/

namespace Stmt

mutual

/-- The loop controls in a statement that stand in no loop of it, with their
lines. -/
def looseControls : Stmt → List (LoopControl × Nat)
  | .block _ body => looseControlsAll body
  | .branch _ _ yes none => yes.looseControls
  | .branch _ _ yes (some no) => yes.looseControls ++ no.looseControls
  | .break_ line => [(LoopControl.break_, line)]
  | .continue_ line => [(LoopControl.continue_, line)]
  | .assign .. | .loop .. | .count .. | .ret .. | .print .. => []

def looseControlsAll : List Stmt → List (LoopControl × Nat)
  | [] => []
  | s :: rest => s.looseControls ++ looseControlsAll rest

end

theorem looseControlsAll_eq_nil {body : List Stmt} :
    looseControlsAll body = [] ↔ ∀ s ∈ body, s.looseControls = [] := by
  induction body with
  | nil => simp [looseControlsAll]
  | cons s rest ih => simp [looseControlsAll, ih]

end Stmt

/-! ## No loop control is left -/

/-- A run that did not end at a loop control. -/
def Outcome.Settled : Outcome → Prop
  | .done .break_ _ | .done .continue_ _ => False
  | .done .normal _ | .done (.returned _) _ | .halted _ _ | .cutOff _ => True

/-- A run that came to its end before the statements were through. -/
def Outcome.Stopped : Outcome → Prop
  | .done (.returned _) _ | .halted _ _ | .cutOff _ => True
  | .done .normal _ | .done .break_ _ | .done .continue_ _ => False

variable {budget : Nat}

theorem Outcome.settled_ofExcept (s : State) (x : Except (Halt RunError) State) :
    (Outcome.ofExcept s x).Settled := by
  cases x <;> trivial

/-- What a loop leaves as it is was no loop control. -/
theorem Outcome.settled_left {o : Outcome} (h : o.again? = none) :
    o.left.Settled := by
  cases o with
  | done signal t =>
      cases signal with
      | normal | continue_ => cases h
      | break_ | returned => trivial
  | halted halt t | cutOff t => trivial

theorem whileLoop_settled (test : State → Except (Halt RunError) Bool)
    (body : State → Outcome) (n : Nat) (s : State) :
    (whileLoop test body n s).Settled := by
  induction n generalizing s with
  | zero => trivial
  | succ n ih =>
      cases htest : test s with
      | error e => simp only [whileLoop, htest]; trivial
      | ok b =>
          cases b with
          | false => simp only [whileLoop, htest]; trivial
          | true =>
              rw [whileLoop_round htest]
              split
              · exact ih _
              · exact Outcome.settled_left ‹_›

theorem countLoop_settled (var : String) (body : State → Outcome) (rounds : Nat)
    (i : Int) (s : State) : (countLoop var body rounds i s).Settled := by
  induction rounds generalizing i s with
  | zero => trivial
  | succ rounds ih =>
      rw [countLoop_round]
      split
      · exact ih _ _
      · exact Outcome.settled_left ‹_›

/-- Loops do not pass loop controls on, whatever they hold. -/
theorem execute_loop_settled (line : Nat) (test : Expr) (body : Stmt) (s : State) :
    (execute budget (.loop line test body) s).Settled := by
  simp only [execute]
  exact whileLoop_settled _ _ _ s

theorem execute_count_settled (line : Nat) (var : String) (range : Range)
    (body : Stmt) (s : State) :
    (execute budget (.count line var range body) s).Settled := by
  simp only [execute]
  split
  · trivial
  · exact countLoop_settled _ _ _ _ s

theorem executeAll_settled {body : List Stmt}
    (h : ∀ stmt ∈ body, ∀ s, (execute budget stmt s).Settled) (s : State) :
    (executeAll budget body s).Settled := by
  induction body generalizing s with
  | nil => trivial
  | cons stmt rest ih =>
      obtain ⟨hstmt, hrest⟩ := List.forall_mem_cons.mp h
      simp only [executeAll]
      split
      · exact ih hrest _
      · exact hstmt s

/-- A statement without loose loop controls does not end at one. -/
theorem execute_settled {stmt : Stmt} (h : stmt.looseControls = []) (s : State) :
    (execute budget stmt s).Settled := by
  induction stmt generalizing s with
  | block line body ih =>
      have hbody := Stmt.looseControlsAll_eq_nil.mp h
      simp only [execute]
      exact executeAll_settled (fun stmt hstmt => ih stmt hstmt (hbody stmt hstmt)) s
  | assign line op place e =>
      simp only [execute]
      exact Outcome.settled_ofExcept s _
  | print line values =>
      simp only [execute]
      exact Outcome.settled_ofExcept s _
  | branch line test yes no ihYes ihNo =>
      cases no with
      | none =>
          simp only [execute]
          split
          · trivial
          · exact ihYes h s
          · trivial
      | some no =>
          obtain ⟨hyes, hno⟩ := List.append_eq_nil_iff.mp h
          simp only [execute]
          split
          · trivial
          · exact ihYes hyes s
          · exact ihNo no rfl hno s
  | loop line test body ih => exact execute_loop_settled line test body s
  | count line var range body ih =>
      exact execute_count_settled line var range body s
  | break_ line | continue_ line => cases h
  | ret line e =>
      simp only [execute]
      split <;> trivial

/-- Without loose loop controls, what is behind a beginning of the statements is
executed unless the beginning stopped the run. -/
theorem executeAll_split {before after : List Stmt}
    (h : Stmt.looseControlsAll (before ++ after) = []) (s : State) :
    (∃ t, executeAll budget before s = .done .normal t
      ∧ executeAll budget (before ++ after) s = executeAll budget after t)
    ∨ (executeAll budget before s).Stopped
      ∧ executeAll budget (before ++ after) s = executeAll budget before s := by
  have hbefore : (executeAll budget before s).Settled := by
    refine executeAll_settled (fun stmt hstmt => ?_) s
    exact execute_settled (Stmt.looseControlsAll_eq_nil.mp h stmt
      (List.mem_append_left after hstmt))
  rw [executeAll_append]
  cases ho : executeAll budget before s with
  | done signal t =>
      rw [ho] at hbefore
      cases signal with
      | normal => exact .inl ⟨t, rfl, rfl⟩
      | returned v => exact .inr ⟨trivial, rfl⟩
      | break_ | continue_ => cases hbefore
  | halted halt t | cutOff t => exact .inr ⟨trivial, rfl⟩

/-! ## Returned values -/

/-- Statements return what one of them returns, after the ones before it. -/
theorem executeAll_returned {body : List Stmt} {s u : State} {v : Value} :
    executeAll budget body s = .done (.returned v) u
      ↔ ∃ before stmt after t, body = before ++ stmt :: after
        ∧ executeAll budget before s = .done .normal t
        ∧ execute budget stmt t = .done (.returned v) u := by
  constructor
  · intro h
    induction body generalizing s with
    | nil => cases h
    | cons stmt rest ih =>
        simp only [executeAll] at h
        split at h
        · rename_i t ht
          obtain ⟨before, stmt', after, t', rfl, hbefore, hstmt⟩ := ih h
          refine ⟨stmt :: before, stmt', after, t', rfl, ?_, hstmt⟩
          simp only [executeAll, ht, hbefore]
        · exact ⟨[], stmt, rest, s, rfl, rfl, h⟩
  · rintro ⟨before, stmt, after, t, rfl, hbefore, hstmt⟩
    simp only [executeAll_append, hbefore, executeAll, hstmt]

/-- A `while` loop that started in state `s` comes to its test for the `n`th time
in a state, counted from zero. -/
inductive WhileRounds (test : State → Except (Halt RunError) Bool) (body : State → Outcome)
    (s : State) : Nat → State → Prop
  | start : WhileRounds test body s 0 s
  | next {n : Nat} {t u : State} : WhileRounds test body s n t → test t = .ok true →
      (body t).again? = some u → WhileRounds test body s (n + 1) u

/-- The rounds behind some of them are those of a loop that starts there. -/
theorem WhileRounds.trans {test : State → Except (Halt RunError) Bool}
    {body : State → Outcome} {s t u : State} {m n : Nat}
    (hm : WhileRounds test body s m t) (hn : WhileRounds test body t n u) :
    WhileRounds test body s (m + n) u := by
  induction hn with
  | start => exact hm
  | next _ htest hagain ih => exact .next ih htest hagain

theorem WhileRounds.whileLoop {test : State → Except (Halt RunError) Bool}
    {body : State → Outcome} {s t : State} {n : Nat}
    (h : WhileRounds test body s n t) (m : Nat) :
    whileLoop test body (n + m) s = MatrixLang.whileLoop test body m t := by
  induction h generalizing m with
  | start => rw [Nat.zero_add]
  | @next n t u _ htest hagain ih =>
      rw [Nat.add_assoc, ih, Nat.add_comm, whileLoop_round htest, hagain]

theorem again?_eq_none_of_returned {o : Outcome} {u : State} {v : Value}
    (h : o = .done (.returned v) u) : o.again? = none ∧ o.left = o := by
  subst h
  exact ⟨rfl, rfl⟩

/-- A loop that is left with a returned value was left by its body with it. -/
theorem Outcome.eq_of_left_returned {o : Outcome} {u : State} {v : Value}
    (h : o.left = .done (.returned v) u) : o = .done (.returned v) u := by
  cases o with
  | done signal t =>
      cases signal with
      | returned => exact h
      | normal | continue_ | break_ => cases h
  | halted halt t | cutOff t => cases h

theorem whileLoop_returned {test : State → Except (Halt RunError) Bool}
    {body : State → Outcome} {s u : State} {v : Value} :
    whileLoop test body budget s = .done (.returned v) u
      ↔ ∃ n t, n < budget ∧ WhileRounds test body s n t ∧ test t = .ok true
        ∧ body t = .done (.returned v) u := by
  constructor
  · intro h
    induction budget generalizing s with
    | zero => cases h
    | succ budget ih =>
        cases htest : test s with
        | error e => simp only [whileLoop, htest] at h; cases h
        | ok b =>
            cases b with
            | false => simp only [whileLoop, htest] at h; cases h
            | true =>
                rw [whileLoop_round htest] at h
                split at h
                · rename_i t hagain
                  obtain ⟨n, t', hn, hrounds, ht', hbody⟩ := ih h
                  have hfirst : WhileRounds test body s 1 t :=
                    .next .start htest hagain
                  refine ⟨1 + n, t', by omega, hfirst.trans hrounds, ht', hbody⟩
                · exact ⟨0, s, by omega, .start, htest, Outcome.eq_of_left_returned h⟩
  · rintro ⟨n, t, hn, hrounds, htest, hbody⟩
    obtain ⟨m, rfl⟩ : ∃ m, budget = n + (m + 1) := ⟨budget - n - 1, by omega⟩
    obtain ⟨hnone, hleft⟩ := again?_eq_none_of_returned hbody
    rw [hrounds.whileLoop, whileLoop_round htest, hnone]
    exact hleft.trans hbody

theorem execute_loop_returned {line : Nat} {test : Expr} {body : Stmt} {s u : State}
    {v : Value} :
    execute budget (.loop line test body) s = .done (.returned v) u
      ↔ ∃ n t, n < budget
        ∧ WhileRounds (fun t => holds t.memory test) (execute budget body) s n t
        ∧ holds t.memory test = .ok true
        ∧ execute budget body t = .done (.returned v) u := by
  simp only [execute]
  exact whileLoop_returned

theorem CountRounds.le {var : String} {body : State → Outcome} {a i : Int}
    {s t : State} (h : CountRounds var body a s i t) : a ≤ i := by
  induction h with
  | start => exact Int.le_refl a
  | next _ _ ih => omega

/-- One more round in front. -/
theorem CountRounds.cons {var : String} {body : State → Outcome} {a i : Int}
    {s t u : State} (hagain : (body (s.counting var a)).again? = some t)
    (h : CountRounds var body (a + 1) t i u) : CountRounds var body a s i u := by
  induction h with
  | start => exact .next .start hagain
  | next _ hnext ih => exact .next ih hnext

theorem CountRounds.countLoop {var : String} {body : State → Outcome} {a i : Int}
    {s t : State} (h : CountRounds var body a s i t) (m : Nat) :
    countLoop var body ((i - a).toNat + m) a s
      = MatrixLang.countLoop var body m i t := by
  induction h generalizing m with
  | start => simp
  | @next i t u hrounds hagain ih =>
      have hle := hrounds.le
      have hsize : (i + 1 - a).toNat + m = (i - a).toNat + (m + 1) := by omega
      rw [hsize, ih, countLoop_round, hagain]

theorem countLoop_returned {var : String} {body : State → Outcome} {rounds : Nat}
    {a : Int} {s u : State} {v : Value} :
    countLoop var body rounds a s = .done (.returned v) u
      ↔ ∃ i t, i < a + rounds ∧ CountRounds var body a s i t
        ∧ body (t.counting var i) = .done (.returned v) u := by
  constructor
  · intro h
    induction rounds generalizing a s with
    | zero => cases h
    | succ rounds ih =>
        rw [countLoop_round] at h
        split at h
        · rename_i t hagain
          obtain ⟨i, t', hi, hrounds, hbody⟩ := ih h
          exact ⟨i, t', by omega, .cons hagain hrounds, hbody⟩
        · exact ⟨a, s, by omega, .start, Outcome.eq_of_left_returned h⟩
  · rintro ⟨i, t, hi, hrounds, hbody⟩
    have hle := hrounds.le
    obtain ⟨m, rfl⟩ : ∃ m, rounds = (i - a).toNat + (m + 1) :=
      ⟨rounds - (i - a).toNat - 1, by omega⟩
    obtain ⟨hnone, hleft⟩ := again?_eq_none_of_returned hbody
    rw [hrounds.countLoop, countLoop_round, hnone]
    exact hleft.trans hbody

theorem execute_count_returned {line : Nat} {var : String} {range : Range}
    {body : Stmt} {s u : State} {v : Value} :
    execute budget (.count line var range body) s = .done (.returned v) u
      ↔ ∃ a b i t, evaluateRange s.memory range = .ok (a, b) ∧ i ≤ b.toInt
        ∧ CountRounds var (execute budget body) a.toInt s i t
        ∧ execute budget body (t.counting var i) = .done (.returned v) u := by
  simp only [execute]
  constructor
  · intro h
    split at h
    · cases h
    · rename_i a b hrange
      obtain ⟨i, t, hi, hrounds, hbody⟩ := countLoop_returned.mp h
      have hle := hrounds.le
      simp only [rangeSize] at hi
      exact ⟨a, b, i, t, hrange, by omega, hrounds, hbody⟩
  · rintro ⟨a, b, i, t, hrange, hi, hrounds, hbody⟩
    have hle := hrounds.le
    simp only [hrange]
    refine countLoop_returned.mpr ⟨i, t, ?_, hrounds, hbody⟩
    simp only [rangeSize]
    omega

end MatrixLang
