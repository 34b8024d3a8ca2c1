import MatrixLang.Proofs.Run.Visits
import MatrixLang.Proofs.Tensor.Room

/-!
# Where runs crash

Nothing crashes but a product of matrices for which there is no room. An expression
crashes exactly if its evaluation comes to such a product (`evaluate_crash`), which is
an induction on the expression; and the crash of a run is that of an expression in a
statement that the run comes to (`run_crash`).

Types do not matter for this, so what is known of the crashes of a step can be added to
what types say of its faults (`Stmt.Keeps.crowded`).
-/

namespace MatrixLang

variable {m : Memory} {c : Crash}

theorem Fault.onLine_ne_crash {α : Type} {line : Nat} {x : Except Fault α} :
    Fault.onLine line x ≠ .error (.crash c) := by
  cases x <;> exact nofun

/-- An operation that does not crash is behind a computation that may. -/
theorem bind_onLine_eq_crash {α β : Type} {line : Nat} {x : Except (Halt RunError) α}
    {f : α → Except Fault β} :
    (x >>= fun a => Fault.onLine line (f a)) = .error (.crash c) ↔ x = .error (.crash c) := by
  rw [bind_eq_error]
  exact or_iff_left fun ⟨_, _, h⟩ => Fault.onLine_ne_crash h

theorem Halt.onLine_eq_crash {α : Type} {line : Nat} {x : Except (Halt Fault) α} :
    Halt.onLine line x = .error (.crash c) ↔ x = .error (.crash c) := by
  cases x with
  | ok a => exact ⟨nofun, nofun⟩
  | error halt =>
      cases halt with
      | fault e => exact ⟨nofun, nofun⟩
      | crash d => exact ⟨fun h => by cases h; rfl, fun h => by cases h; rfl⟩

/-! ## Expressions -/

/-- The evaluation of an expression comes to a product for which there is no room. -/
inductive Expr.Crowded (m : Memory) : Expr → Prop
  | product {line : Nat} {op : BinaryOp} {l r : Expr} {v w : Value} :
      evaluate m l = .ok v → evaluate m r = .ok w → op.Crowded v w →
      Crowded m (.binary line op l r)
  | left {line : Nat} {op : BinaryOp} {l r : Expr} :
      Crowded m l → Crowded m (.binary line op l r)
  | right {line : Nat} {op : BinaryOp} {l r : Expr} {v : Value} :
      evaluate m l = .ok v → Crowded m r → Crowded m (.binary line op l r)
  | compareLeft {line : Nat} {op : Relation} {l r : Expr} :
      Crowded m l → Crowded m (.compare line op l r)
  | compareRight {line : Nat} {op : Relation} {l r : Expr} {v : Value} :
      evaluate m l = .ok v → Crowded m r → Crowded m (.compare line op l r)
  | item {line : Nat} {before after : List Expr} {e : Expr} {ns : List Number} :
      evaluateItems m before = .ok ns → Crowded m e →
      Crowded m (.vector line (before ++ e :: after))
  | row {line : Nat} {before after : List Expr} {e : Expr} {as : List Tensor} :
      evaluateRows m before = .ok as → Crowded m e →
      Crowded m (.matrix line (before ++ e :: after))
  | neg {line : Nat} {e : Expr} : Crowded m e → Crowded m (.neg line e)
  | transpose {line : Nat} {e : Expr} : Crowded m e → Crowded m (.transpose line e)

/-- Items crash where one of them does, behind others that are numbers. -/
theorem evaluateItems_eq_crash {es : List Expr} :
    evaluateItems m es = .error (.crash c) ↔ ∃ before e after ns, es = before ++ e :: after
      ∧ evaluateItems m before = .ok ns ∧ evaluate m e = .error (.crash c) := by
  simp only [evaluateItems_eq_mapM, mapM_eq_error, bind_onLine_eq_crash]

theorem evaluateRows_eq_crash {es : List Expr} :
    evaluateRows m es = .error (.crash c) ↔ ∃ before e after as, es = before ++ e :: after
      ∧ evaluateRows m before = .ok as ∧ evaluate m e = .error (.crash c) := by
  simp only [evaluateRows_eq_mapM, mapM_eq_error, bind_onLine_eq_crash]

theorem Expr.crowded_of_crash {e : Expr} (h : evaluate m e = .error (.crash c)) :
    e.Crowded m := by
  induction e with
  | int | float | str => cases h
  | read line p => exact absurd h Fault.onLine_ne_crash
  | binary line op l r ihl ihr =>
      rcases bind_eq_error.mp h with hl | ⟨v, hv, h⟩
      · exact .left (ihl hl)
      · rcases bind_eq_error.mp h with hr | ⟨w, hw, h⟩
        · exact .right hv (ihr hr)
        · exact .product hv hw (Value.operate_eq_crash.mp ⟨c, Halt.onLine_eq_crash.mp h⟩)
  | compare line op l r ihl ihr =>
      rcases bind_eq_error.mp h with hl | ⟨v, hv, h⟩
      · exact .compareLeft (ihl hl)
      · exact .compareRight hv (ihr (bind_onLine_eq_crash.mp h))
  | vector line items ih =>
      rcases bind_eq_error.mp h with hitems | ⟨ns, -, h⟩
      · obtain ⟨before, e, after, ns, rfl, hbefore, he⟩ := evaluateItems_eq_crash.mp hitems
        exact .item hbefore (ih e (List.mem_append_cons_self) he)
      · cases h
  | matrix line rows ih =>
      rcases bind_eq_error.mp h with hrows | ⟨as, -, h⟩
      · obtain ⟨before, e, after, as, rfl, hbefore, he⟩ := evaluateRows_eq_crash.mp hrows
        exact .row hbefore (ih e (List.mem_append_cons_self) he)
      · rcases bind_eq_error.mp h with h | ⟨a, -, h⟩
        · exact absurd h Fault.onLine_ne_crash
        · cases h
  | construct line f dims =>
      rcases bind_eq_error.mp h with h | ⟨a, -, h⟩
      · exact absurd h Fault.onLine_ne_crash
      · cases h
  | neg line e ih => exact .neg (ih (bind_onLine_eq_crash.mp h))
  | transpose line e ih => exact .transpose (ih (bind_onLine_eq_crash.mp h))

/-- **Where an expression crashes.** -/
theorem evaluate_crash {e : Expr} :
    (∃ c, evaluate m e = .error (.crash c)) ↔ e.Crowded m := by
  refine ⟨fun ⟨c, h⟩ => Expr.crowded_of_crash h, fun h => ?_⟩
  induction h with
  | product hl hr h =>
      obtain ⟨c, h⟩ := Value.operate_eq_crash.mpr h
      exact ⟨c, by simp only [evaluate, hl, hr, ok_bind, h, Halt.onLine_eq_crash]⟩
  | left _ ih | compareLeft _ ih | neg _ ih | transpose _ ih =>
      obtain ⟨c, h⟩ := ih
      exact ⟨c, by simp only [evaluate, h, error_bind]⟩
  | right hl _ ih | compareRight hl _ ih =>
      obtain ⟨c, h⟩ := ih
      exact ⟨c, by simp only [evaluate, hl, ok_bind, h, error_bind]⟩
  | @item line before after e ns hbefore _ ih =>
      obtain ⟨c, h⟩ := ih
      have hitems := evaluateItems_eq_crash.mpr ⟨before, e, after, ns, rfl, hbefore, h⟩
      exact ⟨c, by simp only [evaluate, hitems, error_bind]⟩
  | @row line before after e as hbefore _ ih =>
      obtain ⟨c, h⟩ := ih
      have hrows := evaluateRows_eq_crash.mpr ⟨before, e, after, as, rfl, hbefore, h⟩
      exact ⟨c, by simp only [evaluate, hrows, error_bind]⟩

/-! ## Steps -/

/-- An expression of the statement itself comes to a product for which there is no
room. -/
def Stmt.Crowded (m : Memory) (stmt : Stmt) : Prop := ∃ e ∈ stmt.exprs, e.Crowded m

section

variable {s : State} {line : Nat}

theorem assign_crash {op : AssignOp} {p : Place} {e : Expr}
    (h : assign line op p e s = .error (.crash c)) :
    (Stmt.assign line op p e).Crowded s.memory := by
  rcases bind_eq_error.mp h with h | ⟨v, -, h⟩
  · exact ⟨e, List.mem_cons_self, Expr.crowded_of_crash h⟩
  · rcases bind_eq_error.mp h with h | ⟨m, -, h⟩
    · exact absurd h Fault.onLine_ne_crash
    · cases h

theorem print_crash {values : List Expr} (h : print values s = .error (.crash c)) :
    (Stmt.print line values).Crowded s.memory := by
  rcases bind_eq_error.mp h with h | ⟨text, -, h⟩
  · rcases bind_eq_error.mp h with h | ⟨vs, -, h⟩
    · obtain ⟨before, e, after, vs, rfl, -, he⟩ := mapM_eq_error.mp h
      exact ⟨e, List.mem_append_cons_self, Expr.crowded_of_crash he⟩
    · cases h
  · cases h

theorem holds_crash {test : Expr} (h : holds m test = .error (.crash c)) : test.Crowded m :=
  Expr.crowded_of_crash (bind_onLine_eq_crash.mp h)

theorem evaluateRange_crash {range : Range} (h : evaluateRange m range = .error (.crash c)) :
    ∃ e ∈ [range.start, range.stop], e.Crowded m := by
  rcases bind_eq_error.mp h with h | ⟨v, -, h⟩
  · exact ⟨_, List.mem_cons_self, Expr.crowded_of_crash h⟩
  · exact ⟨_, List.mem_cons_of_mem _ List.mem_cons_self,
      Expr.crowded_of_crash (bind_onLine_eq_crash.mp h)⟩

end

/-- Whatever the faults of a step are, its crashes are where there is no room. -/
theorem Stmt.Keeps.crowded {I : State → Prop} {F : Stmt → RunError → Prop} {stmt : Stmt}
    (h : stmt.Keeps I fun stmt _ => Halt.Permitted (F stmt) True) :
    stmt.Keeps I fun stmt s => Halt.Permitted (F stmt) (stmt.Crowded s.memory) := by
  intro s hs
  have hstep := h s hs
  cases stmt with
  | assign line op p e => exact hstep.crashing fun c => assign_crash
  | print line values => exact hstep.crashing fun c => print_crash
  | ret line e =>
      exact hstep.crashing fun c hc => ⟨e, List.mem_cons_self, Expr.crowded_of_crash hc⟩
  | branch line test yes no =>
      exact hstep.crashing fun c hc => ⟨test, List.mem_cons_self, holds_crash hc⟩
  | loop line test body =>
      exact hstep.crashing fun c hc => ⟨test, List.mem_cons_self, holds_crash hc⟩
  | count line var range body =>
      exact ⟨hstep.1.crashing fun c => evaluateRange_crash, hstep.2⟩
  | block | break_ | continue_ => trivial

/-! ## Runs -/

theorem Stmt.keeps_nothing (stmt : Stmt) :
    stmt.Keeps (fun _ => True) fun _ _ => Halt.Permitted (fun _ => True) True := by
  have hsettles : ∀ {α : Type} {P : α → Prop} (x : Except (Halt RunError) α), (∀ a, P a) →
      Settles (Halt.Permitted (fun _ => True) True) P x := by
    intro α P x hP
    cases x with
    | ok a => exact hP a
    | error halt => cases halt <;> trivial
  intro s _
  cases stmt with
  | count line var range body => exact ⟨hsettles _ fun _ => trivial, fun _ => trivial⟩
  | assign | print | ret | branch | loop => exact hsettles _ fun _ => trivial
  | block | break_ | continue_ => trivial

/-- **Where a run crashes.** A statement that the run comes to has an expression of its
own which, in the state that was reached, comes to a product for which there is no
room. -/
theorem run_crash {budget : Nat} {p : Program} {t : State}
    (h : runFrom budget m p = .halted (.crash c) t) :
    ∃ stmt, Visits budget (.block 0 p) ⟨m, .empty⟩ stmt t
      ∧ execute budget stmt t = .halted (.crash c) t ∧ stmt.Crowded t.memory := by
  have hkeeps : ∀ part ∈ (Stmt.block 0 p).parts, part.Keeps (fun _ => True)
      fun stmt s => Halt.Permitted (fun _ => True) (stmt.Crowded s.memory) :=
    fun part _ => part.keeps_nothing.crowded
  have hsafe := execute_safe budget hkeeps (s := ⟨m, .empty⟩) trivial
  have hexec : execute budget (.block 0 p) ⟨m, .empty⟩ = .halted (.crash c) t := by
    simp only [execute]
    exact h
  rw [hexec] at hsafe
  exact hsafe.2

end MatrixLang
