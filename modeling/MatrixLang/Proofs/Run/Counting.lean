import MatrixLang.Proofs.Run.Visits
import MatrixLang.Proofs.Scopes

/-!
# Loops over a range

A `for` loop goes once through the integers of its range, which is evaluated before
the first round: `iterate` says this for a list. `countLoop` counts with integers
that have no bound; a machine counts with 64 bits, and its counter (`Counter`) must
neither overflow nor go on when the last of the integers is the greatest that there
is. The three are shown to be the same by induction on the number of integers that
are left, with one lemma for a round of each (`countLoop_eq_iterate`,
`Counter.run_eq_iterate`).

The rounds of a loop are listed too (`rounds`), since a body that leaves the loop
early is not run for the rest of the integers.
-/

namespace MatrixLang

/-! ## Integers of a range -/

/-- `count` integers from `i` on. -/
def integersFrom (i : Int) (count : Nat) : List Int64 :=
  (List.range count).map fun k : Nat => Int64.ofInt (i + k)

theorem integersFrom_succ (i : Int) (count : Nat) :
    integersFrom i (count + 1) = Int64.ofInt i :: integersFrom (i + 1) count := by
  simp only [integersFrom, List.range_succ_eq_map, List.map_cons, List.map_map]
  refine congr (congrArg _ (by simp)) (List.map_congr_left fun k _ => ?_)
  simp only [Function.comp, Nat.succ_eq_add_one]
  congr 1
  omega

theorem rangeValues_eq (a b : Int64) :
    rangeValues a b = integersFrom a.toInt (rangeSize a b) := by
  rw [rangeValues, rangeFront, Nat.min_self]
  rfl

/-- No integer of a range is out of the range of its bounds, so that none wraps
around. -/
theorem toInt_rangeValues (a b : Int64) :
    (rangeValues a b).map Int64.toInt
      = (List.range (b.toInt - a.toInt + 1).toNat).map fun k : Nat => a.toInt + k := by
  rw [rangeValues_eq, integersFrom, List.map_map]
  refine List.map_congr_left fun k hk => ?_
  have hk : k < (b.toInt - a.toInt + 1).toNat := List.mem_range.mp hk
  have hlow := a.le_toInt
  have hhigh := b.toInt_lt
  exact Int64.toInt_ofInt_of_le (by omega) (by omega)

/-! ## Iterating -/

/-- The variable of a loop has its value, and the body is about to start. -/
def State.bound (s : State) (var : String) (i : Int64) : State :=
  { s with memory := s.memory.assign var (.int i) }

/-- Runs a body once for each integer of a list. -/
def iterate (var : String) (body : State → Outcome) : List Int64 → State → Outcome
  | [], s => .done .normal s
  | i :: rest, s =>
      match body (s.bound var i) with
      | .done .normal t => iterate var body rest t
      | .done .continue_ t => iterate var body rest t
      | .done .break_ t => .done .normal t
      | o => o

/-- The integers for which the body is run, and the states in which it starts. -/
def rounds (var : String) (body : State → Outcome) :
    List Int64 → State → List (Int64 × State)
  | [], _ => []
  | i :: rest, s =>
      (i, s.bound var i) :: match (body (s.bound var i)).again? with
        | some t => rounds var body rest t
        | none => []

section Iterate

variable {var : String} {body : State → Outcome} {i : Int64} {rest l : List Int64}
  {s : State}

theorem iterate_cons :
    iterate var body (i :: rest) s =
      match (body (s.bound var i)).again? with
      | some t => iterate var body rest t
      | none => (body (s.bound var i)).left := by
  rw [iterate]
  cases body (s.bound var i) with
  | done signal t => cases signal <;> rfl
  | halted halt t | cutOff t => rfl

theorem countLoop_eq_iterate (count : Nat) (i : Int) (s : State) :
    countLoop var body count i s = iterate var body (integersFrom i count) s := by
  induction count generalizing i s with
  | zero => rfl
  | succ count ih =>
      rw [countLoop_round, integersFrom_succ, iterate_cons]
      simp only [ih]
      rfl

theorem rounds_values (l : List Int64) (s : State) :
    (rounds var body l s).map Prod.fst <+: l := by
  induction l generalizing s with
  | nil => exact List.prefix_rfl
  | cons i rest ih =>
      rw [rounds, List.map_cons, List.cons_prefix_cons]
      refine ⟨rfl, ?_⟩
      split
      · exact ih _
      · exact List.nil_prefix

/-- The variable has its value when a round starts, whatever was done to it before. -/
theorem rounds_bound {r : Int64 × State} (h : r ∈ rounds var body l s) :
    r.2.memory.get? var = some (.int r.1) := by
  induction l generalizing s with
  | nil => cases h
  | cons i rest ih =>
      rw [rounds, List.mem_cons] at h
      rcases h with rfl | h
      · simp only [State.bound, Scopes.get?_assign, if_true]
      · split at h
        · exact ih h
        · cases h

/-- A loop that no round leaves goes through the whole list. -/
theorem rounds_all (h : ∀ r ∈ rounds var body l s, (body r.2).again?.isSome) :
    (rounds var body l s).map Prod.fst = l ∧ ∃ t, iterate var body l s = .done .normal t := by
  induction l generalizing s with
  | nil => exact ⟨rfl, s, rfl⟩
  | cons i rest ih =>
      rw [rounds] at h
      obtain ⟨hround, hrest⟩ := List.forall_mem_cons.mp h
      obtain ⟨t, ht⟩ := Option.isSome_iff_exists.mp hround
      simp only [ht] at hrest
      obtain ⟨hvalues, u, hu⟩ := ih hrest
      rw [rounds, iterate_cons]
      simp only [ht, List.map_cons, hvalues, hu]
      exact ⟨trivial, u, rfl⟩

/-- A loop ends as its last round leaves it. -/
theorem iterate_last (l : List Int64) (s : State) :
    iterate var body l s =
      match (rounds var body l s).getLast? with
      | none => .done .normal s
      | some r =>
          match (body r.2).again? with
          | some t => .done .normal t
          | none => (body r.2).left := by
  induction l generalizing s with
  | nil => rfl
  | cons i rest ih =>
      rw [iterate_cons, rounds, List.getLast?_cons]
      cases hbody : (body (s.bound var i)).again? with
      | none => simp only [List.getLast?_nil, Option.getD_none, hbody]
      | some t =>
          simp only [ih t]
          cases (rounds var body rest t).getLast? with
          | none => simp only [Option.getD_none, hbody]
          | some r => rfl

end Iterate

/-! ## Counting with 64 bits -/

/-- A machine's place in a range: the next integer, and whether the last one was
given. The flag spares a step beyond the last one, which there may be none. -/
structure Counter where
  current : Int64
  last : Int64
  exhausted : Bool

namespace Counter

/-- What a counter gives when it is asked for the next integer. -/
inductive Step where
  | over
  /-- The integer after the current one does not fit. -/
  | overflow
  | integer (i : Int64) (next : Counter)

def start (a b : Int64) : Counter := ⟨a, b, false⟩

def step (c : Counter) : Step :=
  if c.exhausted ∨ c.last.toInt < c.current.toInt then .over
  else if c.current.toInt = c.last.toInt then .integer c.current { c with exhausted := true }
  else if c.current.toInt = Int64.maxValue.toInt then .overflow
  else .integer c.current { c with current := Int64.ofInt (c.current.toInt + 1) }

/-- How many integers a counter still has. -/
def remaining (c : Counter) : Nat :=
  if c.exhausted then 0 else rangeSize c.current c.last

/-- The integers that a counter still has. -/
def integers (c : Counter) : List Int64 := integersFrom c.current.toInt c.remaining

theorem step_of_remaining_zero {c : Counter} (h : c.remaining = 0) : c.step = .over := by
  refine if_pos ?_
  simp only [remaining, rangeSize] at h
  split at h
  · exact .inl ‹_›
  · exact .inr (by omega)

/-- A counter that is not over gives its current integer and keeps the others. It does
not overflow: an integer before the last one is not the greatest. -/
theorem step_of_remaining {c : Counter} {count : Nat} (h : c.remaining = count + 1) :
    ∃ next, c.step = .integer c.current next ∧ next.remaining = count
      ∧ next.integers = integersFrom (c.current.toInt + 1) count := by
  obtain ⟨current, last, exhausted⟩ := c
  cases exhausted with
  | true => cases h
  | false =>
      replace h : rangeSize current last = count + 1 := h
      simp only [rangeSize] at h
      have hgoing : ¬(false = true ∨ last.toInt < current.toInt) := by simp; omega
      simp only [step, if_neg hgoing]
      split
      · -- At the last integer nothing is added: it may be the greatest.
        have hcount : count = 0 := by omega
        subst hcount
        exact ⟨_, rfl, rfl, rfl⟩
      · have hlow := current.le_toInt
        have hhigh := last.toInt_le
        have hnext : (Int64.ofInt (current.toInt + 1)).toInt = current.toInt + 1 :=
          Int64.toInt_ofInt_of_le (by omega) (by have := last.toInt_lt; omega)
        have hleft : remaining ⟨Int64.ofInt (current.toInt + 1), last, false⟩ = count := by
          simp only [remaining, rangeSize, hnext, Bool.false_eq_true, if_false]
          omega
        rw [if_neg (by omega)]
        exact ⟨_, rfl, hleft, by rw [integers, hleft, hnext]⟩

theorem remaining_lt {c next : Counter} {i : Int64} (h : c.step = .integer i next) :
    next.remaining < c.remaining := by
  cases hcount : c.remaining with
  | zero =>
      rw [step_of_remaining_zero hcount] at h
      cases h
  | succ count =>
      obtain ⟨next', hstep, hleft, -⟩ := step_of_remaining hcount
      cases hstep.symm.trans h
      omega

/-- The loop of a machine. It gives nothing if the counter overflows. -/
def run (var : String) (body : State → Outcome) (c : Counter) (s : State) : Option Outcome :=
  match _ : c.step with
  | .over => some (.done .normal s)
  | .overflow => none
  | .integer i next =>
      match body (s.bound var i) with
      | .done .normal t => next.run var body t
      | .done .continue_ t => next.run var body t
      | .done .break_ t => some (.done .normal t)
      | o => some o
termination_by c.remaining
decreasing_by all_goals exact remaining_lt ‹_›

theorem run_over {var : String} {body : State → Outcome} {c : Counter} {s : State}
    (h : c.step = .over) : c.run var body s = some (.done .normal s) := by
  rw [run]
  split <;> simp_all

theorem run_integer {var : String} {body : State → Outcome} {c next : Counter} {i : Int64}
    {s : State} (h : c.step = .integer i next) :
    c.run var body s =
      match (body (s.bound var i)).again? with
      | some t => next.run var body t
      | none => some (body (s.bound var i)).left := by
  rw [run]
  split
  · simp_all
  · simp_all
  · rename_i i' next' h'
    cases h.symm.trans h'
    cases body (s.bound var i) with
    | done signal t => cases signal <;> rfl
    | halted halt t | cutOff t => rfl

theorem run_eq_iterate (var : String) (body : State → Outcome) (c : Counter) (s : State) :
    c.run var body s = some (iterate var body c.integers s) := by
  generalize hcount : c.remaining = count
  induction count generalizing c s with
  | zero =>
      rw [run_over (step_of_remaining_zero hcount), integers, hcount]
      rfl
  | succ count ih =>
      obtain ⟨next, hstep, hleft, hintegers⟩ := step_of_remaining hcount
      rw [run_integer hstep, integers, hcount, integersFrom_succ, Int64.ofInt_toInt,
        ← hintegers, iterate_cons]
      cases (body (s.bound var c.current)).again? with
      | none => rfl
      | some t => exact ih next t hleft

end Counter

/-! ## Loops -/

/-- **Loops over a range.** A `for` loop is evaluated to bounds once, and then iterates
over the integers from one up to the other: so does a machine that counts with 64 bits,
also up to the greatest integer that there is. The rounds that take place are those of
the first of these integers, each with the variable at its value, and the loop ends as
the last of them leaves it. Unless one of them leaves the loop they are those of all. -/
theorem count_iterates {budget line : Nat} {var : String} {range : Range} {body : Stmt}
    {s : State} {v w : Value} {a b : Int64}
    (hstart : evaluate s.memory range.start = .ok v)
    (hstop : evaluate s.memory range.stop = .ok w) (hbounds : Value.bounds v w = .ok (a, b)) :
    let loop := execute budget (.count line var range body) s
    let started := rounds var (execute budget body) (rangeValues a b) s
    loop = iterate var (execute budget body) (rangeValues a b) s
      ∧ (rangeValues a b).map Int64.toInt
        = ((List.range (b.toInt - a.toInt + 1).toNat).map fun k : Nat => a.toInt + k)
      ∧ (Counter.start a b).run var (execute budget body) s = some loop
      ∧ started.map Prod.fst <+: rangeValues a b
      ∧ (∀ r ∈ started, r.2.memory.get? var = some (.int r.1))
      ∧ (loop = match started.getLast? with
        | none => .done .normal s
        | some r =>
            match (execute budget body r.2).again? with
            | some t => .done .normal t
            | none => (execute budget body r.2).left)
      ∧ ((∀ r ∈ started, (execute budget body r.2).again?.isSome) →
        started.length = (b.toInt - a.toInt + 1).toNat ∧ ∃ t, loop = .done .normal t)
      ∧ (b.toInt < a.toInt → loop = .done .normal s) := by
  have hrange : evaluateRange s.memory range = .ok (a, b) := by
    rw [evaluateRange, hstart, ok_bind, hstop, ok_bind, hbounds]
    rfl
  have hloop : execute budget (.count line var range body) s
      = iterate var (execute budget body) (rangeValues a b) s := by
    simp only [execute, hrange]
    rw [countLoop_eq_iterate, rangeValues_eq]
  have hmachine : (Counter.start a b).integers = rangeValues a b := (rangeValues_eq a b).symm
  intro loop started
  refine ⟨hloop, toInt_rangeValues a b, ?_, rounds_values _ s, fun r => rounds_bound,
    hloop.trans (iterate_last _ s), fun hall => ?_, fun hempty => ?_⟩
  · rw [Counter.run_eq_iterate, hmachine]
    exact congrArg some hloop.symm
  · obtain ⟨hvalues, t, ht⟩ := rounds_all hall
    refine ⟨?_, t, hloop.trans ht⟩
    rw [← List.length_map Prod.fst, hvalues, ← List.length_map Int64.toInt, toInt_rangeValues,
      List.length_map, List.length_range]
  · have hsize : rangeSize a b = 0 := by
      simp only [rangeSize]
      omega
    refine hloop.trans ?_
    rw [rangeValues_eq, hsize]
    rfl

/-- A body that writes the variable of its loop and the one that bounds it. -/
def overwriting : Stmt :=
  .block 2 [.assign 2 .set (.var "n") (.int 2 0), .assign 3 .set (.var "i") (.int 3 0)]

/-- The two greatest integers are counted, and none after them. -/
theorem count_iterates_greatest :
    let s : State := ⟨Memory.initial.assign "n" (.int Int64.maxValue), .empty⟩
    let range : Range := ⟨1, .int 1 (Int64.maxValue - 1), .read 1 (.var "n")⟩
    let greatest := rangeValues (Int64.maxValue - 1) Int64.maxValue
    (rounds "i" (execute 0 overwriting) greatest s).length = 2
      ∧ ∃ t, execute 0 (.count 1 "i" range overwriting) s = .done .normal t
        ∧ (Counter.start (Int64.maxValue - 1) Int64.maxValue).run "i" (execute 0 overwriting) s
          = some (.done .normal t) := by
  intro s range greatest
  have hstart : evaluate s.memory range.start = .ok (.int (Int64.maxValue - 1)) := rfl
  have hstop : evaluate s.memory range.stop = .ok (.int Int64.maxValue) := rfl
  obtain ⟨-, -, hmachine, -, -, -, hall, -⟩ :=
    @count_iterates 0 1 "i" range overwriting s _ _ _ _ hstart hstop rfl
  obtain ⟨hlength, t, ht⟩ := hall fun r _ => rfl
  exact ⟨hlength, t, ht, hmachine.trans (congrArg some ht)⟩

end MatrixLang
