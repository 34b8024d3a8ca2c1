import MatrixLang.Proofs.Run.Visits
import MatrixLang.Proofs.Scopes

/-!
# What a run leaves alone

A program writes variables by assignments and by the counters of its loops, and
all of these go through `Scopes.assign`. So a run takes no binding away, adds new
names only to the innermost scope and only if they were bound nowhere, and of
several bindings of one name changes the innermost one at most
(`Scopes.Touched`).

That a write touches no more than this is a fact about scopes
(`Scopes.Touched.assign`). `Touched` can be composed, so it is an invariant of a
run, relative to the scopes at its start (`run_touched`).
-/

namespace MatrixLang

namespace Scopes

variable {α : Type} {s t u : Scopes α}

/-! ## Bindings by position -/

/-- What the scope at a position binds a name to. The innermost scope is at
position zero. -/
def binding? (s : Scopes α) (i : Nat) (name : String) : Option α :=
  s.toList[i]?.bind (·.get? name)

theorem get?_eq_none {name : String} :
    s.get? name = none ↔ ∀ i, s.binding? i name = none := by
  rw [get?, lookupIn_eq_none]
  constructor
  · intro h i
    cases hi : s.toList[i]? with
    | none => rw [binding?, hi]; rfl
    | some scope =>
        rw [binding?, hi]
        exact h scope (List.mem_of_getElem? hi)
  · intro h scope hscope
    obtain ⟨i, hi⟩ := List.mem_iff_getElem?.mp hscope
    have hnone := h i
    rw [binding?, hi] at hnone
    exact hnone

/-- An assignment changes one binding. No scope further in has the name, and if
it was not bound there before then it was bound nowhere. -/
theorem binding?_assign (s : Scopes α) (name : String) (value : α) :
    ∃ i, (∀ j x, (s.assign name value).binding? j x
        = if i = j ∧ name = x then some value else s.binding? j x)
      ∧ (∀ j < i, s.binding? j name = none)
      ∧ ((s.binding? i name).isSome = true ∨ s.get? name = none ∧ i = 0) := by
  obtain ⟨before, scope, after, hs, hassign, hbefore, hscope⟩ :=
    toList_assign s name value
  refine ⟨before.length, fun j x => ?_, fun j hj => ?_, ?_⟩
  · simp only [binding?, hassign, hs, List.getElem?_append, List.getElem?_cons]
    rcases Nat.lt_trichotomy j before.length with hj | rfl | hj
    · simp [hj, Nat.ne_of_gt hj]
    · simp [Scope.get?_insert]
    · have hne : ¬j - before.length = 0 := by omega
      simp [Nat.not_lt_of_gt hj, hne, Nat.ne_of_lt hj]
  · simp only [binding?, hs, List.getElem?_append_left hj, List.getElem?_eq_getElem hj]
    exact hbefore _ (List.getElem_mem hj)
  · have hhere : s.binding? before.length name = scope.get? name := by
      simp [binding?, hs]
    rw [hhere]
    exact hscope.imp_right fun h => ⟨h.1, by rw [h.2]; rfl⟩

/-! ## What writing touches -/

/-- From `s` to `t` at most the names `written` were written, of which at most
the names `bound` got a binding that they did not have. -/
structure Touched (bound written : List String) (s t : Scopes α) : Prop where
  /-- The scopes are the same ones. -/
  names : t.toList.map Scope.name = s.toList.map Scope.name
  /-- No binding is taken away. -/
  kept : ∀ i x, (s.binding? i x).isSome = true → (t.binding? i x).isSome = true
  /-- New bindings are in the innermost scope, of names that were bound nowhere. -/
  gained : ∀ i x, s.binding? i x = none → (t.binding? i x).isSome = true →
    i = 0 ∧ x ∈ bound ∧ s.get? x = none
  /-- What is not written has its value in every scope. -/
  unwritten : ∀ x, x ∉ written → ∀ i, t.binding? i x = s.binding? i x
  /-- Behind a binding of a name, the others are not changed. -/
  shadowed : ∀ i j x, (s.binding? i x).isSome = true → i < j →
    t.binding? j x = s.binding? j x

namespace Touched

variable {bound written : List String}

theorem refl (bound written : List String) (s : Scopes α) :
    s.Touched bound written s where
  names := rfl
  kept := fun _ _ h => h
  gained := fun i x hnone hsome => by rw [hnone] at hsome; cases hsome
  unwritten := fun _ _ _ => rfl
  shadowed := fun _ _ _ _ _ => rfl

theorem get?_eq_none (h : s.Touched bound written t) {x : String}
    (hx : t.get? x = none) : s.get? x = none := by
  refine Scopes.get?_eq_none.mpr fun i => ?_
  have hnone := Scopes.get?_eq_none.mp hx i
  cases hs : s.binding? i x with
  | none => rfl
  | some a =>
      have hsome := h.kept i x (by rw [hs]; rfl)
      rw [hnone] at hsome
      cases hsome

theorem trans (hst : s.Touched bound written t) (htu : t.Touched bound written u) :
    s.Touched bound written u where
  names := htu.names.trans hst.names
  kept := fun i x h => htu.kept i x (hst.kept i x h)
  gained := fun i x hnone hsome => by
    cases ht : t.binding? i x with
    | some a => exact hst.gained i x hnone (by rw [ht]; rfl)
    | none =>
        obtain ⟨hi, hx, hget⟩ := htu.gained i x ht hsome
        exact ⟨hi, hx, hst.get?_eq_none hget⟩
  unwritten := fun x hx i => (htu.unwritten x hx i).trans (hst.unwritten x hx i)
  shadowed := fun i j x h hij =>
    (htu.shadowed i j x (hst.kept i x h) hij).trans (hst.shadowed i j x h hij)

/-- An assignment touches the binding that it writes. A name that has none yet
must be among those that may be bound. -/
theorem assign {name : String} (value : α) (hwritten : name ∈ written)
    (hbound : name ∈ bound ∨ s.get? name ≠ none) :
    s.Touched bound written (s.assign name value) := by
  obtain ⟨i, hassign, hinner, hhere⟩ := binding?_assign s name value
  constructor
  case names =>
      obtain ⟨before, scope, after, hs, ht, -⟩ := toList_assign s name value
      simp [hs, ht, Scope.insert]
  case kept =>
      intro j x h
      rw [hassign]
      split
      · rfl
      · exact h
  case gained =>
      intro j x hnone hsome
      rw [hassign] at hsome
      split at hsome
      · rename_i heq
        obtain ⟨rfl, rfl⟩ := heq
        rcases hhere with hhere | ⟨hnowhere, hi⟩
        · rw [hnone] at hhere
          cases hhere
        · exact ⟨hi, hbound.resolve_right fun h => h hnowhere, hnowhere⟩
      · rw [hnone] at hsome
        cases hsome
  case unwritten =>
      intro x hx j
      rw [hassign, if_neg]
      rintro ⟨-, rfl⟩
      exact hx hwritten
  case shadowed =>
      intro j k x h hjk
      rw [hassign, if_neg]
      rintro ⟨rfl, rfl⟩
      rw [hinner j hjk] at h
      cases h

end Touched

end Scopes

/-! ## The names that a program writes -/

namespace Stmt

/-- The name that a statement binds if nothing binds it. -/
def binder? : Stmt → Option String
  | .assign _ _ (.var name) _ | .count _ name _ _ => some name
  | _ => none

/-- The name that a statement writes, by itself. An element belongs to the
variable that holds it. -/
def target? : Stmt → Option String
  | .assign _ _ p _ => some p.name
  | .count _ name _ _ => some name
  | _ => none

end Stmt

namespace Program

/-- The variables that are assigned, and those that count loops. -/
def binders (p : Program) : List String := (Stmt.partsAll p).filterMap Stmt.binder?

/-- All that is written, with the variables of which an element is assigned. -/
def targets (p : Program) : List String := (Stmt.partsAll p).filterMap Stmt.target?

end Program

/-! ## Steps -/

/-- A write assigns a variable. Only a whole variable need not be there. -/
theorem Memory.write_eq_ok {m m' : Memory} {op : AssignOp} {p : Place} {v : Value}
    (h : m.write op p v = .ok m') :
    ∃ w, m' = m.assign p.name w ∧ (p = .var p.name ∨ m.get? p.name ≠ none) := by
  have hupdate : ∀ {name change}, m.update name change = .ok m' →
      ∃ w, m' = m.assign name w ∧ m.get? name ≠ none := by
    intro name change h
    unfold update at h
    split at h
    · rename_i hget
      obtain ⟨b, -, hb⟩ := bind_eq_ok.mp h
      cases hb
      exact ⟨_, rfl, by rw [hget]; exact nofun⟩
    · cases h
    · cases h
  cases p with
  | var name =>
      obtain ⟨w, -, hw⟩ := bind_eq_ok.mp h
      cases hw
      exact ⟨w, rfl, .inl rfl⟩
  | item name i =>
      obtain ⟨w, hw, hget⟩ := hupdate h
      exact ⟨w, hw, .inr hget⟩
  | cell name i j =>
      obtain ⟨w, hw, hget⟩ := hupdate h
      exact ⟨w, hw, .inr hget⟩

theorem Fault.onLine_eq_ok {α : Type} {line : Nat} {x : Except Fault α} {a : α} :
    Fault.onLine line x = .ok a ↔ x = .ok a := by
  cases x <;> simp [Fault.onLine]

section

variable {bound written : List String} {m : Memory}

/-- A step of a statement touches what the statement writes. -/
theorem Stmt.keeps_touched {stmt : Stmt}
    (hbound : ∀ x ∈ stmt.binder?, x ∈ bound)
    (hwritten : ∀ x ∈ stmt.target?, x ∈ written) :
    stmt.Keeps (fun s => m.Touched bound written s.memory) (fun _ _ _ => True) := by
  intro s hs
  cases stmt with
  | assign line op p e =>
      refine Settles.of_ok fun t ht => ?_
      obtain ⟨v, -, ht⟩ := bind_eq_ok.mp ht
      obtain ⟨m', hm', ht⟩ := bind_eq_ok.mp ht
      cases ht
      obtain ⟨w, rfl, hp⟩ := Memory.write_eq_ok (Fault.onLine_eq_ok.mp hm')
      refine hs.trans (.assign w (hwritten _ rfl) ?_)
      refine hp.imp_left fun hvar => hbound _ ?_
      rw [hvar]
      rfl
  | print line values =>
      refine Settles.of_ok fun t ht => ?_
      obtain ⟨text, -, ht⟩ := bind_eq_ok.mp ht
      cases ht
      exact hs
  | count line var range body =>
      refine ⟨Settles.of_ok fun _ _ => trivial, fun i => ?_⟩
      exact hs.trans (.assign _ (hwritten _ rfl) (.inl (hbound _ rfl)))
  | ret | branch | loop => exact Settles.of_ok fun _ _ => trivial
  | block | break_ | continue_ => trivial

end

/-! ## Runs -/

theorem Outcome.Safe.reached {I : State → Prop} {C : Halt RunError → State → Prop}
    {o : Outcome} (h : o.Safe I C) : I o.state := by
  cases o with
  | done signal t | cutOff t => exact h
  | halted halt t => exact h.1

/-- **A run touches only what it writes.** However it ends, and in every state on
its way, the scopes are those of the start but for the bindings that the
program's assignments and loops write. -/
theorem run_touched (budget : Nat) (m : Memory) (p : Program) :
    (∀ stmt t, Visits budget (.block 0 p) ⟨m, .empty⟩ stmt t →
      m.Touched p.binders p.targets t.memory)
    ∧ m.Touched p.binders p.targets (runFrom budget m p).state.memory := by
  have hkeeps : ∀ part ∈ (Stmt.block 0 p).parts,
      part.Keeps (fun s => m.Touched p.binders p.targets s.memory)
        (fun _ _ _ => True) := by
    intro part hpart
    rcases List.mem_cons.mp hpart with rfl | hpart
    · exact fun _ _ => trivial
    · refine Stmt.keeps_touched (fun x hx => ?_) (fun x hx => ?_)
      · exact List.mem_filterMap.mpr ⟨part, hpart, hx⟩
      · exact List.mem_filterMap.mpr ⟨part, hpart, hx⟩
  have hstart : m.Touched p.binders p.targets m := .refl _ _ m
  refine ⟨fun stmt t hvisit => hvisit.invariant hkeeps hstart, ?_⟩
  have hsafe := execute_safe budget hkeeps (s := ⟨m, .empty⟩) hstart
  simp only [execute] at hsafe
  exact hsafe.reached

end MatrixLang
