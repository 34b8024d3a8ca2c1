import MatrixLang.Value.Fault

/-!
# Computations that may fail

How the results of `Except` are taken apart: a sequence that succeeded did so in
both of its parts (`bind_eq_ok`), one that failed did so in its first part or
after it (`bind_eq_error`), and a sequence settles if each part does
(`Settles.bind`), where to settle is to give a wanted result or to fail in a
permitted way. Where a computation may fault or crash, the two are permitted apart
from each other (`Halt.Permitted`).
-/

namespace MatrixLang

variable {ε α β : Type}

@[simp] theorem ok_bind (a : α) (f : α → Except ε β) :
    (Except.ok a >>= f) = f a := rfl

@[simp] theorem error_bind (e : ε) (f : α → Except ε β) :
    (Except.error e >>= f) = .error e := rfl

theorem bind_eq_ok {x : Except ε α} {f : α → Except ε β} {b : β} :
    x >>= f = .ok b ↔ ∃ a, x = .ok a ∧ f a = .ok b := by
  cases x with
  | error e => simp
  | ok a => simp

theorem bind_eq_error {x : Except ε α} {f : α → Except ε β} {e : ε} :
    x >>= f = .error e ↔ x = .error e ∨ ∃ a, x = .ok a ∧ f a = .error e := by
  cases x with
  | error e' => simp
  | ok a => simp

/-- A traversal succeeds if it does so at all elements. -/
theorem mapM_eq_ok {f : α → Except ε β} {l : List α} (h : ∀ a ∈ l, ∃ b, f a = .ok b) :
    ∃ bs, l.mapM f = .ok bs := by
  induction l with
  | nil => exact ⟨[], rfl⟩
  | cons a rest ih =>
      obtain ⟨⟨b, hb⟩, hrest⟩ := List.forall_mem_cons.mp h
      obtain ⟨bs, hbs⟩ := ih hrest
      exact ⟨b :: bs, by rw [List.mapM_cons, hb, ok_bind, hbs]; rfl⟩

/-- A traversal fails where an element does behind others that do not. -/
theorem mapM_eq_error {f : α → Except ε β} {l : List α} {e : ε} :
    l.mapM f = .error e ↔ ∃ before a after bs, l = before ++ a :: after
      ∧ before.mapM f = .ok bs ∧ f a = .error e := by
  induction l with
  | nil => simp [Pure.pure, Except.pure]
  | cons x rest ih =>
      rw [List.mapM_cons, bind_eq_error]
      constructor
      · rintro (hx | ⟨b, hb, h⟩)
        · exact ⟨[], x, rest, [], rfl, rfl, hx⟩
        · rcases bind_eq_error.mp h with hrest | ⟨bs, -, h⟩
          · obtain ⟨before, a, after, bs, rfl, hbefore, ha⟩ := ih.mp hrest
            refine ⟨x :: before, a, after, b :: bs, rfl, ?_, ha⟩
            rw [List.mapM_cons, hb, ok_bind, hbefore]
            rfl
          · cases h
      · rintro ⟨before, a, after, bs, hl, hbefore, ha⟩
        cases before with
        | nil =>
            cases hl
            exact .inl ha
        | cons y before =>
            cases hl
            rw [List.mapM_cons] at hbefore
            obtain ⟨b, hb, h⟩ := bind_eq_ok.mp hbefore
            obtain ⟨bs', hbefore, -⟩ := bind_eq_ok.mp h
            exact .inr ⟨b, hb, bind_eq_error.mpr
              (.inl (ih.mpr ⟨before, a, after, bs', rfl, hbefore, ha⟩))⟩

/-- The failures of a sequence are those of its parts. -/
theorem mapError_bind {ε' : Type} (g : ε → ε') (x : Except ε α)
    (f : α → Except ε β) :
    (x >>= f).mapError g = x.mapError g >>= fun a => (f a).mapError g := by
  cases x <;> rfl

/-- Elements that give the same, up to their failures, do so in a traversal. -/
theorem mapM_mapError {α' ε' : Type} {g : ε → ε'} {h : α → α'} {f : α → Except ε β}
    {f' : α' → Except ε' β} {l : List α} (hf : ∀ a ∈ l, f' (h a) = (f a).mapError g) :
    (l.map h).mapM f' = (l.mapM f).mapError g := by
  induction l with
  | nil => rfl
  | cons a rest ih =>
      obtain ⟨ha, hrest⟩ := List.forall_mem_cons.mp hf
      simp only [List.map_cons, List.mapM_cons, ha, ih hrest, mapError_bind]
      rfl

/-- The result is as wanted, or the failure is one of the permitted ones. -/
def Settles (fault : ε → Prop) (result : α → Prop) : Except ε α → Prop
  | .ok a => result a
  | .error e => fault e

namespace Settles

variable {fault : ε → Prop}

theorem bind {P : α → Prop} {Q : β → Prop} {x : Except ε α} {f : α → Except ε β}
    (hx : Settles fault P x) (hf : ∀ a, P a → Settles fault Q (f a)) :
    Settles fault Q (x >>= f) := by
  cases x with
  | error e => exact hx
  | ok a => exact hf a hx

theorem imp {fault' : ε → Prop} {P Q : α → Prop} {x : Except ε α}
    (hx : Settles fault P x) (he : ∀ e, fault e → fault' e) (h : ∀ a, P a → Q a) :
    Settles fault' Q x := by
  cases x with
  | error e => exact he e hx
  | ok a => exact h a hx

theorem mono {P Q : α → Prop} {x : Except ε α} (hx : Settles fault P x)
    (h : ∀ a, P a → Q a) : Settles fault Q x :=
  hx.imp (fun _ he => he) h

theorem gives {P : α → Prop} {x : Except ε α} {a : α} (hx : Settles fault P x)
    (ha : x = .ok a) : P a := by
  subst ha; exact hx

/-- A computation of which nothing is known but its results. -/
theorem of_ok {P : α → Prop} {x : Except ε α} (h : ∀ a, x = .ok a → P a) :
    Settles (fun _ => True) P x := by
  cases x with
  | error e => trivial
  | ok a => exact h a rfl

theorem mapM {P : β → Prop} {f : α → Except ε β} {as : List α}
    (h : ∀ a ∈ as, Settles fault P (f a)) :
    Settles fault (fun bs => bs.length = as.length ∧ ∀ b ∈ bs, P b) (as.mapM f) := by
  induction as with
  | nil => exact ⟨rfl, nofun⟩
  | cons a rest ih =>
      obtain ⟨ha, hrest⟩ := List.forall_mem_cons.mp h
      rw [List.mapM_cons]
      exact ha.bind fun b hb => (ih hrest).bind fun bs ⟨hlength, hbs⟩ =>
        ⟨congrArg (· + 1) hlength, List.forall_mem_cons.mpr ⟨hb, hbs⟩⟩

theorem fails {P : α → Prop} {x : Except ε α} {e : ε} (hx : Settles fault P x)
    (he : x = .error e) : fault e := by
  subst he; exact hx

end Settles

/-! ## Faults and crashes -/

/-- A permitted fault, or a crash where crashes are permitted. -/
def Halt.Permitted {F : Type} (fault : F → Prop) (crash : Prop) : Halt F → Prop
  | .fault f => fault f
  | .crash _ => crash

namespace Settles

variable {P : α → Prop} {C : Prop}

/-- A fault is the same fault on whatever line it is reported. -/
theorem onLine {F : Fault → Prop} {x : Except Fault α} (line : Nat)
    (hx : Settles F P x) :
    Settles (Halt.Permitted (fun e : RunError => F e.fault) C) P (Fault.onLine line x) := by
  cases x <;> exact hx

/-- What is found out about the crashes of a computation adds to what is known of it. -/
theorem crashing {F : ε → Prop} {x : Except (Halt ε) α}
    (hx : Settles (Halt.Permitted F True) P x) (h : ∀ c, x = .error (.crash c) → C) :
    Settles (Halt.Permitted F C) P x := by
  cases x with
  | ok a => exact hx
  | error halt =>
      cases halt with
      | fault f => exact hx
      | crash c => exact h c rfl

end Settles

end MatrixLang
