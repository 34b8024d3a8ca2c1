import Mathlib.Data.List.Infix
import MatrixLang.Proofs.Scopes
import MatrixLang.Typing.Check

/-!
# Scopes that are opened and closed

The symbols of the checker are kept in scopes that are opened and closed around
others (`ScopeOp`), and a symbol is always put into the innermost one. So while
other scopes are open inside of a scope, what is put is none of its business. What it
gets are the puts at depth zero (`ScopeOp.ownPuts`).

A balanced sequence never closes a scope that was open before it (`ScopeOp.Inside`,
with the number of scopes that are open inside of that one). Along such a sequence the
scopes further out stand still (`ScopeOp.run_inside`), so they are there unchanged when
the one in which it ran is closed. For any sequence at all the open scopes are those of
its history, in which a scope is the list of what was put into it
(`ScopeOp.toList_run`), and the outermost one stays, for to close it does nothing
(`ScopeOp.outermost_run`).
-/

namespace MatrixLang

/-- What can be done with scopes of symbols. -/
inductive ScopeOp (α : Type) where
  | put (name : String) (value : α)
  /-- Looks a name up, which changes nothing. -/
  | get (name : String)
  | push (name : String)
  | pop

/-- A scope that is open, and all that was put into it, the latest last. -/
structure OpenScope (α : Type) where
  name : String
  puts : List (String × α)

namespace ScopeOp

variable {α : Type}

def apply (s : Scopes α) : ScopeOp α → Scopes α
  | put name value => s.define name value
  | get _ => s
  | push name => s.push (.empty name)
  | pop => s.leave

def run (s : Scopes α) (ops : List (ScopeOp α)) : Scopes α := ops.foldl apply s

/-! ## Balanced sequences -/

def isPush : ScopeOp α → Bool
  | push _ => true
  | _ => false

def isPop : ScopeOp α → Bool
  | pop => true
  | _ => false

/-- There are as many pops as pushes, and never more so far. -/
structure Balanced (ops : List (ScopeOp α)) : Prop where
  total : ops.countP isPop = ops.countP isPush
  soFar : ∀ front, front <+: ops → front.countP isPop ≤ front.countP isPush

/-- A sequence that begins with `depth` scopes open inside of another one, never closes
that one, and ends with `rest` of them. -/
inductive Inside : Nat → List (ScopeOp α) → Nat → Prop
  | done (depth : Nat) : Inside depth [] depth
  | put {depth rest : Nat} {ops} (name : String) (value : α) (h : Inside depth ops rest) :
      Inside depth (put name value :: ops) rest
  | get {depth rest : Nat} {ops} (name : String) (h : Inside depth ops rest) :
      Inside depth (get name :: ops) rest
  | push {depth rest : Nat} {ops} (name : String) (h : Inside (depth + 1) ops rest) :
      Inside depth (push name :: ops) rest
  | pop {depth rest : Nat} {ops} (h : Inside depth ops rest) :
      Inside (depth + 1) (pop :: ops) rest

theorem inside_of_counts {depth rest : Nat} {ops : List (ScopeOp α)}
    (hfront : ∀ front, front <+: ops → front.countP isPop ≤ depth + front.countP isPush)
    (hrest : rest + ops.countP isPop = depth + ops.countP isPush) :
    Inside depth ops rest := by
  induction ops generalizing depth with
  | nil =>
      obtain rfl : rest = depth := hrest
      exact .done rest
  | cons op ops ih =>
      have hnext : ∀ front, front <+: ops →
          (op :: front).countP isPop ≤ depth + (op :: front).countP isPush :=
        fun front h => hfront (op :: front) (List.cons_prefix_cons.mpr ⟨rfl, h⟩)
      cases op with
      | put name value => exact .put name value (ih hnext hrest)
      | get name => exact .get name (ih hnext hrest)
      | push name =>
          have hpush : ∀ l : List (ScopeOp α),
              (push name :: l).countP isPush = l.countP isPush + 1 :=
            fun _ => List.countP_cons_of_pos rfl
          refine .push name (ih (fun front h => ?_) ?_)
          · have hcount : front.countP isPop ≤ _ := hnext front h
            rw [hpush] at hcount
            omega
          · change rest + ops.countP isPop = _ at hrest
            rw [hpush] at hrest
            omega
      | pop =>
          have hpop : ∀ l : List (ScopeOp α), (pop :: l).countP isPop = l.countP isPop + 1 :=
            fun _ => List.countP_cons_of_pos rfl
          have hdepth : 1 ≤ depth := hnext [] (List.nil_prefix)
          obtain ⟨depth, rfl⟩ := Nat.exists_eq_add_of_le' hdepth
          refine .pop (ih (fun front h => ?_) ?_)
          · have hcount : _ ≤ depth + 1 + front.countP isPush := hnext front h
            rw [hpop] at hcount
            omega
          · change _ = depth + 1 + ops.countP isPush at hrest
            rw [hpop] at hrest
            omega

theorem Balanced.inside {ops : List (ScopeOp α)} (h : Balanced ops) : Inside 0 ops 0 :=
  inside_of_counts (fun front hfront => Nat.le_add_left_of_le (h.soFar front hfront))
    (by rw [h.total])

/-- What is put into a scope inside of which `depth` others are open. -/
def ownPuts : Nat → List (ScopeOp α) → List (String × α)
  | _, [] => []
  | 0, put name value :: ops => (name, value) :: ownPuts 0 ops
  | depth + 1, put _ _ :: ops => ownPuts (depth + 1) ops
  | depth, get _ :: ops => ownPuts depth ops
  | depth, push _ :: ops => ownPuts (depth + 1) ops
  | depth, pop :: ops => ownPuts (depth - 1) ops

/-- The scopes `above` are open inside of the scope `own`. Those below it and the
outermost one stand still. -/
theorem run_inside {depth rest : Nat} {ops : List (ScopeOp α)} (h : Inside depth ops rest)
    (above : List (Scope α)) (habove : above.length = depth) (own : Scope α)
    (below : List (Scope α)) (outermost : Scope α) :
    ∃ above', above'.length = rest ∧ run ⟨above ++ own :: below, outermost⟩ ops
      = ⟨above' ++ own.insertAll (ownPuts depth ops) :: below, outermost⟩ := by
  induction h generalizing above own with
  | done depth => exact ⟨above, habove, by simp [run, ownPuts]⟩
  | put name value h ih =>
      cases above with
      | nil =>
          subst habove
          exact ih [] rfl (own.insert name value)
      | cons top inner =>
          subst habove
          exact ih (top.insert name value :: inner) rfl own
  | get name h ih =>
      rw [ownPuts]
      exact ih above habove own
  | push name h ih =>
      rw [ownPuts]
      exact ih (.empty name :: above) (congrArg (· + 1) habove) own
  | pop h ih =>
      cases above with
      | nil => cases habove
      | cons top inner =>
          rw [ownPuts]
          exact ih inner (Nat.succ.inj habove) own

theorem run_balanced {ops : List (ScopeOp α)} (h : Balanced ops) (s : Scopes α) (name : String) :
    run (s.push (.empty name)) ops
      = s.push ((Scope.empty name).insertAll (ownPuts 0 ops)) := by
  obtain ⟨above, habove, hrun⟩ :=
    run_inside h.inside [] rfl (.empty name) s.inner s.outermost
  rw [List.length_eq_zero_iff.mp habove] at hrun
  exact hrun

/-! ## The outermost scope -/

/-- The outermost scope gets what is put while no other is open, and is never another. -/
theorem outermost_run (s : Scopes α) (ops : List (ScopeOp α)) :
    (run s ops).outermost = s.outermost.insertAll (ownPuts s.inner.length ops) := by
  induction ops generalizing s with
  | nil => rfl
  | cons op ops ih =>
      obtain ⟨inner, outermost⟩ := s
      cases op with
      | put name value => cases inner <;> exact ih _
      | get name =>
          rw [ownPuts]
          exact ih ⟨inner, outermost⟩
      | push name =>
          rw [ownPuts]
          exact ih ⟨.empty name :: inner, outermost⟩
      | pop =>
          rw [ownPuts]
          cases inner with
          | nil => exact ih ⟨[], outermost⟩
          | cons top inner => exact ih ⟨inner, outermost⟩

/-! ## The history of the open scopes -/

/-- What an operation does to the scopes that are open, the innermost in front. -/
def note : List (OpenScope α) → ScopeOp α → List (OpenScope α)
  | here :: outer, put name value => ⟨here.name, here.puts ++ [(name, value)]⟩ :: outer
  | scopes, push name => ⟨name, []⟩ :: scopes
  | _ :: next :: outer, pop => next :: outer
  | scopes, _ => scopes

def history (root : String) (ops : List (ScopeOp α)) : List (OpenScope α) :=
  ops.foldl note [⟨root, []⟩]

end ScopeOp

/-- A scope that holds what was put into it. -/
def OpenScope.scope {α : Type} (o : OpenScope α) : Scope α := (Scope.empty o.name).insertAll o.puts

namespace ScopeOp

variable {α : Type}

theorem toList_apply {s : Scopes α} {scopes : List (OpenScope α)}
    (h : s.toList = scopes.map OpenScope.scope) (op : ScopeOp α) :
    (apply s op).toList = (note scopes op).map OpenScope.scope := by
  have hlength : s.depth = scopes.length := by rw [← Scopes.length_toList, h, List.length_map]
  cases scopes with
  | nil => exact absurd s.one_le_depth (by simp [hlength])
  | cons here outer =>
      cases op with
      | put name value =>
          have hcons := s.toList_eq_cons.symm.trans h
          rw [List.map_cons, List.cons.injEq] at hcons
          rw [apply, Scopes.toList_define, hcons.1, hcons.2, note, List.map_cons, OpenScope.scope,
            OpenScope.scope, Scope.insertAll_append]
          rfl
      | get name => exact h
      | push name =>
          have hpush : (s.push (.empty name)).toList = .empty name :: s.toList := rfl
          rw [apply, hpush, h]
          rfl
      | pop =>
          cases outer with
          | nil => rw [apply, Scopes.leave_of_depth_one hlength]; exact h
          | cons next outer =>
              have hdepth : 1 < s.depth := by simp [hlength]
              rw [apply, Scopes.toList_leave hdepth, h]
              rfl

theorem toList_run (root : String) (ops : List (ScopeOp α)) :
    (run (.empty root) ops).toList = (history root ops).map OpenScope.scope := by
  have hrun : ∀ (s : Scopes α) scopes, s.toList = scopes.map OpenScope.scope →
      (run s ops).toList = (ops.foldl note scopes).map OpenScope.scope := by
    induction ops with
    | nil => exact fun s scopes h => h
    | cons op ops ih => exact fun s scopes h => ih _ _ (toList_apply h op)
  exact hrun _ _ rfl

theorem lookupIn_scopes (name : String) (scopes : List (OpenScope α)) :
    Scopes.lookupIn name (scopes.map OpenScope.scope)
      = scopes.findSome? fun o => Scope.lastWrite? name o.puts := by
  induction scopes with
  | nil => rfl
  | cons here outer ih =>
      have hhere : here.scope.get? name = Scope.lastWrite? name here.puts := by
        rw [OpenScope.scope, Scope.get?_insertAll]
        exact Option.or_none
      rw [List.map_cons, Scopes.lookupIn, hhere, List.findSome?_cons, ih]
      rfl

theorem get?_run (root : String) (ops : List (ScopeOp α)) (name : String) :
    (run (.empty root) ops).get? name
      = (history root ops).findSome? fun o => Scope.lastWrite? name o.puts := by
  rw [Scopes.get?, toList_run, lookupIn_scopes]

end ScopeOp

/-- A scope that was empty holds the names that were put into it and no others, each
with its last symbol. -/
theorem Scope.holds_insertAll {α : Type} (name : String) (puts : List (String × α)) :
    (∀ x, ((Scope.empty name).insertAll puts).get? x = lastWrite? x puts)
      ∧ (∀ x, x ∈ ((Scope.empty name).insertAll puts).bindings.names ↔ x ∈ puts.map Prod.fst)
      ∧ ((Scope.empty name).insertAll puts).bindings.names.Nodup := by
  have hget : ∀ x, ((Scope.empty name).insertAll puts).get? x = lastWrite? x puts := fun x => by
    rw [get?_insertAll]
    exact Option.or_none
  have hempty : (Scope.empty name : Scope α).bindings.names.Nodup := List.nodup_nil
  refine ⟨hget, fun x => ?_, nodup_insertAll hempty puts⟩
  calc x ∈ ((Scope.empty name).insertAll puts).bindings.names
      ↔ ((Scope.empty name).insertAll puts).get? x ≠ none := Bindings.mem_names
    _ ↔ lastWrite? x puts ≠ none := by rw [hget]
    _ ↔ x ∈ puts.map Prod.fst := by rw [Ne, lastWrite?_eq_none, not_not]

/-- **Scopes are properly bracketed.** A balanced sequence in a scope of its own leaves
the table as it was, and the scope that is closed after it holds what was put at its own
level. At any time a name has the last symbol that was put under it in the innermost of
the open scopes that has one. The outermost scope stays, with what was put into it. -/
theorem Symbols.scopes_bracketed :
    (∀ (s : Symbols) (name : String) {ops : List (ScopeOp (Option Ty))}, ScopeOp.Balanced ops →
      ScopeOp.run s (.push name :: ops ++ [.pop]) = s
        ∧ ∃ popped, (ScopeOp.run s (.push name :: ops)).pop = some (popped, s)
          ∧ popped.name = name
          ∧ (∀ x, popped.get? x = Scope.lastWrite? x (ScopeOp.ownPuts 0 ops))
          ∧ (∀ x, x ∈ popped.bindings.names ↔ x ∈ (ScopeOp.ownPuts 0 ops).map Prod.fst)
          ∧ popped.bindings.names.Nodup)
      ∧ (∀ (ops : List (ScopeOp (Option Ty))) (x : String),
        (ScopeOp.run Symbols.initial ops).get? x
          = (ScopeOp.history "root" ops).findSome? fun o => Scope.lastWrite? x o.puts)
      ∧ ∀ (s : Symbols) (ops : List (ScopeOp (Option Ty))),
        (ScopeOp.run s ops).outermost
            = s.outermost.insertAll (ScopeOp.ownPuts s.inner.length ops)
          ∧ (s.depth = 1 → s.pop = none ∧ ScopeOp.apply s .pop = s) := by
  refine ⟨fun s name ops hops => ?_, ScopeOp.get?_run "root", fun s ops => ?_⟩
  · have hrun : ScopeOp.run s (.push name :: ops)
        = s.push ((Scope.empty name).insertAll (ScopeOp.ownPuts 0 ops)) :=
      ScopeOp.run_balanced hops s name
    refine ⟨?_, _, by rw [hrun, Scopes.pop_push], Scope.name_insertAll _ _,
      Scope.holds_insertAll name _⟩
    calc ScopeOp.run s (.push name :: ops ++ [.pop])
        = (ScopeOp.run s (.push name :: ops)).leave := by
          rw [ScopeOp.run, List.foldl_append]
          rfl
      _ = s := by rw [hrun]; rfl
  · exact ⟨ScopeOp.outermost_run s ops,
      fun h => ⟨Scopes.pop_of_depth_one h, Scopes.leave_of_depth_one h⟩⟩

/-- A name that is put twice, and in between into a scope further in. -/
def ScopeOp.shadowing : List (ScopeOp (Option Ty)) :=
  [.put "x" (some .int), .push "inner", .put "x" none, .get "x", .pop, .put "x" (some .float)]

theorem Symbols.scopes_bracketed_shadowing :
    ScopeOp.Balanced ScopeOp.shadowing
      ∧ ScopeOp.run Symbols.initial (.push "outer" :: ScopeOp.shadowing ++ [.pop]) = Symbols.initial
      ∧ ∃ popped, (ScopeOp.run Symbols.initial (.push "outer" :: ScopeOp.shadowing)).pop
          = some (popped, Symbols.initial)
        ∧ popped.name = "outer" ∧ popped.get? "x" = some (some .float) := by
  have hbalanced : ScopeOp.Balanced ScopeOp.shadowing := by
    refine ⟨rfl, fun front hfront => ?_⟩
    have hall : ∀ front ∈ ScopeOp.shadowing.inits,
        front.countP ScopeOp.isPop ≤ front.countP ScopeOp.isPush := by decide
    exact hall front ((List.mem_inits _ _).mpr hfront)
  obtain ⟨hsame, popped, hpop, hname, hget, -⟩ := scopes_bracketed.1 .initial "outer" hbalanced
  exact ⟨hbalanced, hsame, popped, hpop, hname, (hget "x").trans rfl⟩

end MatrixLang
