import MatrixLang.Scopes

/-!
# Looking up after writing

Both ways to write a name are seen by a look up in the same way: the name has
the new value and every other name what it had (`get?_define`, `get?_assign`).
Where the value was stored does not matter to a reader. `assign` needs a walk
over the scopes: the scope that it overwrites is the one that a look up stops
at.

Where it is stored matters to what a program leaves alone: a write changes one
scope (`toList_define`, `toList_assign`), and none if it writes the value that is
there (`assign_self`).

What a scope holds after many writes is what was written last
(`Scope.get?_insertAll`), and to take a scope away uncovers what was below it
(`toList_leave`).
-/

namespace MatrixLang

theorem Bindings.insertIn_self {α : Type} {name : String} {value : α} {l : List (String × α)}
    (h : lookupIn name l = some value) : insertIn name value l = l := by
  induction l with
  | nil => cases h
  | cons e rest ih =>
      obtain ⟨n, a⟩ := e
      rw [lookupIn] at h
      rw [insertIn]
      split at h
      · rename_i hn
        rw [if_pos hn, Option.some.inj h]
      · rename_i hn
        rw [if_neg hn, ih h]

namespace Bindings

variable {α : Type}

theorem mem_names {b : Bindings α} {name : String} : name ∈ b.names ↔ b.get? name ≠ none := by
  obtain ⟨entries⟩ := b
  simp only [names, get?]
  induction entries with
  | nil => simp [lookupIn]
  | cons e rest ih =>
      rw [List.map_cons, List.mem_cons, lookupIn, ih]
      by_cases h : e.1 = name
      · simp [h]
      · simp [h, Ne.symm h]

/-- To rebind a name adds none. -/
theorem names_insert (b : Bindings α) (name : String) (value : α) :
    (b.insert name value).names = if name ∈ b.names then b.names else b.names ++ [name] := by
  obtain ⟨entries⟩ := b
  simp only [names, insert]
  induction entries with
  | nil => simp [insertIn]
  | cons e rest ih =>
      rw [insertIn]
      by_cases h : e.1 = name
      · simp [h]
      · by_cases hmem : name ∈ rest.map Prod.fst <;> simp [h, Ne.symm h, ih, hmem]

theorem nodup_insert {b : Bindings α} (h : b.names.Nodup) (name : String) (value : α) :
    (b.insert name value).names.Nodup := by
  rw [names_insert]
  split
  · exact h
  · rename_i hnew
    refine List.nodup_append.mpr ⟨h, by simp, fun x hx y hy => ?_⟩
    rintro rfl
    exact hnew (List.mem_singleton.mp hy ▸ hx)

end Bindings

namespace Scope

variable {α : Type}

theorem get?_insert (s : Scope α) (name other : String) (value : α) :
    (s.insert name value).get? other
      = if name = other then some value else s.get? other :=
  Bindings.get?_insert s.bindings name other value

theorem contains_eq_true {s : Scope α} {name : String} :
    s.contains name = true ↔ ∃ a, s.get? name = some a :=
  Option.isSome_iff_exists

theorem contains_eq_false {s : Scope α} {name : String} :
    s.contains name = false ↔ s.get? name = none :=
  Option.isSome_eq_false_iff.trans Option.isNone_iff_eq_none

theorem insert_self {s : Scope α} {name : String} {value : α}
    (h : s.get? name = some value) : s.insert name value = s := by
  simp only [insert, Bindings.insert, Bindings.insertIn_self h]

/-! ## Many writes -/

/-- A scope after writes into it, one after another. -/
def insertAll (s : Scope α) (writes : List (String × α)) : Scope α :=
  writes.foldl (fun s w => s.insert w.1 w.2) s

/-- The value of the last write under a name. -/
def lastWrite? (name : String) : List (String × α) → Option α
  | [] => none
  | (n, a) :: rest => (lastWrite? name rest).or (if n = name then some a else none)

@[simp] theorem insertAll_nil (s : Scope α) : s.insertAll [] = s := rfl

@[simp] theorem insertAll_cons (s : Scope α) (w : String × α) (writes : List (String × α)) :
    s.insertAll (w :: writes) = (s.insert w.1 w.2).insertAll writes := rfl

theorem insertAll_append (s : Scope α) (writes more : List (String × α)) :
    s.insertAll (writes ++ more) = (s.insertAll writes).insertAll more :=
  List.foldl_append

@[simp] theorem name_insertAll (s : Scope α) (writes : List (String × α)) :
    (s.insertAll writes).name = s.name := by
  induction writes generalizing s with
  | nil => rfl
  | cons w rest ih => exact ih (s.insert w.1 w.2)

/-- A name has the value that was written last, or else the one from before. -/
theorem get?_insertAll (s : Scope α) (writes : List (String × α)) (name : String) :
    (s.insertAll writes).get? name = (lastWrite? name writes).or (s.get? name) := by
  induction writes generalizing s with
  | nil => rfl
  | cons w rest ih =>
      rw [insertAll_cons, ih, get?_insert, lastWrite?, Option.or_assoc]
      split <;> rfl

theorem lastWrite?_eq_none {name : String} {writes : List (String × α)} :
    lastWrite? name writes = none ↔ name ∉ writes.map Prod.fst := by
  induction writes with
  | nil => simp [lastWrite?]
  | cons w rest ih =>
      rw [lastWrite?, Option.or_eq_none_iff, ih, List.map_cons, List.mem_cons, not_or, and_comm]
      simp [eq_comm]

theorem nodup_insertAll {s : Scope α} (h : s.bindings.names.Nodup) (writes : List (String × α)) :
    (s.insertAll writes).bindings.names.Nodup := by
  induction writes generalizing s with
  | nil => exact h
  | cons w rest ih => exact ih (Bindings.nodup_insert h w.1 w.2)

end Scope

namespace Scopes

variable {α : Type}

/-! ## Lists of scopes -/

theorem lookupIn_append (name : String) (l k : List (Scope α)) :
    lookupIn name (l ++ k) = (lookupIn name l).or (lookupIn name k) := by
  induction l with
  | nil => rfl
  | cons s rest ih =>
      simp only [List.cons_append, lookupIn]
      cases s.get? name with
      | none => exact ih
      | some a => rfl

theorem lookupIn_insert_cons (name other : String) (value : α) (s : Scope α)
    (rest : List (Scope α)) :
    lookupIn other (s.insert name value :: rest)
      = if name = other then some value else lookupIn other (s :: rest) := by
  simp only [lookupIn, Scope.get?_insert]
  by_cases h : name = other <;> simp [h]

/-- The scopes in which a name is overwritten still bind every other name as
before. -/
theorem lookupIn_overwriteIn {name : String} {value : α} {l k : List (Scope α)}
    (h : overwriteIn name value l = some k) (other : String) :
    lookupIn other k
      = if name = other then some value else lookupIn other l := by
  induction l generalizing k with
  | nil => cases h
  | cons s rest ih =>
      simp only [overwriteIn] at h
      split at h
      · obtain rfl := Option.some.inj h
        exact lookupIn_insert_cons name other value s rest
      · rename_i hs
        obtain ⟨k', hk', rfl⟩ := Option.map_eq_some_iff.mp h
        have hnone : s.get? name = none :=
          Scope.contains_eq_false.mp (by simpa using hs)
        simp only [lookupIn, ih hk']
        by_cases ho : name = other
        · subst ho
          simp [hnone]
        · simp [ho]

/-- Nothing is overwritten exactly when no scope binds the name. -/
theorem overwriteIn_eq_none {name : String} {value : α} {l : List (Scope α)} :
    overwriteIn name value l = none ↔ lookupIn name l = none := by
  induction l with
  | nil => simp [overwriteIn, lookupIn]
  | cons s rest ih =>
      simp only [overwriteIn, lookupIn]
      cases hs : s.get? name with
      | none => simpa [Scope.contains_eq_false.mpr hs] using ih
      | some a => simp [Scope.contains_eq_true.mpr ⟨a, hs⟩]

/-! ## Scopes -/

theorem get?_eq (s : Scopes α) (name : String) :
    s.get? name = (lookupIn name s.inner).or (s.outermost.get? name) := by
  rw [get?, toList, lookupIn_append]
  congr 1
  simp only [lookupIn]
  cases s.outermost.get? name <;> rfl

theorem get?_define (s : Scopes α) (name other : String) (value : α) :
    (s.define name value).get? other
      = if name = other then some value else s.get? other := by
  cases h : s.inner with
  | nil =>
      rw [get?_eq, get?_eq, define, h]
      simp only [lookupIn, Option.none_or]
      exact Scope.get?_insert s.outermost name other value
  | cons top rest =>
      rw [get?_eq, get?_eq, define, h]
      simp only [lookupIn_insert_cons]
      by_cases ho : name = other <;> simp [ho]

theorem get?_overwrite {s t : Scopes α} {name : String} {value : α}
    (h : s.overwrite? name value = some t) (other : String) :
    t.get? other = if name = other then some value else s.get? other := by
  simp only [overwrite?] at h
  split at h
  · rename_i inner hinner
    obtain rfl := Option.some.inj h
    rw [get?_eq, get?_eq]
    simp only [lookupIn_overwriteIn hinner]
    by_cases ho : name = other <;> simp [ho]
  · rename_i hinner
    split at h
    · obtain rfl := Option.some.inj h
      have hnone : lookupIn name s.inner = none := overwriteIn_eq_none.mp hinner
      rw [get?_eq, get?_eq]
      simp only [Scope.get?_insert]
      by_cases ho : name = other
      · subst ho
        simp [hnone]
      · simp [ho]
    · cases h

theorem get?_assign (s : Scopes α) (name other : String) (value : α) :
    (s.assign name value).get? other
      = if name = other then some value else s.get? other := by
  cases h : s.overwrite? name value with
  | none => rw [assign, h]; exact get?_define s name other value
  | some t => rw [assign, h]; exact get?_overwrite h other

@[simp] theorem get?_empty (root name : String) :
    (empty root : Scopes α).get? name = none := rfl

/-! ## Where a write goes -/

theorem lookupIn_eq_none {name : String} {l : List (Scope α)} :
    lookupIn name l = none ↔ ∀ s ∈ l, s.get? name = none := by
  induction l with
  | nil => simp [lookupIn]
  | cons s rest ih =>
      rw [lookupIn, List.forall_mem_cons, ← ih]
      cases s.get? name <;> simp

theorem overwriteIn_append (name : String) (value : α) (l k : List (Scope α)) :
    overwriteIn name value (l ++ k) =
      match overwriteIn name value l with
      | some l' => some (l' ++ k)
      | none => (overwriteIn name value k).map (l ++ ·) := by
  induction l with
  | nil => simp [overwriteIn]
  | cons s rest ih =>
      simp only [List.cons_append, overwriteIn]
      split
      · rfl
      · rw [ih]
        cases overwriteIn name value rest with
        | some l' => rfl
        | none => simp [Function.comp_def]

/-- One scope is overwritten, the first one that binds the name. -/
theorem overwriteIn_eq_some {name : String} {value : α} {l k : List (Scope α)}
    (h : overwriteIn name value l = some k) :
    ∃ before scope after, l = before ++ scope :: after
      ∧ k = before ++ scope.insert name value :: after
      ∧ (∀ s ∈ before, s.get? name = none) ∧ (scope.get? name).isSome = true := by
  induction l generalizing k with
  | nil => cases h
  | cons s rest ih =>
      simp only [overwriteIn] at h
      split at h
      · rename_i hs
        cases h
        exact ⟨[], s, rest, rfl, rfl, nofun, hs⟩
      · rename_i hs
        have hnone : s.get? name = none :=
          Scope.contains_eq_false.mp (by simpa using hs)
        obtain ⟨k', hk', rfl⟩ := Option.map_eq_some_iff.mp h
        obtain ⟨before, scope, after, rfl, rfl, hbefore, hscope⟩ := ih hk'
        exact ⟨s :: before, scope, after, rfl, rfl,
          List.forall_mem_cons.mpr ⟨hnone, hbefore⟩, hscope⟩

theorem toList_overwrite? (s : Scopes α) (name : String) (value : α) :
    (s.overwrite? name value).map toList = overwriteIn name value s.toList := by
  rw [toList, overwriteIn_append, overwrite?]
  cases overwriteIn name value s.inner with
  | some inner => rfl
  | none =>
      simp only [overwriteIn]
      split <;> rfl

theorem toList_eq_cons (s : Scopes α) : s.toList = s.innermost :: s.toList.tail := by
  cases h : s.inner <;> simp [toList, innermost, h]

theorem toList_define (s : Scopes α) (name : String) (value : α) :
    (s.define name value).toList
      = s.innermost.insert name value :: s.toList.tail := by
  cases h : s.inner <;> simp [define, toList, innermost, h]

/-- An assignment writes one scope: the innermost one that binds the name, or the
innermost of all if none does. -/
theorem toList_assign (s : Scopes α) (name : String) (value : α) :
    ∃ before scope after, s.toList = before ++ scope :: after
      ∧ (s.assign name value).toList = before ++ scope.insert name value :: after
      ∧ (∀ b ∈ before, b.get? name = none)
      ∧ ((scope.get? name).isSome = true ∨ s.get? name = none ∧ before = []) := by
  have hlist := toList_overwrite? s name value
  cases h : s.overwrite? name value with
  | some t =>
      rw [h] at hlist
      obtain ⟨before, scope, after, hs, ht, hbefore, hscope⟩ :=
        overwriteIn_eq_some hlist.symm
      refine ⟨before, scope, after, hs, ?_, hbefore, .inl hscope⟩
      rw [assign, h]
      exact ht
  | none =>
      rw [h] at hlist
      have hnone : s.get? name = none := overwriteIn_eq_none.mp hlist.symm
      refine ⟨[], s.innermost, s.toList.tail, toList_eq_cons s, ?_, nofun,
        .inr ⟨hnone, rfl⟩⟩
      rw [assign, h]
      exact toList_define s name value

/-! ## Taking scopes away -/

/-- The scopes without the innermost one; the outermost one stays. -/
def leave (s : Scopes α) : Scopes α :=
  match s.pop with
  | some (_, t) => t
  | none => s

theorem one_le_depth (s : Scopes α) : 1 ≤ s.depth := Nat.le_add_left 1 s.inner.length

/-- Below other scopes there always is one to go back to. -/
theorem pop_of_one_lt {s : Scopes α} (h : 1 < s.depth) : s.pop = some (s.innermost, s.leave) := by
  cases hinner : s.inner with
  | nil => simp [depth, hinner] at h
  | cons top rest => simp [leave, pop, innermost, hinner]

theorem pop_of_depth_one {s : Scopes α} (h : s.depth = 1) : s.pop = none := by
  cases hinner : s.inner with
  | nil => simp [pop, hinner]
  | cons top rest => simp [depth, hinner] at h

theorem leave_of_depth_one {s : Scopes α} (h : s.depth = 1) : s.leave = s := by
  rw [leave, pop_of_depth_one h]

theorem toList_leave {s : Scopes α} (h : 1 < s.depth) : s.leave.toList = s.toList.tail := by
  cases hinner : s.inner with
  | nil => simp [depth, hinner] at h
  | cons top rest => simp [leave, pop, toList, hinner]

/-! ## Writing what is there -/

theorem overwriteIn_self {name : String} {value : α} {l : List (Scope α)}
    (h : lookupIn name l = some value) : overwriteIn name value l = some l := by
  induction l with
  | nil => cases h
  | cons s rest ih =>
      rw [lookupIn] at h
      rw [overwriteIn]
      cases hs : s.get? name with
      | none =>
          rw [hs] at h
          rw [Scope.contains_eq_false.mpr hs, ih h]
          rfl
      | some a =>
          rw [hs] at h
          cases h
          rw [Scope.contains_eq_true.mpr ⟨_, hs⟩, if_pos rfl, Scope.insert_self hs]

/-- To assign a name the value that it has changes no scope. -/
theorem assign_self {s : Scopes α} {name : String} {value : α}
    (h : s.get? name = some value) : s.assign name value = s := by
  have hself : s.overwrite? name value = some s := by
    rw [get?_eq] at h
    rw [overwrite?]
    cases hinner : lookupIn name s.inner with
    | some a =>
        rw [hinner] at h
        cases h
        rw [overwriteIn_self hinner]
    | none =>
        rw [hinner, Option.none_or] at h
        rw [overwriteIn_eq_none.mpr hinner]
        simp only [Scope.contains_eq_true.mpr ⟨_, h⟩, if_true, Scope.insert_self h]
  rw [assign, hself, Option.getD_some]

end Scopes

end MatrixLang
