import MatrixLang.Proofs.Scopes
import MatrixLang.Run.Memory

/-!
# One place for every name

The memory of a program is a stack of frames over the global one, and frames can
be pushed and popped, and names written in three ways, in any order
(`FrameOp`). The global frame is never exchanged for another: whatever is done, the
outermost frame is the one from the beginning with some names written
(`FrameOp.sameBottom_run`, by one lemma for the single operation and an induction).

A name that is bound is found in one frame (`Scopes.Found`), which is told by the
list of frames alone. To look it up, to write in its place and to assign it are
all about this frame (`Found.get?`, `Found.overwrite?`, `Found.toList_assign`), so
that the value outlives every frame inside of it. A name that is bound nowhere is
assigned in the innermost frame and is gone with it.
-/

namespace MatrixLang

/-- What can be done with frames. -/
inductive FrameOp (α : Type) where
  | push (frame : Scope α)
  | pop
  /-- Binds a name in the innermost frame. -/
  | insert (name : String) (value : α)
  /-- Assigns a value to a name. -/
  | set (name : String) (value : α)
  /-- Writes in the place of a name, if it has one. -/
  | replace (name : String) (value : α)

namespace FrameOp

variable {α : Type}

def apply (s : Scopes α) : FrameOp α → Scopes α
  | push frame => s.push frame
  | pop => s.leave
  | insert name value => s.define name value
  | set name value => s.assign name value
  | replace name value => (s.overwrite? name value).getD s

def run (s : Scopes α) (ops : List (FrameOp α)) : Scopes α := ops.foldl apply s

end FrameOp

namespace Scopes

variable {α : Type} {s t : Scopes α} {name : String} {value : α}

/-! ## The outermost frame -/

/-- `t` has the outermost frame of `s`, in which names may have been written. -/
def SameBottom (s t : Scopes α) : Prop :=
  ∃ writes, t.outermost = s.outermost.insertAll writes

theorem SameBottom.of_eq (h : t.outermost = s.outermost) : SameBottom s t := ⟨[], h⟩

theorem SameBottom.trans {u : Scopes α} (hst : SameBottom s t) (htu : SameBottom t u) :
    SameBottom s u := by
  obtain ⟨writes, ht⟩ := hst
  obtain ⟨more, hu⟩ := htu
  exact ⟨writes ++ more, by rw [hu, ht, Scope.insertAll_append]⟩

theorem sameBottom_define (s : Scopes α) (name : String) (value : α) :
    SameBottom s (s.define name value) := by
  cases h : s.inner with
  | nil => exact ⟨[(name, value)], by simp only [define, h]; rfl⟩
  | cons top rest => exact .of_eq (by simp only [define, h])

/-- A write goes to the place of the name, or else does what gave `t`. -/
theorem SameBottom.overwritten (h : SameBottom s t) (name : String) (value : α) :
    SameBottom s ((s.overwrite? name value).getD t) := by
  unfold overwrite?
  split
  · exact .of_eq rfl
  · split
    · exact ⟨[(name, value)], rfl⟩
    · exact h

theorem sameBottom_leave (s : Scopes α) : SameBottom s s.leave := by
  cases h : s.inner with
  | nil => exact .of_eq (by rw [leave_of_depth_one (by simp [depth, h])])
  | cons top rest => exact .of_eq (by simp only [leave, pop, h])

end Scopes

namespace FrameOp

variable {α : Type}

theorem sameBottom_apply (s : Scopes α) (op : FrameOp α) : Scopes.SameBottom s (apply s op) := by
  cases op with
  | push frame => exact .of_eq rfl
  | pop => exact Scopes.sameBottom_leave s
  | insert name value => exact Scopes.sameBottom_define s name value
  | set name value => exact (Scopes.sameBottom_define s name value).overwritten name value
  | replace name value => exact Scopes.SameBottom.overwritten (.of_eq rfl) name value

theorem sameBottom_run (s : Scopes α) (ops : List (FrameOp α)) :
    Scopes.SameBottom s (run s ops) := by
  induction ops generalizing s with
  | nil => exact .of_eq rfl
  | cons op rest ih => exact (sameBottom_apply s op).trans (ih _)

/-- Pops take frames away from the front of the list. -/
theorem toList_pops {s : Scopes α} {k : Nat} (h : k < s.depth) :
    (run s (List.replicate k .pop)).toList = s.toList.drop k := by
  induction k generalizing s with
  | zero => rfl
  | succ k ih =>
      have htail : s.leave.toList = s.toList.tail := Scopes.toList_leave (by omega)
      have hdepth : k < s.leave.depth := by
        rw [← Scopes.length_toList, htail, List.length_tail, Scopes.length_toList]
        omega
      calc (run s.leave (List.replicate k .pop)).toList = s.leave.toList.drop k := ih hdepth
        _ = s.toList.drop (k + 1) := by rw [htail, List.drop_tail]

end FrameOp

namespace Scopes

variable {α : Type} {s : Scopes α} {name : String} {inside outside : List (Scope α)}
  {frame : Scope α}

/-! ## The frame of a name -/

/-- A name is found in a frame: it is bound there, and in none of those inside of it. -/
structure Found (s : Scopes α) (name : String) (inside : List (Scope α)) (frame : Scope α)
    (outside : List (Scope α)) : Prop where
  frames : s.toList = inside ++ frame :: outside
  inside : ∀ f ∈ inside, f.get? name = none
  bound : (frame.get? name).isSome = true

theorem exists_found {value : α} (h : s.get? name = some value) :
    ∃ inside frame outside, s.Found name inside frame outside := by
  cases hwritten : overwriteIn name value s.toList with
  | none => simp [get?, overwriteIn_eq_none.mp hwritten] at h
  | some l =>
      obtain ⟨inside, frame, outside, hframes, -, hinside, hbound⟩ := overwriteIn_eq_some hwritten
      exact ⟨inside, frame, outside, hframes, hinside, hbound⟩

namespace Found

theorem contains (h : s.Found name inside frame outside) : frame.contains name = true := h.bound

/-- The frames inside of it are the ones in front that do not bind the name. -/
theorem inside_eq (h : s.Found name inside frame outside) :
    inside = s.toList.takeWhile fun f => !f.contains name := by
  have hinside : ∀ f ∈ inside, (!f.contains name) = true := fun f hf => by
    simp [Scope.contains_eq_false.mpr (h.inside f hf)]
  rw [h.frames, List.takeWhile_append_of_pos hinside,
    List.takeWhile_cons_of_neg (by simp [h.contains]), List.append_nil]

/-- There is one such frame. -/
theorem unique {inside' outside' : List (Scope α)} {frame' : Scope α}
    (h : s.Found name inside frame outside) (h' : s.Found name inside' frame' outside') :
    inside' = inside ∧ frame' = frame ∧ outside' = outside := by
  have hinside : inside' = inside := h'.inside_eq.trans h.inside_eq.symm
  have hframes := h'.frames.symm.trans h.frames
  rw [hinside, List.append_cancel_left_eq, List.cons.injEq] at hframes
  exact ⟨hinside, hframes⟩

theorem get? (h : s.Found name inside frame outside) : s.get? name = frame.get? name := by
  obtain ⟨a, ha⟩ := Option.isSome_iff_exists.mp h.bound
  rw [Scopes.get?, h.frames, lookupIn_append, lookupIn_eq_none.mpr h.inside, Option.none_or,
    lookupIn, ha]

theorem overwriteIn (h : s.Found name inside frame outside) (value : α) :
    Scopes.overwriteIn name value s.toList
      = some (inside ++ frame.insert name value :: outside) := by
  have hinside : Scopes.overwriteIn name value inside = none :=
    overwriteIn_eq_none.mpr (lookupIn_eq_none.mpr h.inside)
  rw [h.frames, overwriteIn_append, hinside]
  simp only [Scopes.overwriteIn, h.contains, if_true, Option.map_some]

/-- The place that is written is in this frame, and an assignment writes there, too. -/
theorem overwrite? (h : s.Found name inside frame outside) (value : α) :
    ∃ t, s.overwrite? name value = some t ∧ s.assign name value = t
      ∧ t.toList = inside ++ frame.insert name value :: outside := by
  have hlist := (toList_overwrite? s name value).trans (h.overwriteIn value)
  obtain ⟨t, ht, htoList⟩ := Option.map_eq_some_iff.mp hlist
  exact ⟨t, ht, by rw [assign, ht, Option.getD_some], htoList⟩

theorem toList_assign (h : s.Found name inside frame outside) (value : α) :
    (s.assign name value).toList = inside ++ frame.insert name value :: outside := by
  obtain ⟨t, -, rfl, ht⟩ := h.overwrite? value
  exact ht

/-- The value that was assigned outlives the frames inside of its own. -/
theorem get?_pops (h : s.Found name inside frame outside) (value : α) {k : Nat}
    (hk : k ≤ inside.length) :
    (FrameOp.run (s.assign name value) (List.replicate k .pop)).get? name = some value := by
  have hdepth : k < (s.assign name value).depth := by
    rw [← length_toList, h.toList_assign, List.length_append, List.length_cons]
    omega
  have hinside : ∀ f ∈ inside.drop k, f.get? name = none := fun f hf =>
    h.inside f (List.mem_of_mem_drop hf)
  rw [Scopes.get?, FrameOp.toList_pops hdepth, h.toList_assign, List.drop_append_of_le_length hk,
    lookupIn_append, lookupIn_eq_none.mpr hinside, Option.none_or, lookupIn_insert_cons, if_pos rfl]

end Found

/-! ## Names without a frame -/

theorem overwrite?_eq_none {value : α} (h : s.get? name = none) :
    s.overwrite? name value = none := by
  have hlist := toList_overwrite? s name value
  rw [overwriteIn_eq_none.mpr h] at hlist
  exact Option.map_eq_none_iff.mp hlist

theorem toList_assign_unbound (h : s.get? name = none) (value : α) :
    (s.assign name value).toList = s.innermost.insert name value :: s.toList.tail := by
  rw [assign, overwrite?_eq_none h]
  exact toList_define s name value

/-- With the frame that it was assigned in, the name is gone. -/
theorem pop_assign_unbound (h : s.get? name = none) (hdepth : 1 < s.depth) (value : α) :
    ∃ t, (s.assign name value).pop = some (s.innermost.insert name value, t)
      ∧ t.toList = s.toList.tail ∧ t.get? name = none := by
  have hlist := toList_assign_unbound h value
  have hassigned : 1 < (s.assign name value).depth := by
    rw [← length_toList, hlist, List.length_cons, List.length_tail, length_toList]
    omega
  have htop : (s.assign name value).innermost = s.innermost.insert name value := by
    have hcons := toList_eq_cons (s.assign name value)
    rw [hlist, List.cons.injEq] at hcons
    exact hcons.1.symm
  have htail : (s.assign name value).leave.toList = s.toList.tail := by
    rw [toList_leave hassigned, hlist, List.tail_cons]
  refine ⟨_, by rw [pop_of_one_lt hassigned, htop], htail, ?_⟩
  rw [Scopes.get?, htail]
  exact lookupIn_eq_none.mpr fun f hf => lookupIn_eq_none.mp h f (List.mem_of_mem_tail hf)

/-! ## Every name -/

/-- How a name is resolved. -/
structure Resolves (s : Scopes α) (name : String) : Prop where
  /-- It is bound in no frame, or it is found in just one. -/
  place : (∀ f ∈ s.toList, f.get? name = none)
    ∨ ∃ inside frame outside, s.Found name inside frame outside
      ∧ ∀ inside' frame' outside', s.Found name inside' frame' outside' →
        inside' = inside ∧ frame' = frame ∧ outside' = outside
  assigned : ∀ value other, (s.assign name value).get? other
    = if name = other then some value else s.get? other
  /-- The frame that it is found in is the one that is read and written. -/
  bound : ∀ {inside frame outside}, s.Found name inside frame outside →
    s.get? name = frame.get? name
      ∧ ∀ value, (∃ t, s.overwrite? name value = some t ∧ s.assign name value = t
          ∧ t.toList = inside ++ frame.insert name value :: outside)
        ∧ ∀ k ≤ inside.length,
          (FrameOp.run (s.assign name value) (List.replicate k .pop)).get? name = some value
  /-- It has no place, and is assigned in the innermost frame. -/
  unbound : (∀ f ∈ s.toList, f.get? name = none) →
    s.get? name = none
      ∧ ∀ value, s.overwrite? name value = none
        ∧ (s.assign name value).toList = s.innermost.insert name value :: s.toList.tail
        ∧ (1 < s.depth → ∃ t, (s.assign name value).pop
            = some (s.innermost.insert name value, t)
          ∧ t.toList = s.toList.tail ∧ t.get? name = none)

theorem resolves (s : Scopes α) (name : String) : s.Resolves name where
  place := by
    cases h : s.get? name with
    | none => exact .inl (lookupIn_eq_none.mp h)
    | some a =>
        obtain ⟨inside, frame, outside, hfound⟩ := exists_found h
        exact .inr ⟨inside, frame, outside, hfound, fun _ _ _ => hfound.unique⟩
  assigned := fun value other => get?_assign s name other value
  bound := fun h => ⟨h.get?, fun value => ⟨h.overwrite? value, fun _ => h.get?_pops value⟩⟩
  unbound := fun h => by
    have hnone : s.get? name = none := lookupIn_eq_none.mpr h
    exact ⟨hnone, fun value => ⟨overwrite?_eq_none hnone, toList_assign_unbound hnone value,
      fun hdepth => pop_assign_unbound hnone hdepth value⟩⟩

end Scopes

/-- **Every name has one place.** Whatever was done since there was only the global
frame, it is still the outermost one, and every name is bound in no frame or found in
just one, which is read, written in place and assigned alike. -/
theorem Memory.names_resolved (globals : Scope Value) (ops : List (FrameOp Value))
    {m : Memory} (hm : m = FrameOp.run ⟨[], globals⟩ ops) :
    1 ≤ m.depth ∧ m.toList.getLast? = some m.outermost
      ∧ m.outermost.name = globals.name
      ∧ (∃ writes, m.outermost = globals.insertAll writes)
      ∧ (m.depth = 1 → m.pop = none ∧ FrameOp.apply m .pop = m)
      ∧ ∀ name, m.Resolves name := by
  obtain ⟨writes, hwrites⟩ : Scopes.SameBottom ⟨[], globals⟩ m :=
    hm ▸ FrameOp.sameBottom_run _ ops
  refine ⟨m.one_le_depth, List.getLast?_concat, ?_, ⟨writes, hwrites⟩, fun h => ?_, m.resolves⟩
  · rw [hwrites, Scope.name_insertAll]
  · exact ⟨Scopes.pop_of_depth_one h, Scopes.leave_of_depth_one h⟩

/-- What hides a global name, and opens a frame inside. -/
def Memory.shadowing : List (FrameOp Value) :=
  [.push (.empty "call"), .insert "x" (.int 2), .push (.empty "block"), .set "y" (.int 3)]

/-- A hidden name is assigned in the frame that hides it, from inside of that frame. -/
theorem Memory.names_resolved_hidden :
    ∃ m : Memory, m = FrameOp.run ⟨[], (Scope.empty "global").insert "x" (.int 1)⟩ shadowing
      ∧ m.outermost.name = "global"
      ∧ (FrameOp.run (m.assign "x" (.int 4)) [.pop]).get? "x" = some (.int 4)
      ∧ m.outermost.get? "x" = some (.int 1)
      ∧ m.Resolves "z" := by
  let m : Memory := FrameOp.run ⟨[], (Scope.empty "global").insert "x" (.int 1)⟩ shadowing
  obtain ⟨-, -, hname, -, -, hresolves⟩ := names_resolved _ shadowing (m := m) rfl
  have hinside : ∀ f ∈ [(Scope.empty "block").insert "y" (Value.int 3)], f.get? "x" = none := by
    simp [Scope.get?, Scope.insert, Scope.empty, Bindings.get?_insert]
  have hfound : m.Found "x" [(Scope.empty "block").insert "y" (.int 3)]
      ((Scope.empty "call").insert "x" (.int 2))
      [(Scope.empty "global").insert "x" (.int 1)] := ⟨rfl, hinside, rfl⟩
  obtain ⟨-, hassign⟩ := (hresolves "x").bound hfound
  exact ⟨m, rfl, hname, (hassign (.int 4)).2 1 (Nat.le_refl 1), rfl, hresolves "z"⟩

end MatrixLang
