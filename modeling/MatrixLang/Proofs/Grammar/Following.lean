import MatrixLang.Proofs.Grammar.Boundary
import MatrixLang.Proofs.Grammar.Cursor

/-!
# Walks that follow a reader

A reader takes a list of tokens apart, and a walk moves a cursor along it. The walk
follows the reader if it comes to rest where the reader does, and with the same outcome
(`Follows`). It then also kept order: it took the tokens in between one by one and none
of them twice, none is the end of the input, and every loop that came around had taken a
token (`Orderly`).

`Follows` goes through the ways in which walks are put together. It counts from a
position on: behind a token that was taken the count is one higher, and that is what a
round of a loop has to show for itself (`Follows.round`).
-/

namespace MatrixLang

open Reader (halted)

variable {α β : Type} {b p k m n : Nat} {c : Cursor} {ts us rest : List Token}
  {s : Symbol} {r : Except Stop (α × List Token)}

/-! ## Cursors -/

/-- The cursor stands before these tokens, and the end of the input is one of them. -/
structure Cursor.Sees (c : Cursor) (ts : List Token) : Prop where
  ahead : ts <+: c.tokens.drop c.pos
  ends : ∃ t ∈ ts, t.lexeme.isEof = true

/-- The steps take `k` positions from `p` on, each once, and no loop comes around
without taking one. -/
structure Orderly (p k : Nat) (steps : List Step) : Prop where
  takes : steps.filterMap Step.taken? = List.range' p k
  rounds : ∀ i j, .round i j ∈ steps → i < j

/-- The cursor beyond these tokens. -/
def Cursor.past (c : Cursor) (us : List Token) (steps : List Step) : Cursor :=
  { c with
    pos := c.pos + us.length
    trace := c.trace ++ steps }

namespace Orderly

theorem nil (p : Nat) : Orderly p 0 [] := ⟨rfl, nofun⟩

theorem append {steps later : List Step} (h : Orderly p k steps)
    (hlater : Orderly (p + k) m later) : Orderly p (k + m) (steps ++ later) := by
  refine ⟨?_, fun i j hmem => ?_⟩
  · rw [List.filterMap_append, h.takes, hlater.takes, List.range'_append_1]
  · exact (List.mem_append.mp hmem).elim (h.rounds i j) (hlater.rounds i j)

theorem took (p : Nat) : Orderly p 1 [.took p] := ⟨rfl, by simp⟩

theorem round (h : p < k) : Orderly k 0 [.round p k] := ⟨rfl, by simpa using h⟩

end Orderly

namespace Cursor

theorem past_nil (c : Cursor) : c.past [] [] = c := by
  simp [past]

theorem past_append (c : Cursor) (us vs : List Token) (steps later : List Step) :
    (c.past us steps).past vs later = c.past (us ++ vs) (steps ++ later) := by
  simp [past, Nat.add_assoc]

namespace Sees

theorem past (h : c.Sees (us ++ rest)) (hus : ∀ t ∈ us, t.lexeme.isEof = false)
    (steps : List Step) : (c.past us steps).Sees rest := by
  refine ⟨?_, ?_⟩
  · obtain ⟨behind, hbehind⟩ := h.ahead
    refine ⟨behind, ?_⟩
    rw [Cursor.past, ← List.drop_drop, ← hbehind, List.append_assoc, List.drop_left]
  · obtain ⟨t, ht, heof⟩ := h.ends
    rcases List.mem_append.mp ht with ht | ht
    · rw [hus t ht] at heof
      cases heof
    · exact ⟨t, ht, heof⟩

theorem ne_nil (h : c.Sees ts) : ts ≠ [] := by
  obtain ⟨t, ht, -⟩ := h.ends
  exact List.ne_nil_of_mem ht

theorem length_le (h : c.Sees ts) : ts.length ≤ c.tokens.length := by
  have hlength := h.ahead.length_le
  rw [List.length_drop] at hlength
  omega

theorem current (h : c.Sees (t :: ts)) : c.current? = some t := by
  obtain ⟨behind, hbehind⟩ := h.ahead
  have hget : c.tokens[c.pos]? = some t := by
    rw [← List.head?_drop, ← hbehind]
    rfl
  rw [current?, hget, Option.some_or]

theorem lexeme_eq (h : c.Sees (t :: ts)) : c.lexeme = t.lexeme := by
  rw [lexeme, h.current]
  rfl

theorem line_eq (h : c.Sees (t :: ts)) : c.line = t.line := by
  rw [line, h.current]
  rfl

theorem advance_eq (h : c.Sees (t :: ts)) (ht : t.lexeme.isEof = false) :
    c.advance = c.past [t] [.took c.pos] := by
  rw [advance, atEnd, h.lexeme_eq, ht]
  rfl

theorem unexpected_eq (h : c.Sees ts) : c.unexpected = (Stop.unexpected ts).diagnostic := by
  obtain ⟨t, us, rfl⟩ := List.exists_cons_of_ne_nil h.ne_nil
  rw [unexpected, atEnd, h.lexeme_eq, h.line_eq, Stop.diagnostic]

end Sees

end Cursor

/-! ## Walks that follow a reader -/

def Walk.from (w : Walk α) (c : Cursor) : Option (Except Diagnostic α × Cursor) := w.run.run c

theorem Walk.from_bind (w : Walk α) (f : α → Walk β) (c : Cursor) :
    (w >>= f).from c = match w.from c with
      | none => none
      | some (.error d, c) => some (.error d, c)
      | some (.ok a, c) => (f a).from c := by
  have hbind : (w >>= f).from c
      = (w.from c).bind fun r => ExceptT.bindCont f r.1 r.2 := rfl
  rw [hbind]
  rcases w.from c with - | ⟨- | a, c⟩ <;> rfl

theorem Walk.unexpected_bind (f : α → Walk β) :
    (Walk.unexpected >>= f) = Walk.unexpected := by
  funext c
  rfl

/-- What a walk gives that comes to rest before these tokens. -/
def outcome : Option α → List Token → Except Diagnostic α
  | some x, _ => .ok x
  | none, rest => .error (Stop.unexpected rest).diagnostic

/-- Where the reading comes to rest the walk does, too, and with the same outcome: it
takes the tokens before in order, and none of them is the end of the input. This is
asked of cursors that stand at `b` or behind it. -/
def Follows (b : Nat) (ts : List Token) (r : Except Stop (α × List Token)) (w : Walk α) :
    Prop :=
  ∀ ⦃c x rest⦄, c.Sees ts → b ≤ c.pos → r = halted x rest →
    ∃ us steps, ts = us ++ rest ∧ (∀ t ∈ us, t.lexeme.isEof = false)
      ∧ Orderly c.pos us.length steps ∧ w.from c = some (outcome x rest, c.past us steps)

namespace Follows

theorem ok (a : α) : Follows b ts (.ok (a, ts)) (pure a) := by
  intro c x rest hc hb h
  cases x with
  | none => cases h
  | some x =>
      cases h
      exact ⟨[], [], rfl, nofun, .nil _, by rw [c.past_nil]; rfl⟩

theorem unexpected : @Follows α b ts (.error (.unexpected ts)) Walk.unexpected := by
  intro c x rest hc hb h
  cases x with
  | some x => cases h
  | none =>
      cases h
      refine ⟨[], [], rfl, nofun, .nil _, ?_⟩
      rw [c.past_nil, outcome, ← hc.unexpected_eq]
      rfl

/-- Nothing is asked where the bound on the nesting was too small. -/
theorem exhausted {w : Walk α} : Follows b ts (.error .exhausted) w := by
  intro c x rest hc hb h
  cases x <;> cases h

theorem nil {w : Walk α} : Follows b [] r w := fun _ _ _ hc => absurd rfl hc.ne_nil

theorem mono {w : Walk α} (h : Follows b ts r w) (hb : b ≤ p) : Follows p ts r w :=
  fun _ _ _ hc hp => h hc (Nat.le_trans hb hp)

section

variable {w : Walk α} {f : α → Walk β}
  {next : α × List Token → Except Stop (β × List Token)}

/-- The second part starts as many positions on as the first one took tokens. -/
theorem bind_from (hw : Follows b ts r w)
    (hf : ∀ a rest, r = .ok (a, rest) →
      Follows (b + (ts.length - rest.length)) rest (next (a, rest)) (f a)) :
    Follows b ts (r >>= next) (w >>= f) := by
  intro c x rest hc hb h
  cases hr : r with
  | error stop =>
      rw [hr, error_bind] at h
      cases x with
      | some x => cases h
      | none =>
          cases h
          obtain ⟨us, steps, hts, hus, hsteps, hrun⟩ := hw (x := none) hc hb hr
          exact ⟨us, steps, hts, hus, hsteps, by rw [Walk.from_bind, hrun]; rfl⟩
  | ok found =>
      obtain ⟨a, mid⟩ := found
      rw [hr, ok_bind] at h
      obtain ⟨us, steps, rfl, hus, hsteps, hrun⟩ := hw (x := some a) hc hb hr
      have hpos : b + ((us ++ mid).length - mid.length) ≤ (c.past us steps).pos := by
        rw [List.length_append, Nat.add_sub_cancel]
        exact Nat.add_le_add_right hb _
      obtain ⟨vs, later, rfl, hvs, hlater, hrest⟩ :=
        hf a mid hr (hc.past hus steps) hpos h
      refine ⟨us ++ vs, steps ++ later, (List.append_assoc us vs rest).symm,
        List.forall_mem_append.mpr ⟨hus, hvs⟩, ?_, ?_⟩
      · rw [List.length_append]
        exact hsteps.append hlater
      · rw [Walk.from_bind, hrun, ← c.past_append]
        exact hrest

theorem bind (hw : Follows b ts r w) (hf : ∀ a rest, Follows b rest (next (a, rest)) (f a)) :
    Follows b ts (r >>= next) (w >>= f) :=
  hw.bind_from fun a rest _ => (hf a rest).mono (Nat.le_add_right b _)

theorem bind_takes (hw : Follows b ts r w)
    (htakes : ∀ a rest, r = .ok (a, rest) → rest.length < ts.length)
    (hf : ∀ a rest, Follows (b + 1) rest (next (a, rest)) (f a)) :
    Follows b ts (r >>= next) (w >>= f) := by
  refine hw.bind_from fun a rest hr => (hf a rest).mono ?_
  have hlt := htakes a rest hr
  omega

end

/-! ### What a cursor is asked -/

variable {w : Walk α} {t : Token}

theorem lexeme {w : Lexeme → Walk α} (h : Follows b (t :: ts) r (w t.lexeme)) :
    Follows b (t :: ts) r (Walk.lexeme >>= w) := by
  intro c x rest hc hb hr
  have hrun : (Walk.lexeme >>= w).from c = (w t.lexeme).from c := by
    rw [← hc.lexeme_eq]
    rfl
  rw [hrun]
  exact h hc hb hr

theorem line {w : Nat → Walk α} (h : Follows b (t :: ts) r (w t.line)) :
    Follows b (t :: ts) r (Walk.line >>= w) := by
  intro c x rest hc hb hr
  have hrun : (Walk.line >>= w).from c = (w t.line).from c := by
    rw [← hc.line_eq]
    rfl
  rw [hrun]
  exact h hc hb hr

theorem position {w : Nat → Walk α} (h : ∀ p, b ≤ p → Follows p ts r (w p)) :
    Follows b ts r (Walk.position >>= w) := by
  intro c x rest hc hb hr
  exact h c.pos hb hc (Nat.le_refl _) hr

theorem tokenCount {w : Nat → Walk α} (h : ∀ m, ts.length ≤ m → Follows b ts r (w m)) :
    Follows b ts r (Walk.tokenCount >>= w) := by
  intro c x rest hc hb hr
  exact h c.tokens.length hc.length_le hc hb hr

theorem round (hp : p < b) (h : Follows b ts r w) :
    Follows b ts r (Walk.round p >>= fun _ => w) := by
  intro c x rest hc hb hr
  have hround : c.round p = c.past [] [.round p c.pos] := rfl
  have hnone : ∀ u ∈ ([] : List Token), u.lexeme.isEof = false := nofun
  have hc' : (c.round p).Sees ts := hround ▸ hc.past hnone _
  obtain ⟨us, steps, hts, hus, hsteps, hrun⟩ := h hc' hb hr
  refine ⟨us, .round p c.pos :: steps, hts, hus, ?_, ?_⟩
  · have horder := (Orderly.round (Nat.lt_of_lt_of_le hp hb)).append hsteps
    rwa [Nat.zero_add] at horder
  · rw [hround, c.past_append] at hrun
    exact hrun

theorem advance (ht : t.lexeme.isEof = false) (h : Follows (b + 1) ts r w) :
    Follows b (t :: ts) r (Walk.advance >>= fun _ => w) := by
  intro c x rest hc hb hr
  have htook := hc.advance_eq ht
  have hone : ∀ u ∈ [t], u.lexeme.isEof = false := by simpa using ht
  have hc' : c.advance.Sees ts := htook ▸ hc.past hone _
  have hpos : c.advance.pos = c.pos + 1 := by
    rw [htook]
    rfl
  obtain ⟨us, steps, rfl, hus, hsteps, hrun⟩ := h hc' (by omega) hr
  refine ⟨t :: us, .took c.pos :: steps, rfl, List.forall_mem_cons.mpr ⟨ht, hus⟩, ?_, ?_⟩
  · rw [hpos] at hsteps
    have horder := (Orderly.took c.pos).append hsteps
    rwa [Nat.add_comm] at horder
  · have hadvance : (Walk.advance >>= fun _ => w).from c = w.from c.advance := rfl
    rw [hadvance, hrun, htook, c.past_append]
    rfl

/-! ### Single tokens -/

variable {yes no : Walk α} {ts' : List Token}

theorem check {w : Bool → Walk α} (h : Follows b ts r (w (Reader.skip? s ts).isSome)) :
    Follows b ts r (Walk.check s >>= w) := by
  cases ts with
  | nil => exact .nil
  | cons t ts =>
      obtain ⟨lexeme, l⟩ := t
      rw [Walk.check, bind_assoc]
      refine .lexeme ?_
      cases lexeme with
      | symbol u =>
          by_cases hu : u = s
          · simpa only [Reader.skip?, hu, decide_true, if_true, pure_bind,
              Option.isSome_some] using h
          · simpa only [Reader.skip?, hu, decide_false, if_false, pure_bind,
              Option.isSome_none] using h
      | _ => exact h

theorem eaten (hs : Reader.skip? s ts = some ts') (h : Follows (b + 1) ts' r yes) :
    Follows b ts r (Walk.eat s >>= fun found => if found = true then yes else no) := by
  obtain ⟨l, rfl⟩ := Reader.eq_of_skip? hs
  rw [Walk.eat, bind_assoc]
  refine .check ?_
  rw [hs]
  exact .advance rfl h

theorem uneaten (hs : Reader.skip? s ts = none) (h : Follows b ts r no) :
    Follows b ts r (Walk.eat s >>= fun found => if found = true then yes else no) := by
  rw [Walk.eat, bind_assoc]
  refine .check ?_
  rw [hs]
  exact h

theorem expected {l : Nat} (h : Follows (b + 1) ts r w) :
    Follows b (⟨.symbol s, l⟩ :: ts) r (Walk.expect s >>= fun _ => w) := by
  rw [Walk.expect, bind_assoc]
  refine .check ?_
  rw [Reader.skip?_symbol, if_pos rfl]
  exact .advance rfl h

theorem expect {next : List Token → Except Stop (α × List Token)}
    (h : ∀ ts', Follows (b + 1) ts' (next ts') w) :
    Follows b ts (Reader.expect s ts >>= next) (Walk.expect s >>= fun _ => w) := by
  unfold Reader.expect
  split
  · rename_i ts' hs
    obtain ⟨l, rfl⟩ := Reader.eq_of_skip? hs
    exact .expected (h ts')
  · rename_i hs
    rw [Walk.expect, bind_assoc]
    refine .check ?_
    rw [hs, Option.isSome_none, if_neg Bool.false_ne_true, Walk.unexpected_bind]
    exact .unexpected

theorem identified {w : String → Walk α} {name : String} {l : Nat}
    (h : Follows (b + 1) ts r (w name)) :
    Follows b (⟨.ident name, l⟩ :: ts) r (Walk.identifier >>= w) := by
  rw [Walk.identifier, bind_assoc]
  refine .lexeme ?_
  simp only [bind_assoc, pure_bind]
  exact .advance rfl h

theorem operated {level : Reader.Level} {op : BinaryOp} {w : Option BinaryOp → Walk α}
    (hop : Reader.operator? level ts = some (op, ts'))
    (h : Follows (b + 1) ts' r (w (some op))) :
    Follows b ts r (Walk.operator level >>= w) := by
  unfold Reader.operator? at hop
  split at hop
  · rename_i u l us
    obtain ⟨op', hlevel, hpair⟩ := Option.map_eq_some_iff.mp hop
    cases hpair
    rw [Walk.operator, bind_assoc]
    refine .lexeme ?_
    simp only [hlevel, bind_assoc, pure_bind]
    exact .advance rfl h
  · cases hop

theorem unoperated {level : Reader.Level} {w : Option BinaryOp → Walk α}
    (hop : Reader.operator? level ts = none) (h : Follows b ts r (w none)) :
    Follows b ts r (Walk.operator level >>= w) := by
  cases ts with
  | nil => exact .nil
  | cons t ts =>
      obtain ⟨lexeme, l⟩ := t
      rw [Walk.operator, bind_assoc]
      refine .lexeme ?_
      cases lexeme with
      | symbol u =>
          have hlevel : level u = none := Option.map_eq_none_iff.mp hop
          simp only [hlevel, pure_bind]
          exact h
      | _ => exact h

end Follows

end MatrixLang
