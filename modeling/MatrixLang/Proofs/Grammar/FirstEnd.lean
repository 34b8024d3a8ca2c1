import MatrixLang.Proofs.Grammar.Following

/-!
# The first end of the input

Parsing stops at the first end of the input, whatever stands behind it. A parser that
moves a cursor does not get there by itself: the cursor does not move from the end, so
each round of a loop has to take a token, and a block has to see the end where it would
wait for its brace for ever.

The walk of each rule follows its reader, by induction on the reader's bound
(`Walk.unary_follows`, `Walk.statement_follows`). A reader with bound enough comes to
rest at a token, so the walk comes to rest, too, and within the same bound
(`Walk.program_follows`).
-/

namespace MatrixLang

open Reader (halted)

variable {α : Type} {b k m n : Nat} {c : Cursor} {ts us rest : List Token}

namespace Reader

/-- The items of a list after its first one. -/
def further (item : Reader α) (n : Nat) (ts : List Token) :
    Except Stop (List α × List Token) :=
  match skip? .comma ts with
  | none => .ok ([], ts)
  | some ts => separated item n ts

theorem separated_succ (item : Reader α) (n : Nat) (ts : List Token) :
    separated item (n + 1) ts
      = item ts >>= fun (a, ts) => further item n ts >>= fun (as, ts) => .ok (a :: as, ts) := by
  refine congrArg (item ts >>= ·) (funext fun found => ?_)
  simp only [further]
  cases skip? .comma found.2 <;> rfl

end Reader

namespace Walk

theorem integer_follows : Follows b ts (Reader.integer ts) integer := by
  cases ts with
  | nil => exact .nil
  | cons t ts =>
      obtain ⟨lexeme, l⟩ := t
      refine .lexeme ?_
      cases lexeme with
      | int k => exact .advance rfl (.ok k)
      | _ => exact .unexpected

theorem identifier_follows : Follows b ts (Reader.identifier ts) identifier := by
  cases ts with
  | nil => exact .nil
  | cons t ts =>
      obtain ⟨lexeme, l⟩ := t
      refine .lexeme ?_
      cases lexeme with
      | ident name => exact .advance rfl (.ok name)
      | _ => exact .unexpected

theorem tabled_follows (table : Symbol → Option α) :
    Follows b ts (Reader.tabled table ts) (tabled table) := by
  cases ts with
  | nil => exact .nil
  | cons t ts =>
      obtain ⟨lexeme, l⟩ := t
      refine .lexeme ?_
      cases lexeme with
      | symbol u =>
          cases hu : table u with
          | some x =>
              simp only [Reader.tabled, hu]
              exact .advance rfl (.ok x)
          | none =>
              simp only [Reader.tabled, hu]
              exact .unexpected
      | _ => exact .unexpected

theorem size_follows : Follows b ts (Reader.size ts) size := by
  unfold Reader.size
  split
  · rename_i rest hminus
    refine .eaten hminus ?_
    exact integer_follows.bind fun n _ => .ok (-n)
  · rename_i hminus
    exact .uneaten hminus integer_follows

theorem indices_follows (name : String) :
    Follows b ts (Reader.indices name ts) (indices name) := by
  refine integer_follows.bind fun i ts => ?_
  simp only
  split
  · rename_i hcomma
    exact .uneaten hcomma (.expect fun _ => .ok _)
  · rename_i ts hcomma
    refine .eaten hcomma (integer_follows.bind fun j ts => ?_)
    exact .expect fun _ => .ok _

theorem dims_follows : Follows b ts (Reader.dims ts) dims := by
  refine .expect fun ts => size_follows.bind fun m ts => ?_
  simp only
  split
  · rename_i hcomma
    exact .uneaten hcomma (.expect fun _ => .ok _)
  · rename_i ts hcomma
    refine .eaten hcomma (size_follows.bind fun n ts => ?_)
    exact .expect fun _ => .ok _

theorem transpositions_follows (e : Expr) (hm : ts.length < m) :
    Follows b ts (.ok (Reader.transpositions e ts)) (transpositions m e) := by
  induction ts generalizing b e m with
  | nil => exact .nil
  | cons t ts ih =>
      obtain ⟨m, rfl, hle⟩ := Reader.exists_of_succ_le hm
      rw [transpositions]
      refine .position fun p hp => ?_
      by_cases ht : t.lexeme = .symbol .quote
      · obtain ⟨lexeme, l⟩ := t
        obtain rfl : lexeme = .symbol .quote := ht
        have hquote : Reader.skip? .quote (⟨.symbol .quote, l⟩ :: ts) = some ts := rfl
        exact .eaten hquote (.round (Nat.lt_succ_self p) (ih _ hle))
      · have hstop := Reader.skip?_of_ne ht ts
        rw [Reader.transpositions_stop hstop]
        exact .uneaten hstop (.ok e)

/-! ### Lists and levels of operators -/

section

variable {item : Reader Expr} {walk : Walk Expr}
  (hitem : ∀ b ts, Follows b ts (item ts) walk)

include hitem

omit hitem in
theorem further_follows
    (h : ∀ p ts, Follows (p + 1) ts (Reader.separated item n ts) do
      let e ← walk
      round p
      let es ← furtherItems walk m
      return e :: es) :
    Follows b ts (Reader.further item n ts) (furtherItems walk (m + 1)) := by
  rw [furtherItems]
  refine .position fun p hp => ?_
  unfold Reader.further
  split
  · rename_i hcomma
    exact .uneaten hcomma (.ok [])
  · rename_i ts hcomma
    exact .eaten hcomma (h p ts)

theorem furtherItems_follows (hn : n < m) :
    Follows b ts (Reader.further item n ts) (furtherItems walk m) := by
  induction n generalizing b ts m with
  | zero =>
      obtain ⟨m, rfl, -⟩ := Reader.exists_of_succ_le hn
      exact further_follows fun _ _ => .exhausted
  | succ n ih =>
      obtain ⟨m, rfl, hle⟩ := Reader.exists_of_succ_le hn
      refine further_follows fun p ts => ?_
      rw [Reader.separated_succ]
      refine (hitem _ _).bind fun e ts => .round (Nat.lt_succ_self p) ?_
      exact (ih hle).bind fun es ts => .ok (e :: es)

theorem items_follows (hn : n ≤ m) :
    Follows b ts (Reader.separated item n ts) (items m walk) := by
  cases n with
  | zero => exact .exhausted
  | succ n =>
      rw [Reader.separated_succ, items]
      refine (hitem b ts).bind fun e ts => ?_
      exact (furtherItems_follows hitem hn).bind fun es ts => .ok (e :: es)

theorem operations_follows {level : Reader.Level} (hn : n ≤ m) (left : Expr) :
    Follows b ts (Reader.operations level item n left ts) (operations level walk m left) := by
  induction n generalizing b ts m left with
  | zero => exact .exhausted
  | succ n ih =>
      obtain ⟨m, rfl, hle⟩ := Reader.exists_of_succ_le hn
      rw [operations]
      refine .position fun p hp => ?_
      unfold Reader.operations
      split
      · rename_i hop
        exact .unoperated hop (.ok left)
      · rename_i op ts hop
        refine .operated hop ((hitem _ _).bind fun right ts => ?_)
        exact .round (Nat.lt_succ_self p) (ih hle _)

theorem leveled_follows (hn : n ≤ m) (levels : List Reader.Level) :
    ∀ b ts, Follows b ts
      (levels.foldr (fun level operand => Reader.leveled level n operand) item ts)
      (leveled m walk levels) := by
  induction levels with
  | nil => exact hitem
  | cons level tighter ih =>
      intro b ts
      rw [leveled]
      exact (ih b ts).bind fun left ts => operations_follows ih hn left

/-! ### Primaries -/

theorem bracketList_follows (hn : n ≤ m) (l : Nat) :
    Follows b (⟨.symbol .lbracket, l⟩ :: ts)
      (Reader.bracketList l (Reader.separated item n) ts) (bracketList m walk) := by
  rw [bracketList]
  refine .line (.expected ?_)
  unfold Reader.bracketList
  split
  · rename_i hclose
    exact .eaten hclose (.ok _)
  · rename_i hclose
    refine .uneaten hclose ((items_follows hitem hn).bind fun es ts => ?_)
    exact .expect fun _ => .ok _

theorem primary_follows (hn : n ≤ m) :
    Follows b ts (Reader.primaryOf n item ts) (primary m walk) := by
  cases ts with
  | nil => exact .nil
  | cons t ts =>
      obtain ⟨lexeme, l⟩ := t
      rw [primary]
      refine .line (.lexeme ?_)
      cases lexeme with
      | int k => exact .advance rfl (.ok _)
      | float x => exact .advance rfl (.ok _)
      | str text => exact .advance rfl (.ok _)
      | ident name =>
          refine .line (.identified ?_)
          unfold Reader.primaryOf
          simp only
          split
          · rename_i hbracket
            exact .uneaten hbracket (.ok _)
          · rename_i ts hbracket
            exact .eaten hbracket ((indices_follows name).bind fun _ _ => .ok _)
      | word k =>
          cases hk : Reader.constructor? k with
          | none =>
              simp only [Reader.primaryOf, hk]
              exact .unexpected
          | some f =>
              simp only [Reader.primaryOf, hk]
              exact .line (.advance rfl (dims_follows.bind fun _ _ => .ok _))
      | symbol u =>
          cases u with
          | lparen => exact .advance rfl ((hitem _ _).bind fun e _ => .expect fun _ => .ok e)
          | lbracket => exact bracketList_follows hitem hn l
          | _ => exact .unexpected
      | eof => exact .unexpected

end

/-! ### Expressions -/

theorem unary_follows (hn : n ≤ m) : ∀ b ts, Follows b ts (Reader.unary n ts) (unary m) := by
  induction n generalizing m with
  | zero => exact fun _ _ => .exhausted
  | succ n ih =>
      obtain ⟨m, rfl, hle⟩ := Reader.exists_of_succ_le hn
      intro b ts
      cases ts with
      | nil => exact .nil
      | cons t ts =>
          rw [unary]
          refine .check ?_
          by_cases ht : t.lexeme = .symbol .minus
          · obtain ⟨lexeme, l⟩ := t
            obtain rfl : lexeme = .symbol .minus := ht
            exact .line (.advance rfl ((ih hle _ _).bind fun _ _ => .ok _))
          · rw [Reader.skip?_of_ne ht, Reader.unary_of_ne ht]
            have hexpression := leveled_follows (ih hle) hle Reader.levels
            refine (primary_follows hexpression hle).bind fun e ts => ?_
            exact .tokenCount fun count hcount =>
              transpositions_follows e (Nat.lt_succ_of_le hcount)

theorem expression_follows (hn : n ≤ m) :
    ∀ b ts, Follows b ts (Reader.expression n ts) (expression m) :=
  leveled_follows (unary_follows hn) hn Reader.levels

section

variable (hn : n ≤ m)

include hn

theorem condition_follows : Follows b ts (Reader.condition n ts) (condition m) := by
  refine (expression_follows hn _ _).bind fun left ts => ?_
  simp only [Reader.relation_eq_tabled]
  refine (tabled_follows Reader.relation?).bind fun op ts => ?_
  exact (expression_follows hn _ _).bind fun right ts => .ok _

theorem test_follows : Follows b ts (Reader.test n ts) (test m) :=
  .expect fun _ => (condition_follows hn).bind fun e _ => .expect fun _ => .ok e

/-! ### Statements -/

theorem assignment_follows (l : Nat) (name : String) :
    Follows b (⟨.ident name, l⟩ :: ts) (Reader.assignment n l name ts) (assignment m) := by
  refine .line (.identified ?_)
  unfold Reader.assignment
  split
  · rename_i hbracket
    refine .uneaten hbracket ?_
    simp only [Reader.assignOp_eq_tabled]
    refine (tabled_follows Reader.assignOp?).bind fun op ts => ?_
    exact (expression_follows hn _ _).bind fun e ts => .expect fun _ => .ok _
  · rename_i ts hbracket
    refine .eaten hbracket ((indices_follows name).bind fun place ts => .expect fun ts => ?_)
    exact (expression_follows hn _ _).bind fun e ts => .expect fun _ => .ok _

theorem header_follows : Follows b ts (Reader.header n ts) (header m) := by
  refine identifier_follows.bind fun var ts => .expect fun ts => ?_
  refine (expression_follows hn _ _).bind fun start ts => .expect fun ts => ?_
  exact (expression_follows hn _ _).bind fun stop ts => .ok _

end

section

variable {walk : Walk Stmt}
  (hstatement : ∀ b ts, Follows b ts (Reader.statement n ts) walk)

include hstatement

theorem elseBranch_follows :
    Follows b ts (Reader.elseBranch (Reader.statement n) ts) (elseBranch walk) := by
  cases ts with
  | nil => exact .nil
  | cons t ts =>
      obtain ⟨lexeme, l⟩ := t
      refine .lexeme ?_
      cases lexeme with
      | word k =>
          cases k with
          | else_ => exact .advance rfl ((hstatement _ _).bind fun s ts => .ok (some s))
          | _ => exact .ok none
      | _ => exact .ok none

theorem blockRest_follows (hm : k ≤ m) :
    Follows b ts (Reader.blockRest (Reader.statement n) k ts) (block walk m) := by
  induction k generalizing b ts m with
  | zero => exact .exhausted
  | succ k ih =>
      obtain ⟨m, rfl, hle⟩ := Reader.exists_of_succ_le hm
      rw [block]
      refine .position fun p hp => .check ?_
      unfold Reader.blockRest
      split
      · rename_i ts hbrace
        obtain ⟨l, rfl⟩ := Reader.eq_of_skip? hbrace
        rw [hbrace]
        exact .advance rfl (.ok [])
      · rename_i hbrace
        rw [hbrace]
        cases ts with
        | nil => exact .nil
        | cons t ts =>
            obtain ⟨lexeme, l⟩ := t
            refine .lexeme ?_
            cases lexeme with
            | eof =>
                cases n with
                | zero => exact .exhausted
                | succ n => exact .unexpected
            | _ =>
                refine (hstatement _ _).bind_takes (fun _ _ h => ?_) fun st ts => ?_
                · exact (Reader.statement_accepts h).length_lt rfl
                · refine .round (Nat.lt_succ_self p) ?_
                  exact (ih hle).bind fun body ts => .ok (st :: body)

end

theorem statement_follows (hn : n ≤ m) :
    ∀ b ts, Follows b ts (Reader.statement n ts) (statement m) := by
  induction n generalizing m with
  | zero => exact fun _ _ => .exhausted
  | succ n ih =>
      obtain ⟨m, rfl, hle⟩ := Reader.exists_of_succ_le hn
      intro b ts
      cases ts with
      | nil => exact .nil
      | cons t ts =>
          obtain ⟨lexeme, l⟩ := t
          rw [statement]
          refine .line (.lexeme ?_)
          cases lexeme with
          | symbol u =>
              cases u with
              | lbrace =>
                  exact .advance rfl ((blockRest_follows (ih hle) hle).bind fun body _ =>
                    .ok _)
              | _ => exact .unexpected
          | word k =>
              cases k with
              | if_ =>
                  refine .advance rfl ((test_follows hle).bind fun e ts => ?_)
                  refine (ih hle _ _).bind fun yes ts => ?_
                  exact (elseBranch_follows (ih hle)).bind fun no ts => .ok _
              | while_ =>
                  refine .advance rfl ((test_follows hle).bind fun e ts => ?_)
                  exact (ih hle _ _).bind fun body ts => .ok _
              | for_ =>
                  refine .advance rfl ((header_follows hle).bind fun h ts => ?_)
                  exact (ih hle _ _).bind fun body ts => .ok _
              | break_ => exact .advance rfl (.expect fun _ => .ok _)
              | continue_ => exact .advance rfl (.expect fun _ => .ok _)
              | return_ =>
                  refine .advance rfl ((expression_follows hle _ _).bind fun e ts => ?_)
                  exact .expect fun _ => .ok _
              | print =>
                  refine .advance rfl ((items_follows (expression_follows hle) hle).bind
                    fun es ts => ?_)
                  exact .expect fun _ => .ok _
              | _ => exact .unexpected
          | ident name => exact assignment_follows hle l name
          | _ => exact .unexpected

/-! ### Programs -/

theorem program_end (h : c.atEnd = true) : (program (n + 1)).run c = some (⟨[], []⟩, c) := by
  simp [program, h]

theorem program_error {d : Diagnostic} {c' : Cursor} (h : c.atEnd = false)
    (hs : (statement n).from c = some (.error d, c')) :
    (program (n + 1)).run c = some (⟨[], [d]⟩, c') := by
  have hrun : (statement n).run.run c = some (.error d, c') := hs
  simp [program, h, hrun]

theorem program_ok {st : Stmt} {c' : Cursor} (h : c.atEnd = false)
    (hs : (statement n).from c = some (.ok st, c')) :
    (program (n + 1)).run c = ((program n).run (c'.round c.pos)).map fun (p, c'') =>
      ({ p with program := st :: p.program }, c'') := by
  have hrun : (statement n).run.run c = some (.ok st, c') := hs
  simp [program, h, hrun]

/-- A statement that was read is a round of the loop. -/
theorem statement_round {st : Stmt} (hc : c.Sees ts) (hn : n ≤ m)
    (hs : Reader.statement n ts = .ok (st, rest)) :
    ∃ us steps c', ts = us ++ rest ∧ (∀ t ∈ us, t.lexeme.isEof = false)
      ∧ Orderly c.pos us.length steps ∧ (statement m).from c = some (.ok st, c')
      ∧ c'.round c.pos = c.past us steps := by
  have hshorter := (Reader.statement_accepts hs).length_lt rfl
  obtain ⟨us, steps, rfl, hus, hsteps, hrun⟩ :=
    @statement_follows _ _ hn c.pos ts c (some st) rest hc (Nat.le_refl _) hs
  rw [List.length_append] at hshorter
  refine ⟨us, steps ++ [.round c.pos (c.pos + us.length)], _, rfl, hus, ?_, hrun, ?_⟩
  · exact hsteps.append (.round (by omega))
  · simp [Cursor.past, Cursor.round]

/-- Statements are walked along as they are read. -/
theorem program_follows (hc : c.Sees ts) (hlength : ts.length + 1 < n) (hn : n ≤ m) :
    ∃ us rest steps, ts = us ++ rest ∧ (∀ t ∈ us, t.lexeme.isEof = false)
      ∧ Orderly c.pos us.length steps
      ∧ (program m).run c = some (Parse.statements n ts, c.past us steps) := by
  induction n generalizing c ts m with
  | zero => omega
  | succ n ih =>
      obtain ⟨m, rfl, hle⟩ := Reader.exists_of_succ_le hn
      have hatEnd : c.atEnd = Parse.atEnd ts := by
        obtain ⟨t, us, rfl⟩ := List.exists_cons_of_ne_nil hc.ne_nil
        exact congrArg Lexeme.isEof hc.lexeme_eq
      by_cases hend : Parse.atEnd ts = true
      · refine ⟨[], ts, [], rfl, nofun, .nil _, ?_⟩
        rw [program_end (hatEnd.trans hend), c.past_nil, Parse.statements, if_pos hend]
      have hgo : Parse.atEnd ts = false := Bool.eq_false_iff.mpr hend
      cases hs : Reader.statement n ts with
      | error stop =>
          obtain ⟨rest, rfl, -⟩ := Reader.statement_stalls (by omega) hs
          obtain ⟨us, steps, rfl, hus, hsteps, hrun⟩ :=
            @statement_follows _ _ hle c.pos ts c none rest hc (Nat.le_refl _) hs
          refine ⟨us, rest, steps, rfl, hus, hsteps, ?_⟩
          rw [program_error (hatEnd.trans hgo) hrun, Parse.statements_of_error hgo hs]
      | ok found =>
          obtain ⟨st, mid⟩ := found
          have hshorter := (Reader.statement_accepts hs).length_lt rfl
          obtain ⟨us, steps, c', rfl, hus, hsteps, hrun, hround⟩ := statement_round hc hle hs
          obtain ⟨vs, rest, later, rfl, hvs, hlater, hrest⟩ :=
            ih (hc.past hus steps) (by omega) hle
          refine ⟨us ++ vs, rest, steps ++ later, (List.append_assoc us vs rest).symm,
            List.forall_mem_append.mpr ⟨hus, hvs⟩, ?_, ?_⟩
          · rw [List.length_append]
            exact hsteps.append hlater
          · rw [program_ok (hatEnd.trans hgo) hrun, hround, hrest, c.past_append,
              Parse.statements_of_ok hgo hs]
            rfl

end Walk

/-! ## The first end of the input -/

theorem parse_of_eof (ts : List Token) (l : Nat) (rest : List Token) :
    parse (ts ++ ⟨.eof, l⟩ :: rest)
      = Parse.statements ((ts ++ ⟨.eof, l⟩ :: rest).length + 2)
        (ts ++ ⟨.eof, l⟩ :: rest) := by
  have hended : Parse.ended (ts ++ ⟨.eof, l⟩ :: rest) = ts ++ ⟨.eof, l⟩ :: rest := by
    unfold Parse.ended
    rw [if_pos]
    simp [Lexeme.isEof]
  unfold parse
  rw [hended]

/-- What stands behind an end of the input is not looked at. -/
theorem parse_eof_append (ts : List Token) (l : Nat) (rest : List Token) :
    parse (ts ++ ⟨.eof, l⟩ :: rest) = parse (ts ++ [⟨.eof, l⟩]) := by
  obtain ⟨failed, p, us, t, behind, hsplit, -, -, hagain⟩ :=
    Parse.rest_eof (Eq.refl (ts ++ [⟨.eof, l⟩])) fun l => l
  rw [Token.map_mapLine_id, Token.mapLine_id, hsplit] at hagain
  have hall : ts ++ ⟨.eof, l⟩ :: rest = us ++ t :: (behind ++ rest) := by
    rw [List.append_cons, hsplit, List.append_assoc, List.cons_append]
  rw [parse_of_eof, parse_of_eof, hall, hagain, hsplit, hagain _ _ (Nat.le_refl _)]
  · cases failed <;> rfl
  · simp only [List.length_append, List.length_cons]
    omega

/-- **Parsing stops at the first end of the input.** Tokens are parsed as though any
end of the input among them, hence the first one, were the last of them. With every
bound on loops and nesting from `ts.length + 3` on, whatever stands behind that end, the
walk comes to rest with this parse, and its cursor not beyond that end; it took each
position once, and no loop came around without taking one. -/
theorem walk_first_end (ts : List Token) (l : Nat) (rest : List Token) :
    parse (ts ++ ⟨.eof, l⟩ :: rest) = parse (ts ++ [⟨.eof, l⟩])
      ∧ ∀ more, ∃ k steps,
        (Walk.program (ts.length + 3 + more)).run (.start (ts ++ ⟨.eof, l⟩ :: rest))
          = some (parse (ts ++ [⟨.eof, l⟩]), ⟨ts ++ ⟨.eof, l⟩ :: rest, k, steps⟩)
        ∧ k ≤ ts.length ∧ steps.filterMap Step.taken? = List.range k
        ∧ ∀ i j, .round i j ∈ steps → i < j := by
  refine ⟨parse_eof_append ts l rest, fun more => ?_⟩
  have hsees : (Cursor.start (ts ++ ⟨.eof, l⟩ :: rest)).Sees (ts ++ [⟨.eof, l⟩]) :=
    ⟨⟨rest, by simp [Cursor.start]⟩, ⟨.eof, l⟩, by simp, rfl⟩
  obtain ⟨us, behind, steps, hsplit, hus, hsteps, hrun⟩ :=
    @Walk.program_follows (ts.length + 3 + more) (ts.length + 3) _ _ hsees (by simp)
      (Nat.le_add_right _ _)
  refine ⟨us.length, steps, ?_, ?_, ?_, hsteps.rounds⟩
  · rw [hrun, Reader.parse_eof]
    simp [Cursor.past, Cursor.start]
  · refine Nat.le_of_not_lt fun hlt => ?_
    have hleft : (us ++ behind)[ts.length]? = us[ts.length]? :=
      List.getElem?_append_left hlt
    have hget : us[ts.length]? = some ⟨.eof, l⟩ := by
      rw [← hleft, ← hsplit]
      simp
    have heof := hus _ (List.mem_of_getElem? hget)
    cases heof
  · rw [hsteps.takes, List.range_eq_range']
    rfl

end MatrixLang
