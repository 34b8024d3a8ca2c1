import MatrixLang.Proofs.Grammar.Reading
import MatrixLang.Proofs.Grammar.Stopped
import MatrixLang.Proofs.Lines

/-!
# Readers look one token ahead

What a reader does depends on the tokens that it takes and on the one at which it
comes to rest, and of these not on the lines. So a reader does the same on every
input that begins in this way, up to the lines of what it gives (`Mimics`); and
more bound on the nesting changes nothing.

`Mimics` goes through the ways in which readers are put together: one after
another (`bind`), by whether a symbol stands next (`skip`), and by what the next
token is (`of_head`). The lemma for a reader follows its text.
-/

namespace MatrixLang.Reader

variable {α α' β β' : Type} {f : Nat → Nat} {n n' m m' : Nat}

/-! ## Doing the same -/

/-- A reader came to rest before these tokens, with a value or without one. -/
def halted : Option α → List Token → Except Stop (α × List Token)
  | some x, rest => .ok (x, rest)
  | none, rest => .error (.unexpected rest)

/-- The two rests begin with the same token, on its new line. -/
def Alike (f : Nat → Nat) (rest rest' : List Token) : Prop :=
  rest'.head? = rest.head?.map (Token.mapLine f)

/-- What `read` does up to where it comes to rest, `read'` does too, on any input
that goes on with the same token there. -/
def Mimics (f : Nat → Nat) (g : α → α') (read : Reader α) (read' : Reader α') :
    Prop :=
  ∀ ⦃ts x rest⦄, read ts = halted x rest →
    ∃ us, ts = us ++ rest ∧ ∀ rest', Alike f rest rest' →
      read' (us.map (Token.mapLine f) ++ rest') = halted (x.map g) rest'

theorem Alike.append {us rest rest' : List Token} (h : Alike f rest rest') :
    Alike f (us ++ rest) (us.map (Token.mapLine f) ++ rest') := by
  cases us with
  | nil => exact h
  | cons => rfl

/-- The same where the tokens that were taken are known. -/
theorem Mimics.at {g : α → α'} {read : Reader α} {read' : Reader α'}
    (h : Mimics f g read read') {x : Option α} {us rest rest' : List Token}
    (hread : read (us ++ rest) = halted x rest) (hr : Alike f rest rest') :
    read' (us.map (Token.mapLine f) ++ rest') = halted (x.map g) rest' := by
  obtain ⟨vs, hvs, hrest⟩ := h hread
  rw [List.append_cancel_right hvs]
  exact hrest rest' hr

theorem skip?_of_ne {s : Symbol} {t : Token} (h : t.lexeme ≠ .symbol s)
    (ts : List Token) : skip? s (t :: ts) = none := by
  obtain ⟨lexeme, l⟩ := t
  cases lexeme with
  | symbol u => exact if_neg fun hu => h (congrArg Lexeme.symbol hu)
  | _ => rfl

namespace Mimics

variable {g : α → α'} {k : β → β'} {read : Reader α} {read' : Reader α'}

/-! ## Ways to put readers together -/

theorem ok {a : α} {b : α'} (hb : g a = b) :
    Mimics f g (fun ts => .ok (a, ts)) (fun ts => .ok (b, ts)) := by
  intro ts x rest h
  subst hb
  cases x with
  | none => cases h
  | some x =>
      cases h
      exact ⟨[], rfl, fun rest' _ => rfl⟩

theorem unexpected :
    Mimics f g (fun ts => .error (.unexpected ts))
      (fun ts => .error (.unexpected ts)) := by
  intro ts x rest h
  cases x with
  | none =>
      cases h
      exact ⟨[], rfl, fun rest' _ => rfl⟩
  | some x => cases h

/-- Nothing is asked where the bound on the nesting was too small. -/
theorem exhausted : Mimics f g (fun _ => .error .exhausted) read' := by
  intro ts x rest h
  cases x <;> cases h

theorem bind {first : Reader α} {first' : Reader α'}
    {next : α × List Token → Except Stop (β × List Token)}
    {next' : α' × List Token → Except Stop (β' × List Token)}
    (hfirst : Mimics f g first first')
    (hnext : ∀ a, Mimics f k (fun ts => next (a, ts)) fun ts => next' (g a, ts)) :
    Mimics f k (fun ts => first ts >>= next) fun ts => first' ts >>= next' := by
  intro ts x rest h
  replace h : (first ts >>= next) = halted x rest := h
  cases hx : first ts with
  | error stop =>
      rw [hx, error_bind] at h
      cases x with
      | some x => cases h
      | none =>
          cases h
          obtain ⟨us, rfl, hus⟩ := hfirst (x := none) hx
          refine ⟨us, rfl, ?_⟩
          intro rest' hr
          simp only [hus rest' hr, halted, error_bind, Option.map_none]
  | ok p =>
      obtain ⟨a, mid⟩ := p
      rw [hx, ok_bind] at h
      obtain ⟨us, rfl, hus⟩ := hfirst (x := some a) hx
      obtain ⟨vs, rfl, hvs⟩ := hnext a h
      refine ⟨us ++ vs, (List.append_assoc us vs rest).symm, ?_⟩
      intro rest' hr
      rw [List.map_append, List.append_assoc]
      simp only [hus _ hr.append, halted, Option.map_some, ok_bind]
      exact hvs rest' hr

/-- The reader takes the next token off, or it goes on as another one that
leaves this choice open. -/
theorem of_head
    (hnil : ∃ other other', Mimics f g other other' ∧ read [] = other []
      ∧ read' [] = other' [])
    (hcons : ∀ t : Token,
      Mimics f g (fun ts => read (t :: ts)) (fun ts => read' (t.mapLine f :: ts))
      ∨ ∃ other other', Mimics f g other other'
        ∧ (∀ ts, read (t :: ts) = other (t :: ts))
        ∧ ∀ ts, read' (t.mapLine f :: ts) = other' (t.mapLine f :: ts)) :
    Mimics f g read read' := by
  intro ts x rest h
  cases ts with
  | nil =>
      obtain ⟨other, other', hother, hread, hread'⟩ := hnil
      rw [hread] at h
      obtain ⟨us, hus, hrest⟩ := hother h
      obtain ⟨rfl, rfl⟩ := List.append_eq_nil_iff.mp hus.symm
      refine ⟨[], rfl, ?_⟩
      intro rest' hr
      obtain rfl : rest' = [] := List.head?_eq_none_iff.mp hr
      rw [← hrest [] hr]
      exact hread'
  | cons t ts =>
      rcases hcons t with htakes | ⟨other, other', hother, hread, hread'⟩
      · obtain ⟨us, rfl, hus⟩ := htakes h
        exact ⟨t :: us, rfl, hus⟩
      · rw [hread] at h
        obtain ⟨us, hus, hrest⟩ := hother h
        refine ⟨us, hus, ?_⟩
        intro rest' hr
        rw [← hrest rest' hr]
        -- whether or not `other` took it, `t` stands first on the new lines too
        have hhead : (us.map (Token.mapLine f) ++ rest').head?
            = some (t.mapLine f) := by
          have happend : Alike f (us ++ rest)
              (us.map (Token.mapLine f) ++ rest') := hr.append
          rw [← hus] at happend
          exact happend
        obtain ⟨ts', hts'⟩ := List.head?_eq_some_iff.mp hhead
        rw [hts']
        exact hread' ts'

theorem skip {s : Symbol} {yes no : Reader α} {yes' no' : Reader α'}
    (hyes : Mimics f g yes yes') (hno : Mimics f g no no') :
    Mimics f g
      (fun ts => match skip? s ts with
        | some ts => yes ts
        | none => no ts)
      (fun ts => match skip? s ts with
        | some ts => yes' ts
        | none => no' ts) := by
  refine of_head ⟨no, no', hno, rfl, rfl⟩ ?_
  intro t
  by_cases ht : t.lexeme = .symbol s
  · obtain ⟨lexeme, l⟩ := t
    obtain rfl : lexeme = .symbol s := ht
    left
    simpa only [skip?, Token.mapLine, if_true] using hyes
  · exact .inr ⟨no, no', hno, fun ts => by rw [skip?_of_ne ht],
      fun ts => by rw [skip?_of_ne (t := t.mapLine f) ht]⟩

/-- A choice whose text begins with the case without the symbol. -/
theorem skip' {s : Symbol} {yes no : Reader α} {yes' no' : Reader α'}
    (hno : Mimics f g no no') (hyes : Mimics f g yes yes') :
    Mimics f g
      (fun ts => match skip? s ts with
        | none => no ts
        | some ts => yes ts)
      (fun ts => match skip? s ts with
        | none => no' ts
        | some ts => yes' ts) := by
  intro ts x rest h
  have hcases : ∀ {γ : Type} (no yes : Reader γ) (ts : List Token),
      (match skip? s ts with
        | none => no ts
        | some ts => yes ts)
      = match skip? s ts with
        | some ts => yes ts
        | none => no ts := by
    intro γ no yes ts
    cases skip? s ts <;> rfl
  simp only [hcases] at h ⊢
  exact skip hyes hno h

theorem expect {s : Symbol} {next : Reader α} {next' : Reader α'}
    (hnext : Mimics f g next next') :
    Mimics f g (fun ts => expect s ts >>= next) fun ts => expect s ts >>= next' := by
  have hskip := skip (s := s) hnext (unexpected (f := f) (g := g))
  intro ts x rest h
  have heq : ∀ {γ : Type} (next : Reader γ) (ts : List Token),
      (Reader.expect s ts >>= next) = match skip? s ts with
        | some ts => next ts
        | none => .error (.unexpected ts) := by
    intro γ next ts
    unfold Reader.expect
    cases skip? s ts <;> rfl
  simp only [heq] at h ⊢
  exact hskip h

theorem operator {level : Level} {no : Reader α} {no' : Reader α'}
    {yes : BinaryOp → Reader α} {yes' : BinaryOp → Reader α'}
    (hno : Mimics f g no no') (hyes : ∀ op, Mimics f g (yes op) (yes' op)) :
    Mimics f g
      (fun ts => match operator? level ts with
        | none => no ts
        | some (op, ts) => yes op ts)
      (fun ts => match operator? level ts with
        | none => no' ts
        | some (op, ts) => yes' op ts) := by
  refine of_head ⟨no, no', hno, rfl, rfl⟩ ?_
  rintro ⟨lexeme, l⟩
  cases lexeme with
  | symbol s =>
      cases hs : level s with
      | none =>
          refine .inr ⟨no, no', hno, fun ts => ?_, fun ts => ?_⟩
          · simp only [operator?, hs, Option.map_none]
          · simp only [operator?, Token.mapLine, hs, Option.map_none]
      | some op =>
          left
          simpa only [operator?, Token.mapLine, hs, Option.map_some] using hyes op
  | _ => exact .inr ⟨no, no', hno, fun _ => rfl, fun _ => rfl⟩

end Mimics

/-! ## Single tokens -/

theorem integer_mimics : Mimics f id integer integer := by
  refine .of_head ⟨_, _, .unexpected, rfl, rfl⟩ ?_
  rintro ⟨lexeme, l⟩
  cases lexeme with
  | int k => exact .inl (.ok rfl)
  | _ => exact .inr ⟨_, _, .unexpected, fun _ => rfl, fun _ => rfl⟩

theorem identifier_mimics : Mimics f id identifier identifier := by
  refine .of_head ⟨_, _, .unexpected, rfl, rfl⟩ ?_
  rintro ⟨lexeme, l⟩
  cases lexeme with
  | ident name => exact .inl (.ok rfl)
  | _ => exact .inr ⟨_, _, .unexpected, fun _ => rfl, fun _ => rfl⟩

theorem tabled_mimics (table : Symbol → Option α) :
    Mimics f id (tabled table) (tabled table) := by
  refine .of_head ⟨_, _, .unexpected, rfl, rfl⟩ ?_
  rintro ⟨lexeme, l⟩
  cases lexeme with
  | symbol s =>
      cases hs : table s with
      | none =>
          refine .inr ⟨_, _, .unexpected, fun ts => ?_, fun ts => ?_⟩
          · simp only [tabled, hs]
          · simp only [tabled, Token.mapLine, hs]
      | some x =>
          left
          simp only [tabled, Token.mapLine, hs]
          exact .ok rfl
  | _ => exact .inr ⟨_, _, .unexpected, fun _ => rfl, fun _ => rfl⟩

theorem relation_mimics : Mimics f id relation relation := by
  rw [relation_eq_tabled]
  exact tabled_mimics relation?

theorem assignOp_mimics : Mimics f id assignOp assignOp := by
  rw [assignOp_eq_tabled]
  exact tabled_mimics assignOp?

theorem size_mimics : Mimics f id size size :=
  .skip (s := .minus) (integer_mimics.bind fun _ => .ok rfl) integer_mimics

/-! ## Lists and levels of operators -/

/-- A bound that is no smaller than a successor is one too. -/
theorem exists_of_succ_le (h : n + 1 ≤ n') : ∃ k, n' = k + 1 ∧ n ≤ k :=
  ⟨n' - 1, by omega, by omega⟩

theorem separated_mimics {item : Reader α} {item' : Reader α'} {g : α → α'}
    (hn : n ≤ n') (hitem : Mimics f g item item') :
    Mimics f (List.map g) (separated item n) (separated item' n') := by
  induction n generalizing n' with
  | zero => exact .exhausted
  | succ n ih =>
      obtain ⟨n', rfl, hle⟩ := exists_of_succ_le hn
      have hrest := ih hle
      exact hitem.bind fun _ =>
        .skip' (s := .comma) (.ok rfl) (hrest.bind fun _ => .ok rfl)

section

variable {operand operand' : Reader Expr}
  (hoperand : Mimics f (Expr.mapLines f) operand operand')

include hoperand

theorem operations_mimics {level : Level} (hm : m ≤ m') (left : Expr) :
    Mimics f (Expr.mapLines f) (operations level operand m left)
      (operations level operand' m' (left.mapLines f)) := by
  induction m generalizing m' left with
  | zero => exact .exhausted
  | succ m ih =>
      obtain ⟨m', rfl, hle⟩ := exists_of_succ_le hm
      refine .operator (.ok rfl) ?_
      intro op
      refine hoperand.bind ?_
      intro right
      -- the node has the line of its left operand
      have hrest := ih hle (.binary left.line op left right)
      rwa [Expr.mapLines, ← Expr.line_mapLines f left] at hrest

theorem leveled_mimics {level : Level} (hn : n ≤ n') :
    Mimics f (Expr.mapLines f) (leveled level n operand)
      (leveled level n' operand') :=
  hoperand.bind fun left => operations_mimics hoperand hn left

theorem expressionOf_mimics (hn : n ≤ n') :
    Mimics f (Expr.mapLines f) (expressionOf n operand)
      (expressionOf n' operand') :=
  leveled_mimics (leveled_mimics (leveled_mimics (leveled_mimics hoperand hn) hn)
    hn) hn

end

/-! ## Primaries -/

theorem indices_mimics (name : String) :
    Mimics f id (indices name) (indices name) :=
  integer_mimics.bind fun _ =>
    .skip' (s := .comma) (.expect (.ok rfl))
      (integer_mimics.bind fun _ => .expect (.ok rfl))

theorem dims_mimics : Mimics f id dims dims :=
  .expect (size_mimics.bind fun _ =>
    .skip' (s := .comma) (.expect (.ok rfl))
      (size_mimics.bind fun _ => .expect (.ok rfl)))

theorem asRow_mapLines (e : Expr) :
    asRow (e.mapLines f) = (asRow e).mapLines f := by
  cases e <;> rfl

theorem bracketed_mapLines (l : Nat) (es : List Expr) :
    (bracketed l es).mapLines f = bracketed (f l) (es.map (Expr.mapLines f)) := by
  unfold bracketed
  simp only [List.all_map, Function.comp_def, Expr.isVector_mapLines,
    Expr.isEmptyMatrix_mapLines]
  split
  · simp only [Expr.mapLines, Expr.mapLinesAll_eq_map, List.map_map,
      Function.comp_def, asRow_mapLines]
  · rw [Expr.mapLines, Expr.mapLinesAll_eq_map]

theorem transpositions_mimics (e : Expr) :
    Mimics f (Expr.mapLines f) (fun ts => .ok (transpositions e ts))
      fun ts => .ok (transpositions (e.mapLines f) ts) := by
  intro ts x rest h
  cases x with
  | none => cases h
  | some x =>
      replace h : transpositions e ts = (x, rest) := Except.ok.inj h
      induction ts generalizing e with
      | nil =>
          cases h
          refine ⟨[], rfl, ?_⟩
          intro rest' hr
          obtain rfl : rest' = [] := List.head?_eq_none_iff.mp hr
          rfl
      | cons t ts ih =>
          by_cases ht : t.lexeme = .symbol .quote
          · obtain ⟨lexeme, l⟩ := t
            obtain rfl : lexeme = .symbol .quote := ht
            obtain ⟨us, rfl, hus⟩ := ih (.transpose e.line e) h
            refine ⟨_ :: us, rfl, ?_⟩
            intro rest' hr
            rw [← hus rest' hr, Expr.mapLines, ← Expr.line_mapLines f e]
            rfl
          · rw [transpositions_stop (skip?_of_ne ht ts)] at h
            cases h
            refine ⟨[], rfl, ?_⟩
            intro rest' hr
            obtain ⟨ts', rfl⟩ := List.head?_eq_some_iff.mp hr
            exact congrArg Except.ok
              (transpositions_stop (skip?_of_ne (t := t.mapLine f) ht ts'))

theorem bracketList_mimics {items items' : Reader (List Expr)} (l : Nat)
    (hitems : Mimics f (List.map (Expr.mapLines f)) items items') :
    Mimics f (Expr.mapLines f) (bracketList l items) (bracketList (f l) items') :=
  .skip (s := .rbracket) (.ok rfl)
    (hitems.bind fun es => .expect (.ok (bracketed_mapLines l es)))

theorem primaryOf_mimics {expression expression' : Reader Expr} (hn : n ≤ n')
    (hexpression : Mimics f (Expr.mapLines f) expression expression') :
    Mimics f (Expr.mapLines f) (primaryOf n expression)
      (primaryOf n' expression') := by
  refine .of_head ⟨_, _, .unexpected, rfl, rfl⟩ ?_
  rintro ⟨lexeme, l⟩
  cases lexeme with
  | int k => exact .inl (.ok rfl)
  | float x => exact .inl (.ok rfl)
  | str s => exact .inl (.ok rfl)
  | ident name =>
      exact .inl (.skip' (s := .lbracket) (.ok rfl)
        ((indices_mimics name).bind fun _ => .ok rfl))
  | word k =>
      cases hk : constructor? k with
      | none =>
          refine .inr ⟨_, _, .unexpected, fun ts => ?_, fun ts => ?_⟩
          · simp only [primaryOf, hk]
          · simp only [primaryOf, Token.mapLine, hk]
      | some c =>
          left
          simp only [primaryOf, Token.mapLine, hk]
          exact dims_mimics.bind fun d => .ok (a := Expr.construct l c d) rfl
  | symbol s =>
      cases s with
      | lparen => exact .inl (hexpression.bind fun _ => .expect (.ok rfl))
      | lbracket =>
          exact .inl (bracketList_mimics l (separated_mimics hn hexpression))
      | _ => exact .inr ⟨_, _, .unexpected, fun _ => rfl, fun _ => rfl⟩
  | eof => exact .inr ⟨_, _, .unexpected, fun _ => rfl, fun _ => rfl⟩

/-! ## Expressions -/

theorem unary_of_ne {t : Token} (h : t.lexeme ≠ .symbol .minus)
    (ts : List Token) :
    unary (n + 1) (t :: ts)
      = (primaryOf n (expression n) (t :: ts) >>= fun p =>
          .ok (transpositions p.1 p.2)) := by
  unfold unary
  split
  · rename_i heq
    cases heq
    exact absurd rfl h
  · rfl

theorem unary_mimics (hn : n ≤ n') :
    Mimics f (Expr.mapLines f) (unary n) (unary n') := by
  induction n generalizing n' with
  | zero => exact .exhausted
  | succ n ih =>
      obtain ⟨n', rfl, hle⟩ := exists_of_succ_le hn
      have hmarked : Mimics f (Expr.mapLines f)
          (fun ts => primaryOf n (expression n) ts >>= fun p =>
            .ok (transpositions p.1 p.2))
          fun ts => primaryOf n' (expression n') ts >>= fun p =>
            .ok (transpositions p.1 p.2) :=
        (primaryOf_mimics hle (expressionOf_mimics (ih hle) hle)).bind
          transpositions_mimics
      refine .of_head ⟨_, _, hmarked, rfl, rfl⟩ ?_
      intro t
      by_cases ht : t.lexeme = .symbol .minus
      · obtain ⟨lexeme, l⟩ := t
        obtain rfl : lexeme = .symbol .minus := ht
        exact .inl ((ih hle).bind fun _ => .ok rfl)
      · exact .inr ⟨_, _, hmarked, unary_of_ne ht,
          unary_of_ne (t := t.mapLine f) ht⟩

theorem expression_mimics (hn : n ≤ n') :
    Mimics f (Expr.mapLines f) (expression n) (expression n') :=
  expressionOf_mimics (unary_mimics hn) hn

/-! ## Statements -/

theorem condition_mimics (hn : n ≤ n') :
    Mimics f (Expr.mapLines f) (condition n) (condition n') :=
  (expression_mimics hn).bind fun left => relation_mimics.bind fun _ =>
    (expression_mimics hn).bind fun _ => .ok (by
      rw [Expr.mapLines, Expr.line_mapLines]
      rfl)

theorem test_mimics (hn : n ≤ n') :
    Mimics f (Expr.mapLines f) (test n) (test n') :=
  .expect ((condition_mimics hn).bind fun _ => .expect (.ok rfl))

theorem assignment_mimics (hn : n ≤ n') (l : Nat) (name : String) :
    Mimics f (Stmt.mapLines f) (assignment n l name) (assignment n' (f l) name) :=
  .skip' (s := .lbracket)
    (assignOp_mimics.bind fun _ => (expression_mimics hn).bind fun _ =>
      .expect (.ok rfl))
    ((indices_mimics name).bind fun _ => .expect
      ((expression_mimics hn).bind fun _ => .expect (.ok rfl)))

theorem header_mimics (hn : n ≤ n') :
    Mimics f (Prod.map id (Range.mapLines f)) (header n) (header n') :=
  identifier_mimics.bind fun _ => .expect
    ((expression_mimics hn).bind fun _ => .expect
      ((expression_mimics hn).bind fun _ => .ok (by
        rw [Expr.line_mapLines]
        rfl)))

section

variable {st st' : Reader Stmt} (hst : Mimics f (Stmt.mapLines f) st st')

include hst

theorem blockRest_mimics (hm : m ≤ m') :
    Mimics f (List.map (Stmt.mapLines f)) (blockRest st m) (blockRest st' m') := by
  induction m generalizing m' with
  | zero => exact .exhausted
  | succ m ih =>
      obtain ⟨m', rfl, hle⟩ := exists_of_succ_le hm
      exact .skip (s := .rbrace) (.ok rfl)
        (hst.bind fun _ => (ih hle).bind fun _ => .ok rfl)

theorem elseBranch_mimics :
    Mimics f (Option.map (Stmt.mapLines f)) (elseBranch st) (elseBranch st') := by
  have absent : Mimics f (Option.map (Stmt.mapLines f)) (fun ts => .ok (none, ts))
      fun ts => .ok (none, ts) := .ok rfl
  refine .of_head ⟨_, _, absent, rfl, rfl⟩ ?_
  rintro ⟨lexeme, l⟩
  cases lexeme with
  | word k =>
      cases k with
      | else_ => exact .inl (hst.bind fun _ => .ok rfl)
      | _ => exact .inr ⟨_, _, absent, fun _ => rfl, fun _ => rfl⟩
  | _ => exact .inr ⟨_, _, absent, fun _ => rfl, fun _ => rfl⟩

end

theorem statement_mimics (hn : n ≤ n') :
    Mimics f (Stmt.mapLines f) (statement n) (statement n') := by
  induction n generalizing n' with
  | zero => exact .exhausted
  | succ n ih =>
      obtain ⟨n', rfl, hle⟩ := exists_of_succ_le hn
      refine .of_head ⟨_, _, .unexpected, rfl, rfl⟩ ?_
      rintro ⟨lexeme, l⟩
      cases lexeme with
      | symbol s =>
          cases s with
          | lbrace =>
              refine .inl ((blockRest_mimics (ih hle) hle).bind fun body => .ok ?_)
              rw [Stmt.mapLines, Stmt.mapLinesAll_eq_map]
          | _ => exact .inr ⟨_, _, .unexpected, fun _ => rfl, fun _ => rfl⟩
      | word k =>
          cases k with
          | if_ =>
              refine .inl ((test_mimics hle).bind fun e => (ih hle).bind fun yes =>
                (elseBranch_mimics (ih hle)).bind fun no => .ok ?_)
              cases no <;> rfl
          | while_ =>
              exact .inl ((test_mimics hle).bind fun _ => (ih hle).bind fun _ =>
                .ok rfl)
          | for_ =>
              exact .inl ((header_mimics hle).bind fun _ => (ih hle).bind fun _ =>
                .ok rfl)
          | break_ => exact .inl (.expect (.ok rfl))
          | continue_ => exact .inl (.expect (.ok rfl))
          | return_ =>
              exact .inl ((expression_mimics hle).bind fun _ => .expect (.ok rfl))
          | print =>
              refine .inl ((separated_mimics hle (expression_mimics hle)).bind fun es =>
                .expect (.ok ?_))
              rw [Stmt.mapLines, Expr.mapLinesAll_eq_map]
          | _ => exact .inr ⟨_, _, .unexpected, fun _ => rfl, fun _ => rfl⟩
      | ident name => exact .inl (assignment_mimics hle l name)
      | _ => exact .inr ⟨_, _, .unexpected, fun _ => rfl, fun _ => rfl⟩

end MatrixLang.Reader

/-! ## Programs -/

namespace MatrixLang.Parse

open Reader

variable {f : Nat → Nat} {ts : List Token} {n : Nat}

theorem atEnd_alike {rest rest' : List Token} (h : Alike f rest rest') :
    atEnd rest' = atEnd rest := by
  cases rest with
  | nil =>
      obtain rfl : rest' = [] := List.head?_eq_none_iff.mp h
      rfl
  | cons t ts =>
      obtain ⟨ts', rfl⟩ := List.head?_eq_some_iff.mp h
      rfl

theorem statements_of_error {stop : Stop} (hend : atEnd ts = false)
    (h : Reader.statement n ts = .error stop) :
    statements (n + 1) ts = ⟨[], [stop.diagnostic]⟩ := by
  simp only [statements, hend, h, Bool.false_eq_true, if_false]

theorem statements_of_ok {s : Stmt} {rest : List Token} (hend : atEnd ts = false)
    (h : Reader.statement n ts = .ok (s, rest)) :
    statements (n + 1) ts
      = ⟨s :: (statements n rest).program, (statements n rest).errors⟩ := by
  simp only [statements, hend, h, Bool.false_eq_true, if_false]

/-- The statements before these tokens, at which the input ends or the first of
which is a mistake. -/
def before (rest : List Token) (failed : Bool) (p : Program) : Parse :=
  ⟨p, if failed then [(Stop.unexpected rest).diagnostic] else []⟩

/-- Reading statements comes to rest at the end of the input or at a mistake. So
it does on every input that begins in this way, with any bound that is not
smaller. -/
theorem statements_rest (hlen : ts.length + 1 < n) (f : Nat → Nat) :
    ∃ failed p us rest, ts = us ++ rest
      ∧ Begins (.many (.rule .instruction)) us
      ∧ statements n ts = before rest failed p
      ∧ ∀ n' rest', n ≤ n' → Alike f rest rest' →
        statements n' (us.map (Token.mapLine f) ++ rest')
          = before rest' failed (p.map (Stmt.mapLines f)) := by
  induction n generalizing ts with
  | zero => omega
  | succ n ih =>
      by_cases hend : atEnd ts = true
      · refine ⟨false, [], [], ts, rfl, ⟨[], .stop⟩, if_pos hend, ?_⟩
        intro n' rest' hn hr
        obtain ⟨n', rfl, -⟩ := exists_of_succ_le hn
        exact if_pos ((atEnd_alike hr).trans hend)
      have hgo : atEnd ts = false := Bool.eq_false_iff.mpr hend
      cases hs : Reader.statement n ts with
      | error stop =>
          obtain ⟨rest, rfl, us, rfl, hbegins⟩ := statement_stalls (by omega) hs
          -- what the broken statement took begins one more instruction
          refine ⟨true, [], us, rest, rfl, ?_, statements_of_error hgo hs,
            fun n' rest' hn hr => ?_⟩
          · obtain ⟨vs, hvs⟩ := hbegins
            refine ⟨vs, ?_⟩
            have hone := Spells.more hvs .stop
            rwa [List.append_nil] at hone
          · obtain ⟨n', rfl, hle⟩ := exists_of_succ_le hn
            exact statements_of_error ((atEnd_alike hr.append).trans hgo)
              ((statement_mimics hle).at (x := none) hs hr)
      | ok r =>
          obtain ⟨s, mid⟩ := r
          have htakes := statement_accepts hs
          have hshorter := htakes.length_lt rfl
          obtain ⟨failed, p, vs, rest, rfl, ⟨ws, hws⟩, hmid, hrest⟩ :=
            @ih mid (by omega)
          obtain ⟨us, rfl, hus⟩ := htakes
          refine ⟨failed, s :: p, us ++ vs, rest,
            (List.append_assoc us vs rest).symm, ⟨ws, ?_⟩, ?_,
            fun n' rest' hn hr => ?_⟩
          · rw [List.append_assoc]
            exact .more hus hws
          · rw [statements_of_ok hgo hs, hmid]
            rfl
          · obtain ⟨n', rfl, hle⟩ := exists_of_succ_le hn
            have hfirst := (statement_mimics hle).at (x := some s) hs hr.append
            rw [List.map_append, List.append_assoc, statements_of_ok ?_ hfirst,
              hrest n' rest' hle hr]
            · rfl
            · exact (atEnd_alike hr.append.append).trans hgo

variable {body : List Token} {l : Nat}

/-- Parsing tokens that end with the end of the input comes to rest at one of
them. -/
theorem rest_eof (hts : ts = body ++ [⟨.eof, l⟩]) (f : Nat → Nat) :
    ∃ failed p us t rest, ts = us ++ t :: rest
      ∧ Begins (.many (.rule .instruction)) us
      ∧ parse ts = before (t :: rest) failed p
      ∧ ∀ n rest', ts.length + 2 ≤ n →
        statements n (us.map (Token.mapLine f) ++ t.mapLine f :: rest')
          = before (t.mapLine f :: rest') failed (p.map (Stmt.mapLines f)) := by
  have hparse : parse ts = statements (ts.length + 2) ts := by
    rw [hts, parse_eof, List.length_append, List.length_singleton]
  obtain ⟨failed, p, us, rest, hsplit, hus, hread, hagain⟩ :=
    @statements_rest ts (ts.length + 2) (by omega) f
  cases rest with
  | nil =>
      rw [List.append_nil] at hsplit
      obtain ⟨vs, hvs⟩ := hus
      cases hvs.not_eof ⟨.eof, l⟩ (by simp [← hsplit, hts])
  | cons t rest =>
      exact ⟨failed, p, us, t, rest, hsplit, hus, hparse.trans hread,
        fun n rest' hn => hagain n _ hn rfl⟩

/-- A syntax error carries the line of its token. -/
theorem mapLine_diagnostic (t : Token) (rest rest' : List Token) :
    (Stop.unexpected (t :: rest)).diagnostic.mapLine f
      = (Stop.unexpected (t.mapLine f :: rest')).diagnostic := by
  cases ht : t.lexeme.isEof with
  | true =>
      simp only [Stop.diagnostic, Token.mapLine, ht, if_true]
      rfl
  | false =>
      simp only [Stop.diagnostic, Token.mapLine, ht, Bool.false_eq_true, if_false]
      rfl

end MatrixLang.Parse

namespace MatrixLang

variable {f : Nat → Nat}

variable (f) in
def Parse.mapLines (p : Parse) : Parse :=
  ⟨p.program.map (Stmt.mapLines f), p.errors.map (Diagnostic.mapLine f)⟩

/-- Tokens on other lines are parsed to the same program and the same error, on
other lines. -/
theorem parse_mapLines {ts body : List Token} {l : Nat}
    (hts : ts = body ++ [⟨.eof, l⟩]) :
    parse (ts.map (Token.mapLine f)) = (parse ts).mapLines f := by
  have hlines : ts.map (Token.mapLine f)
      = body.map (Token.mapLine f) ++ [⟨.eof, f l⟩] := by
    rw [hts, List.map_append]
    rfl
  obtain ⟨failed, p, us, t, rest, hsplit, -, hread, hagain⟩ :=
    Parse.rest_eof hts f
  have hagain := hagain (ts.length + 2) (rest.map (Token.mapLine f)) (by omega)
  have hlength : ts.length + 2 = (body.map (Token.mapLine f)).length + 3 := by
    rw [hts, List.length_append, List.length_singleton, List.length_map]
  rw [← List.map_cons, ← List.map_append, ← hsplit, hlength, hlines,
    ← Reader.parse_eof, ← hlines] at hagain
  rw [hagain, hread]
  cases failed with
  | false => rfl
  | true =>
      have herror := Parse.mapLine_diagnostic (f := f) t rest
        (rest.map (Token.mapLine f))
      simp only [Parse.mapLines, Parse.before, if_true, List.map_cons,
        List.map_nil, herror]

end MatrixLang
