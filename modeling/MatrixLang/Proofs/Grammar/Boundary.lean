import MatrixLang.Proofs.Grammar.FirstError

/-!
# Where a statement ends

A statement is complete at its semicolon or its closing brace. Only an `if`
without an `else` looks further, and only to see whether an `else` is there. So
what is read of a complete statement does not change with the tokens behind it,
but where it ends open no `else` may be the first of them (`Completes`,
`statement_completes`).

For whole programs this makes reading compositional: what was read of complete
statements is kept, whatever the tokens behind them are, and reading goes on
there as at the beginning of an input (`Parse.Complete`, `parse_append`).
-/

namespace MatrixLang.Reader

variable {α β : Type} {n n' m m' : Nat} {ts us rest : List Token}

/-! ## The first token behind -/

theorem startsElse_append (h : us ≠ []) (rest rest' : List Token) :
    startsElse (us ++ rest) = startsElse (us ++ rest') := by
  obtain ⟨⟨lexeme, l⟩, us, rfl⟩ := List.exists_cons_of_ne_nil h
  cases lexeme with
  | word k => cases k <;> rfl
  | _ => rfl

theorem skip?_append {s : Symbol} (h : us ≠ []) (rest' : List Token)
    (hskip : skip? s (us ++ rest) = none) : skip? s (us ++ rest') = none := by
  obtain ⟨t, us, rfl⟩ := List.exists_cons_of_ne_nil h
  refine skip?_of_ne ?_ (us ++ rest')
  obtain ⟨lexeme, l⟩ := t
  rintro rfl
  simp at hskip

theorem eq_of_skip? {s : Symbol} (h : skip? s ts = some rest) :
    ∃ l, ts = ⟨.symbol s, l⟩ :: rest := by
  unfold skip? at h
  split at h
  · rename_i t l us
    split at h
    · rename_i ht
      cases h
      exact ⟨l, by rw [ht]⟩
    · cases h
  · cases h

/-- A reader that looks one token ahead, on the lines as they are. -/
theorem Mimics.same {g : α → α} {read read' : Reader α}
    (h : Mimics (fun l => l) g read read') (hg : ∀ a, g a = a) {a : α}
    (hread : read ts = .ok (a, rest)) :
    ∃ us, ts = us ++ rest ∧ ∀ rest', rest'.head? = rest.head? →
      read' (us ++ rest') = .ok (a, rest') := by
  obtain ⟨us, hus, hrest⟩ := h (x := some a) hread
  refine ⟨us, hus, ?_⟩
  intro rest' hr
  have hread' := hrest rest' (hr.trans (by cases rest.head? <;> rfl))
  rwa [Token.map_mapLine_id, Option.map_some, hg] at hread'

/-! ## Readers that do not look further -/

/-- What `read` gives of the tokens that it takes, `read'` gives of them too,
whatever follows. Only behind a result that is open no `else` may follow, and
none did. -/
def Completes (isOpen : α → Bool) (read read' : Reader α) : Prop :=
  ∀ ⦃ts a rest⦄, read ts = .ok (a, rest) →
    (isOpen a = true → startsElse rest = false)
      ∧ ∃ us, us ≠ [] ∧ ts = us ++ rest
        ∧ ∀ rest', (isOpen a = true → startsElse rest' = false) →
          read' (us ++ rest') = .ok (a, rest')

namespace Completes

variable {isOpen : β → Bool}

/-- Nothing is asked where nothing is read. -/
theorem fails {read read' : Reader β} (h : ∀ ts r, read ts ≠ .ok r) :
    Completes isOpen read read' :=
  fun _ _ _ hread => absurd hread (h _ _)

/-- A symbol makes the result complete. -/
theorem close {s : Symbol} {b : β} {no no' : Reader β} (hb : isOpen b = false)
    (hno : Completes isOpen no no') :
    Completes isOpen
      (fun ts => match skip? s ts with
        | some ts => .ok (b, ts)
        | none => no ts)
      (fun ts => match skip? s ts with
        | some ts => .ok (b, ts)
        | none => no' ts) := by
  intro ts a rest h
  cases hs : skip? s ts with
  | none =>
      simp only [hs] at h
      obtain ⟨hopen, us, hne, rfl, hus⟩ := hno h
      refine ⟨hopen, us, hne, rfl, ?_⟩
      intro rest' hr
      simp only [skip?_append hne rest' hs]
      exact hus rest' hr
  | some mid =>
      simp only [hs] at h
      cases h
      obtain ⟨l, rfl⟩ := eq_of_skip? hs
      have hclosed : ∀ rest', isOpen b = true → startsElse rest' = false := by
        intro rest' hopen
        rw [hb] at hopen
        cases hopen
      refine ⟨hclosed rest, [⟨.symbol s, l⟩], List.cons_ne_nil _ _, rfl, ?_⟩
      intro rest' _
      simp

theorem expect_close {s : Symbol} {b : β} (hb : isOpen b = false) :
    Completes isOpen (fun ts => expect s ts >>= fun ts => .ok (b, ts))
      fun ts => expect s ts >>= fun ts => .ok (b, ts) := by
  have hno : Completes isOpen (fun ts => .error (.unexpected ts))
      fun ts => .error (.unexpected ts) := fails nofun
  have hclose := close (s := s) hb hno
  have heq : ∀ ts, (expect s ts >>= fun ts => .ok (b, ts))
      = match skip? s ts with
        | some ts => .ok (b, ts)
        | none => .error (.unexpected ts) := by
    intro ts
    unfold expect
    cases skip? s ts <;> rfl
  intro ts a rest h
  simp only [heq] at h ⊢
  exact hclose h

/-- What is read first may look one token ahead, since more is taken behind it. -/
theorem after {first first' : Reader α} {g : α → α}
    {next next' : α × List Token → Except Stop (β × List Token)}
    (hfirst : Mimics (fun l => l) g first first') (hg : ∀ a, g a = a)
    (hnext : ∀ a, Completes isOpen (fun ts => next (a, ts))
      fun ts => next' (a, ts)) :
    Completes isOpen (fun ts => first ts >>= next)
      fun ts => first' ts >>= next' := by
  intro ts b rest h
  obtain ⟨⟨a, mid⟩, hread, hthen⟩ := bind_eq_ok.mp h
  obtain ⟨us, rfl, hus⟩ := hfirst.same hg hread
  obtain ⟨hopen, vs, hne, rfl, hvs⟩ := hnext a hthen
  refine ⟨hopen, us ++ vs, by simp [hne], (List.append_assoc us vs rest).symm, ?_⟩
  intro rest' hr
  have hsame := hus (vs ++ rest') (by
    obtain ⟨t, vs, rfl⟩ := List.exists_cons_of_ne_nil hne
    rfl)
  simp only [List.append_assoc, hsame, ok_bind]
  exact hvs rest' hr

/-- What is read first may be open, since what is taken behind it did not begin
with an `else`. -/
theorem bind {isOpen' : α → Bool} {first first' : Reader α}
    {next next' : α × List Token → Except Stop (β × List Token)}
    (hfirst : Completes isOpen' first first')
    (hnext : ∀ a, Completes isOpen (fun ts => next (a, ts))
      fun ts => next' (a, ts)) :
    Completes isOpen (fun ts => first ts >>= next)
      fun ts => first' ts >>= next' := by
  intro ts b rest h
  obtain ⟨⟨a, mid⟩, hread, hthen⟩ := bind_eq_ok.mp h
  obtain ⟨hmid, us, -, rfl, hus⟩ := hfirst hread
  obtain ⟨hopen, vs, hne, rfl, hvs⟩ := hnext a hthen
  refine ⟨hopen, us ++ vs, by simp [hne], (List.append_assoc us vs rest).symm, ?_⟩
  intro rest' hr
  have hsame := hus (vs ++ rest') (by
    rw [startsElse_append hne rest' rest]
    exact hmid)
  simp only [List.append_assoc, hsame, ok_bind]
  exact hvs rest' hr

theorem map {isOpen' : α → Bool} {first first' : Reader α} {f : α → β}
    (hfirst : Completes isOpen' first first') (hf : ∀ a, isOpen (f a) = isOpen' a) :
    Completes isOpen (fun ts => first ts >>= fun p => .ok (f p.1, p.2))
      fun ts => first' ts >>= fun p => .ok (f p.1, p.2) := by
  intro ts b rest h
  obtain ⟨⟨a, mid⟩, hread, hthen⟩ := bind_eq_ok.mp h
  cases hthen
  obtain ⟨hopen, us, hne, rfl, hus⟩ := hfirst hread
  rw [hf]
  refine ⟨hopen, us, hne, rfl, ?_⟩
  intro rest' hr
  simp only [hus rest' hr, ok_bind]

theorem expect {s : Symbol} {next next' : Reader β}
    (hnext : Completes isOpen next next') :
    Completes isOpen (fun ts => Reader.expect s ts >>= next)
      fun ts => Reader.expect s ts >>= next' := by
  intro ts b rest h
  obtain ⟨mid, hread, hthen⟩ := bind_eq_ok.mp h
  obtain ⟨hopen, us, -, rfl, hus⟩ := hnext hthen
  obtain ⟨l, rfl⟩ : ∃ l, ts = ⟨.symbol s, l⟩ :: (us ++ rest) := by
    unfold Reader.expect at hread
    split at hread
    · rename_i hs
      cases hread
      exact eq_of_skip? hs
    · cases hread
  refine ⟨hopen, _ :: us, List.cons_ne_nil _ _, rfl, ?_⟩
  intro rest' hr
  simp only [List.cons_append, expect_symbol, ok_bind]
  exact hus rest' hr

/-- A choice whose text begins with the case without the symbol. -/
theorem skip' {s : Symbol} {yes no yes' no' : Reader β}
    (hno : Completes isOpen no no') (hyes : Completes isOpen yes yes') :
    Completes isOpen
      (fun ts => match skip? s ts with
        | none => no ts
        | some ts => yes ts)
      (fun ts => match skip? s ts with
        | none => no' ts
        | some ts => yes' ts) := by
  intro ts a rest h
  cases hs : skip? s ts with
  | none =>
      simp only [hs] at h
      obtain ⟨hopen, us, hne, rfl, hus⟩ := hno h
      refine ⟨hopen, us, hne, rfl, ?_⟩
      intro rest' hr
      simp only [skip?_append hne rest' hs]
      exact hus rest' hr
  | some mid =>
      simp only [hs] at h
      obtain ⟨l, rfl⟩ := eq_of_skip? hs
      obtain ⟨hopen, us, -, rfl, hus⟩ := hyes h
      refine ⟨hopen, _ :: us, List.cons_ne_nil _ _, rfl, ?_⟩
      intro rest' hr
      simp only [List.cons_append, skip?_symbol, if_true]
      exact hus rest' hr

/-- The reader takes the first token, whatever it is. -/
theorem of_head {read read' : Reader β} (hnil : ∀ r, read [] ≠ .ok r)
    (hcons : ∀ t : Token, Completes isOpen (fun ts => read (t :: ts))
      fun ts => read' (t :: ts)) :
    Completes isOpen read read' := by
  intro ts a rest h
  cases ts with
  | nil => exact absurd h (hnil _)
  | cons t ts =>
      obtain ⟨hopen, us, -, rfl, hus⟩ := hcons t h
      exact ⟨hopen, t :: us, List.cons_ne_nil _ _, rfl, hus⟩

end Completes

/-! ## Statements -/

theorem assignment_completes (hn : n ≤ n') (l : Nat) (name : String) :
    Completes Stmt.endsOpen (assignment n l name) (assignment n' l name) :=
  .skip' (s := .lbracket)
    (.after assignOp_mimics (fun _ => rfl) fun _ =>
      .after (expression_mimics hn) Expr.mapLines_id fun _ => .expect_close rfl)
    (.after (indices_mimics name) (fun _ => rfl) fun _ => .expect
      (.after (expression_mimics hn) Expr.mapLines_id fun _ => .expect_close rfl))

section

variable {st st' : Reader Stmt} (hst : Completes Stmt.endsOpen st st')

include hst

theorem blockRest_completes (hm : m ≤ m') :
    Completes (fun _ => false) (blockRest st m) (blockRest st' m') := by
  induction m generalizing m' with
  | zero => exact .fails nofun
  | succ m ih =>
      obtain ⟨m', rfl, hle⟩ := exists_of_succ_le hm
      exact .close (s := .rbrace) rfl (hst.bind fun _ => (ih hle).map fun _ => rfl)

/-- The branches of an `if`. With an `else` the first one was not open, and
without one there is none behind it. -/
theorem branches_completes (l : Nat) (e : Expr) :
    Completes Stmt.endsOpen
      (fun ts => st ts >>= fun p => elseBranch st p.2 >>= fun q =>
        .ok (.branch l e p.1 q.1, q.2))
      fun ts => st' ts >>= fun p => elseBranch st' p.2 >>= fun q =>
        .ok (.branch l e p.1 q.1, q.2) := by
  intro ts s rest h
  obtain ⟨⟨yes, mid⟩, hyes, h⟩ := bind_eq_ok.mp h
  obtain ⟨⟨no, rest'⟩, hno, h⟩ := bind_eq_ok.mp h
  cases h
  obtain ⟨hopen, us, hne, rfl, hus⟩ := hst hyes
  cases helse : startsElse mid with
  | false =>
      simp only [elseBranch_absent helse] at hno
      cases hno
      refine ⟨fun _ => helse, us, hne, rfl, ?_⟩
      intro rest' hr
      simp only [hus rest' fun _ => hr rfl, ok_bind, elseBranch_absent (hr rfl)]
  | true =>
      obtain ⟨l', mid, rfl⟩ : ∃ l' ts, mid = ⟨.word .else_, l'⟩ :: ts := by
        unfold startsElse at helse
        split at helse
        · exact ⟨_, _, rfl⟩
        · cases helse
      obtain ⟨⟨t, rest'⟩, ht, hno⟩ := bind_eq_ok.mp hno
      cases hno
      obtain ⟨hopen', vs, -, rfl, hvs⟩ := hst ht
      refine ⟨hopen', us ++ ⟨.word .else_, l'⟩ :: vs, by simp, by simp, ?_⟩
      intro rest' hr
      have hfirst := hus (⟨.word .else_, l'⟩ :: (vs ++ rest')) hopen
      simp only [List.append_assoc, List.cons_append, hfirst, ok_bind, elseBranch,
        hvs rest' hr]

end

/-- **A complete statement does not hang on what follows.** The exception is a
statement that ends open, which no `else` may follow. -/
theorem statement_completes (hn : n ≤ n') :
    Completes Stmt.endsOpen (statement n) (statement n') := by
  induction n generalizing n' with
  | zero => exact .fails nofun
  | succ n ih =>
      obtain ⟨n', rfl, hle⟩ := exists_of_succ_le hn
      refine .of_head nofun ?_
      rintro ⟨lexeme, l⟩
      cases lexeme with
      | symbol s =>
          cases s with
          | lbrace =>
              exact (blockRest_completes (ih hle) hle).map (f := Stmt.block l) fun _ => rfl
          | _ => exact .fails nofun
      | word k =>
          cases k with
          | if_ =>
              exact .after (test_mimics hle) Expr.mapLines_id
                (branches_completes (ih hle) l)
          | while_ =>
              exact .after (test_mimics hle) Expr.mapLines_id fun e =>
                (ih hle).map (f := Stmt.loop l e) fun _ => rfl
          | for_ =>
              refine .after (header_mimics hle) (fun h => by cases h; simp) fun h => ?_
              exact (ih hle).map (f := Stmt.count l h.1 h.2) fun _ => rfl
          | break_ => exact .expect_close rfl
          | continue_ => exact .expect_close rfl
          | return_ =>
              exact .after (expression_mimics hle) Expr.mapLines_id fun _ =>
                .expect_close rfl
          | print =>
              refine .after (separated_mimics hle (expression_mimics hle)) ?_
                fun _ => .expect_close rfl
              intro es
              rw [List.map_congr_left fun e _ => e.mapLines_id, List.map_id']
          | _ => exact .fails nofun
      | ident name => exact assignment_completes hle l name
      | _ => exact .fails nofun

end MatrixLang.Reader

/-! ## Programs -/

namespace MatrixLang.Parse

open Reader

variable {n m : Nat} {ts us rest : List Token}

/-- What is read further on, behind these statements. -/
def after (p : Program) (r : Parse) : Parse := ⟨p ++ r.program, r.errors⟩

/-- A bound that is enough can be raised. -/
theorem statements_bound (hlen : ts.length + 1 < n) (hn : n ≤ m) :
    statements m ts = statements n ts := by
  obtain ⟨failed, p, us, rest, rfl, -, hread, hagain⟩ :=
    statements_rest hlen fun l => l
  have hrest : Alike (fun l => l) rest rest := by
    unfold Alike
    cases rest.head? <;> rfl
  have hsame := hagain m rest hn hrest
  rw [Token.map_mapLine_id, List.map_congr_left fun s _ => s.mapLines_id,
    List.map_id'] at hsame
  rw [hsame, hread]

/-- The tokens are these statements, and reading goes on behind them unless an
`else` stands there. -/
def Complete (p : Program) (us : List Token) : Prop :=
  ∀ n rest, (us ++ rest).length + 1 < n → startsElse rest = false →
    statements n (us ++ rest) = (statements n rest).after p

theorem Complete.nil : Complete [] [] :=
  fun _ _ _ _ => rfl

/-- One more statement in front. If it ends open, no `else` stands behind it. -/
theorem Complete.cons {s : Stmt} {p : Program} {vs : List Token}
    (hvs : Complete p vs) (hgo : atEnd ts = false)
    (hs : Reader.statement n ts = .ok (s, vs ++ rest)) :
    ∃ us, ts = us ++ (vs ++ rest) ∧ Spells (.rule .instruction) us
      ∧ Complete (s :: p) (us ++ vs) := by
  obtain ⟨us, rfl, hspells⟩ := statement_accepts hs
  have hne : us ≠ [] := hspells.ne_nil rfl
  refine ⟨us, rfl, hspells, ?_⟩
  intro k rest' hk hrest
  have hend : atEnd (us ++ (vs ++ rest')) = false := by
    obtain ⟨t, us, rfl⟩ := List.exists_cons_of_ne_nil hne
    exact hgo
  have hpos : 0 < us.length := List.length_pos_iff.mpr hne
  simp only [List.append_assoc, List.length_append] at hk ⊢
  obtain ⟨m, hn, hkm⟩ : ∃ m, n ≤ m ∧ k ≤ m := ⟨max n k, by omega, by omega⟩
  obtain ⟨hopen, us', -, hus', hread⟩ := statement_completes hn hs
  obtain rfl := List.append_cancel_right hus'
  have hnext : s.endsOpen = true → startsElse (vs ++ rest') = false := by
    intro h
    cases vs with
    | nil => exact hrest
    | cons t vs =>
        rw [startsElse_append (List.cons_ne_nil t vs) rest' rest]
        exact hopen h
  have hmore : statements m (vs ++ rest') = (statements m rest').after p :=
    hvs m rest' (by rw [List.length_append]; omega) hrest
  have hrest' : statements m rest' = statements k rest' :=
    statements_bound (by omega) hkm
  rw [← statements_bound (m := m + 1) (by simp; omega) (by omega),
    statements_of_ok hend (hread _ hnext), hmore, hrest']
  rfl

/-- The statements that are read are complete, and what is left begins with the
end of the input or with no statement at all. -/
theorem statements_split (hlen : ts.length + 1 < n) :
    ∃ p us rest, ts = us ++ rest ∧ (∀ t ∈ us, t.lexeme.isEof = false)
      ∧ Complete p us ∧ statements n ts = (statements n rest).after p
      ∧ (statements n rest).program = []
      ∧ ((statements n rest).errors = [] → atEnd rest = true) := by
  induction n generalizing ts with
  | zero => omega
  | succ n ih =>
      by_cases hend : atEnd ts = true
      · exact ⟨[], [], ts, rfl, nofun, .nil, rfl, by rw [statements, if_pos hend],
          fun _ => hend⟩
      have hgo : atEnd ts = false := Bool.eq_false_iff.mpr hend
      cases hs : Reader.statement n ts with
      | error stop =>
          have hstop := statements_of_error hgo hs
          exact ⟨[], [], ts, rfl, nofun, .nil, rfl, by rw [hstop],
            fun h => by simp [hstop] at h⟩
      | ok r =>
          obtain ⟨s, mid⟩ := r
          have hshorter := (statement_accepts hs).length_lt rfl
          obtain ⟨p, vs, rest, rfl, hvs, hcomplete, hmid, hfirst, herror⟩ :=
            @ih mid (by omega)
          obtain ⟨us, rfl, hus, hcons⟩ := hcomplete.cons hgo hs
          have hbound : statements (n + 1) rest = statements n rest :=
            statements_bound (by simp at hshorter hlen; omega) (by omega)
          refine ⟨s :: p, us ++ vs, rest, by simp, ?_, hcons, ?_, ?_⟩
          · intro t ht
            exact (List.mem_append.mp ht).elim (hus.not_eof t) (hvs t)
          · rw [statements_of_ok hgo hs, hmid, hbound]
            rfl
          · rw [hbound]
            exact ⟨hfirst, herror⟩

/-- The bound of a parser is enough, and so is any larger one. -/
theorem parse_eq_statements {l : Nat} (h : ts.length + 2 < n) :
    parse (ts ++ [⟨.eof, l⟩]) = statements n (ts ++ [⟨.eof, l⟩]) := by
  rw [parse_eof]
  exact (statements_bound (by simp) (by omega)).symm

/-- What is left behind tokens that are no end has the end of the whole. -/
theorem ends_of_split {l : Nat} (hus : ∀ t ∈ us, t.lexeme.isEof = false)
    (h : ts ++ [⟨.eof, l⟩] = us ++ rest) :
    ∃ body, rest = body ++ [⟨.eof, l⟩] := by
  rcases List.append_eq_append_iff.mp h with ⟨vs, rfl, hend⟩ | ⟨vs, -, hrest⟩
  · cases vs with
    | nil => exact ⟨[], hend.symm⟩
    | cons t vs =>
        obtain ⟨rfl, -⟩ := List.cons.inj hend
        have heof : Lexeme.eof.isEof = false := hus ⟨.eof, l⟩ (by simp)
        cases heof
  · exact ⟨vs, hrest⟩

end MatrixLang.Parse

namespace MatrixLang

open Reader

/-- **Parsing is compositional at statement boundaries.** Where the tokens `us`
are parsed without an error and no `else` follows, the tokens behind them are
parsed as though they stood alone. And in every input, the statements before a
mistake are those that their own tokens are parsed to. -/
theorem parse_append (ts : List Token) (l : Nat) :
    (∀ us l', (∀ t ∈ us, t.lexeme.isEof = false) →
        (parse (us ++ [⟨.eof, l'⟩])).errors = [] →
        startsElse (ts ++ [⟨.eof, l⟩]) = false →
        parse (us ++ (ts ++ [⟨.eof, l⟩]))
          = ⟨(parse (us ++ [⟨.eof, l'⟩])).program
              ++ (parse (ts ++ [⟨.eof, l⟩])).program,
            (parse (ts ++ [⟨.eof, l⟩])).errors⟩)
      ∧ ∃ us rest, ts ++ [⟨.eof, l⟩] = us ++ rest
        ∧ parse (us ++ [⟨.eof, l⟩]) = ⟨(parse (ts ++ [⟨.eof, l⟩])).program, []⟩
        ∧ parse rest = ⟨[], (parse (ts ++ [⟨.eof, l⟩])).errors⟩ := by
  constructor
  · intro us l' hus hclean helse
    obtain ⟨n, hn⟩ : ∃ n, n = us.length + ts.length + 3 := ⟨_, rfl⟩
    rw [Parse.parse_eq_statements (n := n) (by omega)] at hclean ⊢
    have hlen : (us ++ [(⟨.eof, l'⟩ : Token)]).length + 1 < n := by simp; omega
    obtain ⟨p, us', rest, hsplit, hus', hcomplete, hread, hfirst, herror⟩ :=
      Parse.statements_split hlen
    rw [hread] at hclean ⊢
    obtain rfl : us = us' := eq_of_end hus hus' rfl (herror hclean) hsplit
    rw [← List.append_assoc, Parse.parse_eq_statements (n := n) (by simp; omega),
      Parse.parse_eq_statements (n := n) (by omega), List.append_assoc,
      hcomplete n _ (by simp; omega) helse, Parse.after, Parse.after, hfirst,
      List.append_nil]
  · obtain ⟨n, hn⟩ : ∃ n, n = ts.length + 3 := ⟨_, rfl⟩
    rw [Parse.parse_eq_statements (n := n) (by omega)]
    have hbound : (ts ++ [(⟨.eof, l⟩ : Token)]).length + 1 < n := by simp; omega
    obtain ⟨p, us, rest, hsplit, hus, hcomplete, hread, hfirst, -⟩ :=
      Parse.statements_split hbound
    obtain ⟨body, rfl⟩ := Parse.ends_of_split hus hsplit
    have hlen : us.length + body.length = ts.length := by
      have hsame := congrArg List.length hsplit
      simp at hsame
      omega
    refine ⟨us, body ++ [⟨.eof, l⟩], hsplit, ?_, ?_⟩
    · rw [Parse.parse_eq_statements (n := n) (by omega),
        hcomplete n _ (by simp; omega) rfl, hread, Parse.after, Parse.after, hfirst,
        hn]
      rfl
    · rw [Parse.parse_eq_statements (n := n) (by omega), hread, ← hfirst]
      rfl

/-- `if (x < 1) y = 2; y = ;`: a statement that ends open, and one that has no
value. -/
def Sample.openEnd : List Token :=
  [.word .if_, .symbol .lparen, .ident "x", .symbol .lt, .int 1, .symbol .rparen,
    .ident "y", .symbol .assign, .int 2, .symbol .semicolon].map
    fun lexeme => ⟨lexeme, 1⟩

def Sample.noValue : List Token :=
  [.ident "y", .symbol .assign, .symbol .semicolon].map fun lexeme => ⟨lexeme, 2⟩

theorem parse_append_openEnd :
    (parse (Sample.openEnd ++ [⟨.eof, 1⟩])).errors = []
      ∧ parse (Sample.openEnd ++ (Sample.noValue ++ [⟨.eof, 2⟩]))
        = ⟨(parse (Sample.openEnd ++ [⟨.eof, 1⟩])).program
            ++ (parse (Sample.noValue ++ [⟨.eof, 2⟩])).program,
          (parse (Sample.noValue ++ [⟨.eof, 2⟩])).errors⟩ := by
  have hclean : (parse (Sample.openEnd ++ [⟨.eof, 1⟩])).errors = [] := rfl
  exact ⟨hclean, (parse_append Sample.noValue 2).1 _ 1 (by decide) hclean rfl⟩

end MatrixLang
