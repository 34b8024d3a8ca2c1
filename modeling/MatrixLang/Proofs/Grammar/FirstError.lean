import MatrixLang.Proofs.Grammar.Language
import MatrixLang.Proofs.Grammar.Local

/-!
# The first mistake

Parsing stops at the first token that makes the input hopeless, which is the one
that is reported: the tokens before it begin a program, and together with it
they do not (`parse_first_error`).

The tokens that were read begin a program because no reader takes one off that
leads nowhere. And no program goes on with the token at which parsing stopped:
the parser would stop there again, but it reads every program to its end.
-/

namespace MatrixLang

variable {body ts us : List Token}

/-- The diagnostic that a token gets which cannot stand where it stands. -/
structure Diagnostic.Blames (d : Diagnostic) (t : Token) : Prop where
  line : d.line = t.line
  notes : d.notes = []
  token : t.lexeme.isEof = false →
    d.code.text = "E1001" ∧ d.message = s!"Syntax error at '{t.lexeme.text}'"
  endOfInput : t.lexeme.isEof = true →
    d.code.text = "E1002" ∧ d.message = "Unexpected end of input"

theorem Stop.blames (t : Token) (ts : List Token) :
    (Stop.unexpected (t :: ts)).diagnostic.Blames t := by
  cases ht : t.lexeme.isEof with
  | true =>
      have hd : (Stop.unexpected (t :: ts)).diagnostic
          = Problem.unexpectedEnd.onLine t.line := if_pos ht
      rw [hd]
      exact ⟨rfl, rfl, fun h => absurd ht (Bool.eq_false_iff.mp h), fun _ =>
        ⟨rfl, rfl⟩⟩
  | false =>
      have hd : (Stop.unexpected (t :: ts)).diagnostic
          = (Problem.unexpectedToken t.lexeme.text).onLine t.line :=
        if_neg (Bool.eq_false_iff.mp ht)
      rw [hd]
      exact ⟨rfl, rfl, fun _ => ⟨rfl, rfl⟩, fun h =>
        absurd h (Bool.eq_false_iff.mp ht)⟩

/-- A program is read without an error, with any bound that is enough. -/
theorem Spells.statements_errors {n : Nat} (h : Spells (.rule .program) us)
    (l : Nat) (hn : us.length + 3 ≤ n) :
    (Parse.statements n (us ++ [⟨.eof, l⟩])).errors = [] := by
  obtain ⟨p, hp, hw⟩ := h.closed Nonterminal.writes_closed
  obtain ⟨p', -, hread⟩ := hw.readsBack hp
  rw [hread.program n l (by omega)]

/-- No program goes on with a token at which parsing always stops. -/
theorem Parse.hopeless {n : Nat} {t : Token}
    (h : ∀ n' rest, n ≤ n' → (statements n' (us ++ t :: rest)).errors ≠ [])
    (rest : List Token) : ¬Begins (.rule .program) (us ++ t :: rest) := by
  rintro ⟨vs, hvs⟩
  have hclean := hvs.statements_errors 1 (Nat.le_max_right n _)
  rw [List.append_assoc, List.append_assoc, List.cons_append] at hclean
  exact h _ _ (Nat.le_max_left n _) hclean

/-- **Syntax errors are at the first token that makes the input hopeless.** Of
tokens that end with the end of the input and are parsed with an error, some
first ones begin a program and no more do; and the only diagnostic is about the
token after these. -/
theorem parse_first_error (l : Nat) (hts : ts = body ++ [⟨.eof, l⟩])
    (herrors : (parse ts).errors ≠ []) :
    ∃ k t d, ts[k]? = some t
      ∧ (∀ j, Begins (.rule .program) (ts.take j) ↔ j ≤ k)
      ∧ (parse ts).errors = [d] ∧ d.Blames t := by
  obtain ⟨failed, p, us, t, rest, hsplit, ⟨vs, hvs⟩, hread, hagain⟩ :=
    Parse.rest_eof hts fun l => l
  cases failed with
  | false =>
      rw [hread] at herrors
      exact absurd rfl herrors
  | true =>
      have hget : ts[us.length]? = some t := by rw [hsplit]; simp
      refine ⟨us.length, t, _, hget, fun j => ⟨fun h => ?_, fun hj => ?_⟩,
        congrArg Parse.errors hread, Stop.blames t rest⟩
      · refine Nat.le_of_not_lt ?_
        intro hj
        obtain ⟨i, rfl⟩ : ∃ i, j = us.length + (i + 1) :=
          ⟨j - us.length - 1, by omega⟩
        rw [hsplit, List.take_length_add_append, List.take_succ_cons] at h
        -- with `t` there, parsing stops at it whatever follows
        refine Parse.hopeless (n := ts.length + 2) (fun n rest hn => ?_) _ h
        have hstops := hagain n rest hn
        rw [Token.map_mapLine_id, Token.mapLine_id] at hstops
        rw [hstops]
        exact List.cons_ne_nil _ _
      · rw [hsplit, List.take_append_of_le_length hj]
        have hbegins : Begins (.rule .program) us := ⟨vs, .rule hvs⟩
        rw [← List.take_append_drop j us] at hbegins
        exact hbegins.take

/-- `x = 1 +;`, where the semicolon cannot stand. -/
def Sample.noOperand : List Token :=
  [.ident "x", .symbol .assign, .int 1, .symbol .plus, .symbol .semicolon,
    .eof].map fun lexeme => ⟨lexeme, 1⟩

theorem parse_first_error_noOperand :
    (parse Sample.noOperand).errors ≠ []
      ∧ ∃ k t d, Sample.noOperand[k]? = some t
        ∧ (∀ j, Begins (.rule .program) (Sample.noOperand.take j) ↔ j ≤ k)
        ∧ (parse Sample.noOperand).errors = [d] ∧ d.Blames t := by
  have herrors : (parse Sample.noOperand).errors ≠ [] := List.cons_ne_nil _ _
  have hend : Sample.noOperand = Sample.noOperand.dropLast ++ [⟨.eof, 1⟩] := rfl
  exact ⟨herrors, parse_first_error 1 hend herrors⟩

end MatrixLang
