import Mathlib
import MatrixLang.Proofs.Grammar.Local
import MatrixLang.Proofs.Run.Lines
import MatrixLang.Proofs.Token.Placed
import MatrixLang.Proofs.Typing.Lines
import MatrixLang.Run.Report

/-!
# Layout

How a text is laid out does not matter: two texts with the same lexemes in the
same order are reviewed and run alike, up to the lines of trees, reports and
faults (`runSource_layout`). So blanks, comments and line breaks may be put
anywhere between the lexemes.

The three phases do not look at lines, each by its own induction (`parse_mapLines`,
`check_mapLines`, `runFrom_mapLines`). Without their lines the tokens of the two
texts are the same, and everything else is computed from them.
-/

namespace MatrixLang

/-! ## Without lines -/

def Diagnostic.unlined (d : Diagnostic) : Diagnostic := d.mapLine fun _ => 0

def Reviewed.unlined (r : Reviewed) : Reviewed :=
  ⟨Stmt.unlinedAll r.program, r.diagnostics.map Diagnostic.unlined⟩

def Ending.unlined (e : Ending) : Ending := e.mapLine fun _ => 0

/-- The report of a run without the lines of what was reported, and without that
of the fault. -/
def RunReport.unlined (r : RunReport) : RunReport :=
  ⟨r.diagnostics.map Diagnostic.unlined, r.output, r.ending.unlined⟩

def bare (ts : List Token) : List Token := ts.map (Token.mapLine fun _ => 0)

/-- Without its line, a token is its lexeme. -/
theorem bare_congr {ts us : List Token}
    (h : ts.map Token.lexeme = us.map Token.lexeme) : bare ts = bare us := by
  have hbare : ∀ ts : List Token,
      bare ts = (ts.map Token.lexeme).map fun l => ⟨l, 0⟩ := by
    intro ts
    rw [List.map_map]
    rfl
  rw [hbare, hbare, h]

/-! ## Reviewing -/

/-- What is reported of a parsed text that has no other mistakes. -/
def Parse.reports (p : Parse) : List Diagnostic :=
  if p.errors.isEmpty then check p.program else p.errors

theorem Parse.reports_mapLines {f : Nat → Nat} (p : Parse) :
    (p.mapLines f).reports = p.reports.map (Diagnostic.mapLine f) := by
  simp only [reports, mapLines, List.isEmpty_map, check_mapLines]
  split <;> rfl

theorem scan_ends (source : String) :
    ∃ body l, (scan source).tokens = body ++ [⟨.eof, l⟩] :=
  ⟨_, _, scan_tokens source⟩

/-- What is known of a text whose lexemes are right hangs on its lexemes. -/
theorem review_unlined {source : String} (h : (scan source).errors = []) :
    (review source).unlined
      = ⟨(parse (bare (scan source).tokens)).program,
          (parse (bare (scan source).tokens)).reports⟩ := by
  obtain ⟨body, l, hend⟩ := scan_ends source
  have hbare : parse (bare (scan source).tokens)
      = (parse (scan source).tokens).mapLines fun _ => 0 := parse_mapLines hend
  have hreview : review source = ⟨(parse (scan source).tokens).program,
      (parse (scan source).tokens).reports⟩ := by
    simp only [review, h, List.nil_append, Parse.reports]
  rw [hbare, hreview, Parse.reports_mapLines, Reviewed.unlined, Stmt.unlinedAll,
    Stmt.mapLinesAll_eq_map]
  rfl

/-! ## Running -/

/-- The run of a text, from what is known of it. -/
def Reviewed.run (budget : Nat) (r : Reviewed) : RunReport :=
  if r.diagnostics.isEmpty then
    let outcome := runFrom budget .initial r.program
    ⟨[], outcome.state.output, outcome.ending⟩
  else ⟨r.diagnostics, .empty, .finished none⟩

theorem Reviewed.run_unlined (budget : Nat) (r : Reviewed) :
    (r.run budget).unlined = r.unlined.run budget := by
  have hrun : runFrom budget .initial (Stmt.unlinedAll r.program)
      = (runFrom budget .initial r.program).mapLine fun _ => 0 := by
    rw [← runFrom_mapLines, Stmt.unlinedAll, Stmt.mapLinesAll_eq_map]
  simp only [run, unlined, List.isEmpty_map, hrun, Outcome.state_mapLine,
    Outcome.ending_mapLine]
  split
  · simp only [RunReport.unlined, List.map_nil, Ending.unlined]
  · rfl

/-- **Layout never changes meaning.** Two texts without lexical mistakes and with
the same lexemes are the same program and get the same reports, up to lines; and
however often loops may go round, they print the same, return the same and fault
alike. -/
theorem runSource_layout {s t : String} (hs : (scan s).errors = [])
    (ht : (scan t).errors = [])
    (hlexemes : (scan s).tokens.map Token.lexeme
      = (scan t).tokens.map Token.lexeme) :
    (review s).unlined = (review t).unlined
      ∧ ∀ budget, (runSource budget s).unlined = (runSource budget t).unlined := by
  have hreview : (review s).unlined = (review t).unlined := by
    rw [review_unlined hs, review_unlined ht, bare_congr hlexemes]
  refine ⟨hreview, ?_⟩
  intro budget
  show ((review s).run budget).unlined = ((review t).run budget).unlined
  rw [Reviewed.run_unlined, Reviewed.run_unlined, hreview]

/-- Two lines with a comment between them, and the same on one line. -/
theorem runSource_layout_comment :
    (scan "x = 1; # one\nprint x / 0;").errors = []
      ∧ (scan "x=1;print x/0;").errors = []
      ∧ (scan "x = 1; # one\nprint x / 0;").tokens.map Token.lexeme
        = (scan "x=1;print x/0;").tokens.map Token.lexeme
      ∧ (review "x = 1; # one\nprint x / 0;").unlined
        = (review "x=1;print x/0;").unlined
      ∧ ∀ budget, (runSource budget "x = 1; # one\nprint x / 0;").unlined
        = (runSource budget "x=1;print x/0;").unlined := by
  have hs : (scan "x = 1; # one\nprint x / 0;").errors = [] := by cbv
  have ht : (scan "x=1;print x/0;").errors = [] := by cbv
  have hlexemes : (scan "x = 1; # one\nprint x / 0;").tokens.map Token.lexeme
      = (scan "x=1;print x/0;").tokens.map Token.lexeme := by cbv
  exact ⟨hs, ht, hlexemes, runSource_layout hs ht hlexemes⟩

end MatrixLang
