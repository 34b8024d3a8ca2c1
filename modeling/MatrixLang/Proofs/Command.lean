import MatrixLang.Command.Basic

/-!
# The commands agree

Each command takes a text through the stages on its own: `lex` through the scanner,
`parse` also through the parser, and `check` and `run` through the checker, where
mistakes of an earlier stage stand in for those of a later one. An exit code says
which stages found nothing (`lexReply_exitCode` and the lemmas below it), so that what
one command accepts is accepted by those that look at less.

`run` and `check` look at the same diagnostics. If there are any, their replies differ
in the last line (`checkReply_rejected`, `runReply_rejected`), and if not, what the
program prints is on the standard output however it ends (`runReply_accepted`).

Arguments lead to these replies by one lemma (`reply_called`): flags may stand in front
of the path and behind it. A program in place of a command is the other way to `run`
(`ofArgs_program`).
-/

namespace MatrixLang.Command

/-! ## Texts -/

section Texts

variable {budget : Nat} {verbose : Bool} {source : String}

theorem lexReply_exitCode : (lexReply source).exitCode = 0 ↔ (scan source).errors = [] := by
  cases h : (scan source).errors <;> simp [lexReply, Scan.hasErrors, h]

theorem parseReply_exitCode : (parseReply source).exitCode = 0 ↔
    (scan source).errors ++ (parse (scan source).tokens).errors = [] := by
  cases h : (scan source).errors ++ (parse (scan source).tokens).errors <;>
    simp [parseReply, h]

theorem checkReply_exitCode :
    (checkReply verbose source).exitCode = 0 ↔ (review source).diagnostics = [] := by
  cases h : (review source).diagnostics <;> simp [checkReply, h, Reply.success, Reply.failure]

/-- Only a text without mistakes is checked. -/
theorem mistakes_eq_nil (h : (review source).diagnostics = []) :
    (scan source).errors ++ (parse (scan source).tokens).errors = [] := by
  simp only [review, List.isEmpty_iff] at h
  split at h
  · assumption
  · exact h

/-- The lines that `check` and `run` show of a text. -/
def shownLines (verbose : Bool) (source : String) : List String :=
  (review source).diagnostics.map (Diagnostic.shown verbose)

theorem checkReply_rejected (h : (review source).diagnostics ≠ []) :
    checkReply verbose source = ⟨"", Reply.lines (shownLines verbose source
      ++ [s!"Found {(shownLines verbose source).length} semantic error(s)"]), 1⟩ := by
  simp only [checkReply, List.isEmpty_iff, if_neg h, shownLines, List.length_map, Reply.failure]

theorem runReply_rejected (h : (review source).diagnostics ≠ []) :
    runReply budget verbose source = ⟨"", Reply.lines (shownLines verbose source
      ++ ["Type checking failed, interpretation skipped"]), 1⟩ := by
  simp only [runReply, runSource, List.isEmpty_iff, if_neg h, shownLines, Reply.failure]

/-- A stream after one more line was printed to it. -/
def streamed (out line : String) : String := out ++ (line ++ "\n")

/-- A text that was kept is what a stream gets line by line. -/
theorem text_streamed (t : Transcript) : t.text = t.lines.foldl streamed "" := by
  rw [Transcript.text, String.join, List.foldl_map]
  rfl

theorem error?_eq_some {report : RunReport} {e : RunError} :
    report.error? = some e ↔ report.ending = .halted (.fault e) := by
  unfold RunReport.error?
  cases report.ending with
  | halted halt => cases halt <;> simp
  | finished | cutOff => simp

/-- What was printed stays, and an end of its own is no error. -/
theorem runReply_accepted (h : (review source).diagnostics = []) :
    let report := runSource budget source
    let reply := runReply budget verbose source
    reply.stdout = report.output.text
      ∧ (∀ v, report.ending = .finished v → reply.stderr = "" ∧ reply.exitCode = 0)
      ∧ ∀ e, report.error? = some e →
        reply.stderr = Reply.lines [s!"runtime error: {e.text}"] ∧ reply.exitCode = 1 := by
  intro report reply
  have hnone : report.diagnostics = [] := by
    simp only [report, runSource, List.isEmpty_iff, if_pos h]
  simp only [reply, runReply, List.isEmpty_iff]
  rw [if_pos hnone]
  refine ⟨?_, fun v hending => ?_, fun e herror => ?_⟩
  · split <;> rfl
  · rw [show (runSource budget source).ending = _ from hending]
    exact ⟨rfl, rfl⟩
  · rw [show (runSource budget source).ending = _ from error?_eq_some.mp herror]
    exact ⟨rfl, rfl⟩

/-- A run without an error was one of a text in which the checker found none. -/
theorem runReply_exitCode (h : (runReply budget verbose source).exitCode = 0) :
    (review source).diagnostics = [] := by
  by_cases hclean : (review source).diagnostics = []
  · exact hclean
  · rw [runReply_rejected hclean] at h
    cases h

end Texts

/-! ## Arguments -/

/-- The word for what is done with a file. -/
def actionName : FileAction → String
  | .run => "run"
  | .check => "check"
  | .parse => "parse"
  | .lex => "lex"

/-- The path among some arguments is the first that does not begin with a minus. -/
def NamesPath (args : List String) (path : String) : Prop :=
  path.startsWith "-" = false
    ∧ ∃ flags rest, args = flags ++ path :: rest ∧ ∀ f ∈ flags, f.startsWith "-" = true

/-- Some arguments ask for diagnostics with their notes. -/
def asksNotes (args : List String) : Bool := args.any fun a => a = "--verbose" ∨ a = "-v"

theorem asksNotes_cons {path : String} (h : path.startsWith "-" = false) (args : List String) :
    asksNotes (path :: args) = asksNotes args := by
  have hflag : ¬(path = "--verbose" ∨ path = "-v") := by
    rintro (rfl | rfl) <;> simp at h
  simp only [asksNotes, List.any_cons, decide_eq_false hflag, Bool.false_or]

theorem NamesPath.find? {args : List String} {path : String} (h : NamesPath args path) :
    args.find? (fun a => !a.startsWith "-") = some path := by
  obtain ⟨hpath, flags, rest, hargs, hflags⟩ := h
  refine List.find?_eq_some_iff_append.mpr ⟨by rw [hpath]; rfl, flags, rest, hargs, ?_⟩
  intro f hf
  rw [hflags f hf]
  rfl

theorem NamesPath.cons {path : String} (h : path.startsWith "-" = false) (args : List String) :
    NamesPath (path :: args) path :=
  ⟨h, [], args, rfl, nofun⟩

/-- What is replied to some arguments. -/
def answer (budget : Nat) (read : String → FileContent) (args : List String) : Reply :=
  (ofArgs args).reply budget read

variable {budget : Nat} {read : String → FileContent} {args : List String} {path : String}

theorem ofArgs_action (action : FileAction) (h : NamesPath args path) :
    ofArgs (actionName action :: args) = .file action path (asksNotes args) := by
  cases action <;> simp only [ofArgs, actionName, onFile, h.find?] <;> rfl

/-- No command is called like a program. -/
theorem ofArgs_program (h : Path.isProgram path = true) (args : List String) :
    ofArgs (path :: args) = .file .run path (asksNotes args) := by
  simp only [ofArgs]
  split
  case h_12 => exact if_pos h
  all_goals exact absurd h (by decide)

theorem answer_action (action : FileAction) (h : NamesPath args path) :
    answer budget read (actionName action :: args)
      = fileReply budget action path (asksNotes args) (read path) := by
  rw [answer, ofArgs_action action h, reply]

theorem answer_text (action : FileAction) {source : String} (h : NamesPath args path)
    (hread : read path = .text source) :
    answer budget read (actionName action :: args)
      = actionReply budget action (asksNotes args) source := by
  rw [answer_action action h, hread, fileReply]

/-- A command that ends well has read a text. -/
theorem answer_accepts (action : FileAction) (h : NamesPath args path)
    (haccepts : (answer budget read (actionName action :: args)).exitCode = 0) :
    ∃ source, read path = .text source
      ∧ (actionReply budget action (asksNotes args) source).exitCode = 0 := by
  cases hread : read path with
  | text source =>
      rw [answer_text action h hread] at haccepts
      exact ⟨source, rfl, haccepts⟩
  | missing | notText | forbidden | unreadable =>
      rw [answer_action action h, hread] at haccepts
      cases haccepts

/-! ## Agreement -/

/-- What holds of the texts that two actions accept holds of the files. -/
theorem answer_accepts_next (action next : FileAction) {args' : List String}
    (h : NamesPath args path) (h' : NamesPath args' path)
    (hnext : ∀ verbose verbose' source, (actionReply budget action verbose source).exitCode = 0 →
      (actionReply budget next verbose' source).exitCode = 0)
    (haccepts : (answer budget read (actionName action :: args)).exitCode = 0) :
    (answer budget read (actionName next :: args')).exitCode = 0 := by
  obtain ⟨source, hread, hsource⟩ := answer_accepts action h haccepts
  rw [answer_text next h' hread]
  exact hnext _ _ source hsource

/-- What `check` rejects does not run. -/
theorem answer_rejected {source : String} (h : NamesPath args path)
    (hread : read path = .text source)
    (hcheck : (answer budget read (actionName .check :: args)).exitCode ≠ 0) :
    answer budget read (actionName .check :: args) = ⟨"", Reply.lines
        (shownLines (asksNotes args) source
          ++ [s!"Found {(shownLines (asksNotes args) source).length} semantic error(s)"]), 1⟩
      ∧ answer budget read (actionName .run :: args) = ⟨"", Reply.lines
        (shownLines (asksNotes args) source
          ++ ["Type checking failed, interpretation skipped"]), 1⟩ := by
  rw [answer_text .check h hread] at hcheck ⊢
  rw [answer_text .run h hread]
  have hrejected := mt checkReply_exitCode.mpr hcheck
  exact ⟨checkReply_rejected hrejected, runReply_rejected hrejected⟩

/-- **The commands agree with each other**, whatever the files hold and wherever the
flags stand. `run` ends well only where `check` does, `check` only where `parse` does,
and `parse` only where `lex` does. If `check` rejects a text then `run` runs nothing and
shows the same lines, but for the last. If `check` accepts a file, `run` writes what the
run of its text prints, line by line, also in front of a fault. A program in place of a
command is run. -/
theorem commands_agree (budget : Nat) (read : String → FileContent) (path : String) :
    (∀ args args', NamesPath args path → NamesPath args' path →
      ((answer budget read ("run" :: args)).exitCode = 0 →
        (answer budget read ("check" :: args')).exitCode = 0)
      ∧ ((answer budget read ("check" :: args)).exitCode = 0 →
        (answer budget read ("parse" :: args')).exitCode = 0)
      ∧ ((answer budget read ("parse" :: args)).exitCode = 0 →
        (answer budget read ("lex" :: args')).exitCode = 0))
    ∧ (∀ args source, NamesPath args path → read path = .text source →
      (answer budget read ("check" :: args)).exitCode = 1 →
      let shown := (review source).diagnostics.map (Diagnostic.shown (asksNotes args))
      answer budget read ("check" :: args)
          = ⟨"", Reply.lines (shown ++ [s!"Found {shown.length} semantic error(s)"]), 1⟩
        ∧ answer budget read ("run" :: args)
          = ⟨"", Reply.lines (shown ++ ["Type checking failed, interpretation skipped"]), 1⟩)
    ∧ (∀ args args', NamesPath args path → NamesPath args' path →
      (answer budget read ("check" :: args)).exitCode = 0 →
      ∃ source, read path = .text source ∧
        let report := runSource budget source
        let reply := answer budget read ("run" :: args')
        reply.stdout = report.output.text
          ∧ reply.stdout = report.output.lines.foldl streamed ""
          ∧ (∀ v, report.ending = .finished v → reply.stderr = "" ∧ reply.exitCode = 0)
          ∧ ∀ e, report.error? = some e →
            reply.stderr = Reply.lines [s!"runtime error: {e.text}"] ∧ reply.exitCode = 1)
    ∧ ∀ args, path.startsWith "-" = false → Path.isProgram path = true →
      answer budget read (path :: args) = answer budget read ("run" :: path :: args) := by
  refine ⟨fun args args' h h' => ⟨?_, ?_, ?_⟩, fun args source h hread hcheck => ?_,
    fun args args' h h' hcheck => ?_, fun args hpath hprogram => ?_⟩
  · exact answer_accepts_next .run .check h h' fun _ _ _ hrun =>
      checkReply_exitCode.mpr (runReply_exitCode hrun)
  · exact answer_accepts_next .check .parse h h' fun _ _ _ hcheck =>
      parseReply_exitCode.mpr (mistakes_eq_nil (checkReply_exitCode.mp hcheck))
  · exact answer_accepts_next .parse .lex h h' fun _ _ _ hparse =>
      lexReply_exitCode.mpr (List.append_eq_nil_iff.mp (parseReply_exitCode.mp hparse)).1
  · exact answer_rejected h hread fun hzero => absurd (hcheck.symm.trans hzero) Nat.one_ne_zero
  · obtain ⟨source, hread, hclean⟩ := answer_accepts .check h hcheck
    refine ⟨source, hread, ?_⟩
    rw [show answer budget read ("run" :: args') = _ from answer_text .run h' hread]
    obtain ⟨hstdout, hends⟩ := runReply_accepted (checkReply_exitCode.mp hclean)
    exact ⟨hstdout, hstdout.trans (text_streamed _), hends⟩
  · rw [answer, answer, ofArgs_program hprogram, ← asksNotes_cons hpath args]
    exact congrArg (reply budget read) (ofArgs_action .run (.cons hpath args)).symm

/-- A program that faults, and one that the checker rejects. -/
def twoFiles (path : String) : FileContent :=
  if path = "fault.M" then .text "print 1; print 1/0;"
  else if path = "typo.m" then .text "print one;"
  else .missing

/-- What was printed in front of the fault stays. -/
theorem commands_agree_twoFiles :
    answer 0 twoFiles ["fault.M", "-v"] = answer 0 twoFiles ["run", "fault.M", "-v"]
      ∧ (answer 0 twoFiles ["run", "fault.M", "-v"]).stdout = "1\n"
      ∧ (answer 0 twoFiles ["run", "fault.M", "-v"]).exitCode = 1
      ∧ (answer 0 twoFiles ["parse", "-v", "fault.M"]).exitCode = 0
      ∧ (answer 0 twoFiles ["check", "typo.m"]).stderr
        = "Line 1: Variable 'one' not defined\nFound 1 semantic error(s)\n"
      ∧ (answer 0 twoFiles ["run", "typo.m"]).stderr
        = "Line 1: Variable 'one' not defined\nType checking failed, interpretation skipped\n" := by
  obtain ⟨hnext, -, hprinted, hprogram⟩ := commands_agree 0 twoFiles "fault.M"
  obtain ⟨-, hrejected, -, -⟩ := commands_agree 0 twoFiles "typo.m"
  have hminus : "fault.M".startsWith "-" = false := by simp
  have hfault : NamesPath ["fault.M", "-v"] "fault.M" := .cons hminus _
  have hbehind : NamesPath ["-v", "fault.M"] "fault.M" := ⟨hminus, ["-v"], [], rfl, by simp⟩
  have htypo : NamesPath ["typo.m"] "typo.m" := .cons (by simp) _
  have hcheck : (answer 0 twoFiles ["check", "fault.M", "-v"]).exitCode = 0 := by decide +kernel
  obtain ⟨source, hsource, hstdout, -, -, hfaulted⟩ := hprinted _ _ hfault hfault hcheck
  cases hsource
  obtain ⟨hcheckTypo, hrunTypo⟩ := hrejected ["typo.m"] _ htypo rfl (by decide +kernel)
  refine ⟨hprogram _ hminus (by decide), hstdout.trans (by decide +kernel),
    (hfaulted ⟨.divisionByZero, 1⟩ (by decide +kernel)).2, (hnext _ _ hfault hbehind).2.1 hcheck, ?_, ?_⟩
  · rw [hcheckTypo]
    decide +kernel
  · rw [hrunTypo]
    decide +kernel

end MatrixLang.Command
