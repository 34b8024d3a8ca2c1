import MatrixLang.Command.Files
import MatrixLang.Diagnostic.Explanation
import MatrixLang.Run.Report
import MatrixLang.Tree.Outline

/-!
# The command line

The arguments choose a command; the command, with a way to look up files, gives
a reply: what goes to the standard output, what goes to the standard error, and
the exit code. The first argument that does not begin with a minus, after the
command, is the file; a file with the extension of programs may stand in place
of a command and is run.
-/

namespace MatrixLang

/-- What is done with a file. -/
inductive FileAction where
  | run | check | parse | lex
deriving Repr, DecidableEq

/-- A command with its arguments. -/
inductive Command where
  | usage
  | version
  | explain (code : Option String)
  | file (action : FileAction) (path : String) (verbose : Bool)
  | fileMissing (action : FileAction)
  | unknown (name : String)
deriving Repr, DecidableEq

namespace Command

/-- An action on the file that the arguments name. -/
def onFile (action : FileAction) (args : List String) (verbose : Bool) :
    Command :=
  match args.find? fun a => !a.startsWith "-" with
  | some path => .file action path verbose
  | none => .fileMissing action

def ofArgs : List String → Command
  | [] => .usage
  | name :: args =>
      let verbose := args.any fun a => a = "--verbose" ∨ a = "-v"
      match name with
      | "run" => onFile .run args verbose
      | "check" => onFile .check args verbose
      | "parse" => onFile .parse args verbose
      | "lex" => onFile .lex args verbose
      | "help" | "--help" | "-h" => .usage
      | "version" | "--version" => .version
      | "explain" | "--explain" => .explain args.head?
      | path =>
          if Path.isProgram path then .file .run path verbose else .unknown name

def path? : Command → Option String
  | .file _ path _ => some path
  | _ => none

end Command

/-- What a command writes and how it exits. -/
structure Reply where
  stdout : String
  stderr : String
  exitCode : Nat
deriving Repr, DecidableEq

namespace Reply

def lines (ls : List String) : String := String.join (ls.map (· ++ "\n"))

def success (stdout : List String) : Reply := ⟨lines stdout, "", 0⟩

def failure (stderr : List String) : Reply := ⟨"", lines stderr, 1⟩

end Reply

namespace Command

/-! ## Fixed texts -/

def usageLines : List String := [
  "mtx, a matrix scripting language",
  "",
  "Usage: mtx <command> [options]",
  "",
  "Commands:",
  "  run <file.m>         Check and run a program",
  "  check <file.m>       Report diagnostics without running",
  "  parse <file.m>       Print the syntax tree",
  "  lex <file.m>         Print the token stream",
  "  explain <code>       Explain an error code (e.g., E2003)",
  "  help                 Show this help message",
  "  version              Show version information",
  "",
  "Options:",
  "  --verbose, -v        Show error codes and notes with diagnostics",
  "",
  "Environment:",
  "  MTX_LOG              Tracing filter (e.g., debug, mtx_eval=trace)",
  "  MTX_LOG_TREE         Render tracing output as an indented tree",
  "",
  "Examples:",
  "  mtx run program.m",
  "  mtx program.m                   # same as run",
  "  mtx check program.m --verbose",
  "  mtx explain E2003               # Explain incompatible shapes"]

def actionUsage : FileAction → String
  | .run => "Usage: mtx run <file.m> [--verbose]"
  | .check => "Usage: mtx check <file.m> [--verbose]"
  | .parse => "Usage: mtx parse <file.m>"
  | .lex => "Usage: mtx lex <file.m>"

/-! ## Explanations -/

def explainReply : Option String → Reply
  | none =>
      .failure ["Usage: mtx explain <ERROR_CODE>", "Example: mtx explain E2003"]
  | some text =>
      match Code.ofText? text with
      | some code => .success [code.explanation]
      | none =>
          .failure [s!"Unknown error code: {text}", "",
            "Codes have the format EXXXX where X is a digit.",
            "Examples: E0001, E1001, E2001"]

/-! ## Actions on a text -/

/-- Runs a text. What was printed before a fault or a crash stays. Of what a crash
writes the message is told here, without the place in the interpreter. -/
def runReply (budget : Nat) (verbose : Bool) (source : String) : Reply :=
  let report := runSource budget source
  if report.diagnostics.isEmpty then
    match report.ending with
    | .halted (.fault e) =>
        ⟨report.output.text, Reply.lines [s!"runtime error: {e.text}"], 1⟩
    | .halted (.crash c) => ⟨report.output.text, Reply.lines [c.message], 101⟩
    | .finished _ | .cutOff => ⟨report.output.text, "", 0⟩
  else
    .failure (report.diagnostics.map (Diagnostic.shown verbose)
      ++ ["Type checking failed, interpretation skipped"])

def checkReply (verbose : Bool) (source : String) : Reply :=
  let diagnostics := (review source).diagnostics
  if diagnostics.isEmpty then .success ["No semantic errors found"]
  else
    .failure (diagnostics.map (Diagnostic.shown verbose)
      ++ [s!"Found {diagnostics.length} semantic error(s)"])

/-- Shows the tree of a text, as far as it could be read. -/
def parseReply (source : String) : Reply :=
  let scanned := scan source
  let parsed := parse scanned.tokens
  let outline := parsed.program.outline
  let stdout := if outline.isEmpty then "" else outline ++ "\n"
  let errors := scanned.errors ++ parsed.errors
  if errors.isEmpty then ⟨stdout, "", 0⟩
  else ⟨stdout, Reply.lines ("" :: "Errors:" :: errors.map ("  " ++ ·.text)), 1⟩

def lexReply (source : String) : Reply :=
  let scanned := scan source
  let stdout := Reply.lines ((scanned.tokens.filter fun t => !t.lexeme.isEof).map Token.text)
  if scanned.hasErrors then ⟨stdout, Reply.lines (scanned.errors.map Diagnostic.text), 1⟩
  else ⟨stdout, "", 0⟩

def actionReply (budget : Nat) (action : FileAction) (verbose : Bool)
    (source : String) : Reply :=
  match action with
  | .run => runReply budget verbose source
  | .check => checkReply verbose source
  | .parse => parseReply source
  | .lex => lexReply source

def fileReply (budget : Nat) (action : FileAction) (path : String)
    (verbose : Bool) :
    FileContent → Reply
  | .text source => actionReply budget action verbose source
  | .missing => .failure [s!"cannot find file '{path}'"]
  | .notText => .failure [s!"'{path}' contains invalid UTF-8 data"]
  | .forbidden => .failure [s!"permission denied reading '{path}'"]
  | .unreadable reason => .failure [s!"error reading '{path}': {reason}"]

def reply (budget : Nat) (read : String → FileContent) : Command → Reply
  | .usage => .success usageLines
  | .version => .success ["mtx 0.1.0"]
  | .explain code => explainReply code
  | .file action path verbose =>
      fileReply budget action path verbose (read path)
  | .fileMissing action => .failure [actionUsage action]
  | .unknown name =>
      ⟨Reply.lines usageLines, Reply.lines [s!"Unknown command: {name}", ""], 1⟩

end Command

end MatrixLang
