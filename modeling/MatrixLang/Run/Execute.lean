import MatrixLang.Run.Evaluate
import MatrixLang.Run.Transcript

/-!
# Executing statements

A statement turns a state, which is the memory and what was printed, into
another one and gives a signal: how the run goes on. Loops take `break` and
`continue`; nothing takes a `return`, so it ends the run. A fault or a crash ends the
run too and leaves the state that was reached, though of a crashed program only what
was printed is left to be seen.

Only a `while` loop can run for ever. `budget` is how many times each of them may
go round; a run that needs more is cut off, which is an outcome of its own. All other
recursion follows the tree.
-/

namespace MatrixLang

/-- What a running program has done so far. -/
structure State where
  memory : Memory
  output : Transcript

/-- How the run goes on after a statement. -/
inductive Signal where
  | normal
  | break_
  | continue_
  | returned (value : Value)

/-- How a statement ended, and the state that it left. -/
inductive Outcome where
  | done (signal : Signal) (state : State)
  /-- In a fault or a crash. -/
  | halted (halt : Halt RunError) (state : State)
  /-- A `while` loop went round more often than it may. -/
  | cutOff (state : State)

namespace Outcome

def state : Outcome → State
  | .done _ s => s
  | .halted _ s => s
  | .cutOff s => s

def ofExcept (s : State) : Except (Halt RunError) State → Outcome
  | .ok t => .done .normal t
  | .error halt => .halted halt s

end Outcome

/-! ## Loops -/

def whileLoop (test : State → Except (Halt RunError) Bool) (body : State → Outcome) :
    Nat → State → Outcome
  | 0, s => .cutOff s
  | budget + 1, s =>
      match test s with
      | .error halt => .halted halt s
      | .ok false => .done .normal s
      | .ok true =>
          match body s with
          | .done .normal t => whileLoop test body budget t
          | .done .continue_ t => whileLoop test body budget t
          | .done .break_ t => .done .normal t
          | o => o

/-- Goes round `rounds` times, with the variable at `i`, `i + 1`, …. What the
body does to the variable does not matter to the rounds. -/
def countLoop (var : String) (body : State → Outcome) :
    Nat → Int → State → Outcome
  | 0, _, s => .done .normal s
  | rounds + 1, i, s =>
      match body { s with memory := s.memory.assign var (.int (Int64.ofInt i)) } with
      | .done .normal t => countLoop var body rounds (i + 1) t
      | .done .continue_ t => countLoop var body rounds (i + 1) t
      | .done .break_ t => .done .normal t
      | o => o

/-! ## Statements -/

/-- An assignment: the value first, then the place. -/
def assign (line : Nat) (op : AssignOp) (p : Place) (e : Expr) (s : State) :
    Except (Halt RunError) State := do
  let v ← evaluate s.memory e
  let m ← Fault.onLine line (s.memory.write op p v)
  .ok { s with memory := m }

/-- A `print` statement writes its line when all values are there. -/
def print (values : List Expr) (s : State) : Except (Halt RunError) State := do
  let line ← printed s.memory values
  .ok { s with output := s.output.println line }

mutual

def execute (budget : Nat) : Stmt → State → Outcome
  | .block _ body, s => executeAll budget body s
  | .assign line op p e, s => .ofExcept s (assign line op p e s)
  | .branch _ test yes none, s =>
      match holds s.memory test with
      | .error halt => .halted halt s
      | .ok true => execute budget yes s
      | .ok false => .done .normal s
  | .branch _ test yes (some no), s =>
      match holds s.memory test with
      | .error halt => .halted halt s
      | .ok true => execute budget yes s
      | .ok false => execute budget no s
  | .loop _ test body, s =>
      whileLoop (fun t => holds t.memory test) (execute budget body) budget s
  | .count _ var range body, s =>
      match evaluateRange s.memory range with
      | .error halt => .halted halt s
      | .ok (a, b) =>
          countLoop var (execute budget body) (rangeSize a b) a.toInt s
  | .break_ _, s => .done .break_ s
  | .continue_ _, s => .done .continue_ s
  | .ret _ e, s =>
      match evaluate s.memory e with
      | .error halt => .halted halt s
      | .ok v => .done (.returned v) s
  | .print _ values, s => .ofExcept s (print values s)

def executeAll (budget : Nat) : List Stmt → State → Outcome
  | [], s => .done .normal s
  | stmt :: rest, s =>
      match execute budget stmt s with
      | .done .normal t => executeAll budget rest t
      | o => o

end

/-! ## Programs -/

/-- How a program ended: with the value it returned, if any, or in a fault or a
crash. -/
inductive Ending where
  | finished (value : Option Value)
  | halted (halt : Halt RunError)
  | cutOff

/-- The end of a run. A loop control that no loop took ends the program. -/
def Outcome.ending : Outcome → Ending
  | .done (.returned v) _ => .finished (some v)
  | .done _ _ => .finished none
  | .halted halt _ => .halted halt
  | .cutOff _ => .cutOff

def runFrom (budget : Nat) (m : Memory) (p : Program) : Outcome :=
  executeAll budget p ⟨m, .empty⟩

end MatrixLang
