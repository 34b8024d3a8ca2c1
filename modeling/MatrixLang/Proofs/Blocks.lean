import MatrixLang.Proofs.Run.Visits
import MatrixLang.Proofs.Tree
import MatrixLang.Tree.Outline
import MatrixLang.Typing.Check

/-!
# Blocks are transparent

A block holds statements together and does nothing else: it opens no scope, adds
no depth and is no loop. So its statements can take its place in a list, and the
only statement of a block can be a body by itself. `Flattens p q` says that `q`
comes from `p` in this way and has no block left in a list; the blocks that are
bodies may stay.

Two lists of statements coincide if outlines, the checker and the interpreter
cannot tell them apart (`Coincide`). This is an equivalence that lists, branches
and loops keep, so that one fact carries it all: a block coincides with the list
of its statements (`Coincide.block`).
-/

namespace MatrixLang

/-! ## Flat programs -/

namespace Stmt

def isBlock : Stmt → Bool
  | .block _ _ => true
  | _ => false

/-- Whether a statement holds no others. -/
def isSimple : Stmt → Bool
  | .assign .. | .break_ _ | .continue_ _ | .ret .. | .print .. => true
  | .block .. | .branch .. | .loop .. | .count .. => false

mutual

/-- Whether no block stands in a list inside a statement. Its bodies may be
blocks. -/
def isFlat : Stmt → Bool
  | .block _ body => areFlat body
  | .branch _ _ yes none => yes.isFlat
  | .branch _ _ yes (some no) => yes.isFlat && no.isFlat
  | .loop _ _ body | .count _ _ _ body => body.isFlat
  | .assign .. | .break_ _ | .continue_ _ | .ret .. | .print .. => true

def areFlat : List Stmt → Bool
  | [] => true
  | s :: rest => !s.isBlock && s.isFlat && areFlat rest

end

theorem areFlat_iff {p : List Stmt} :
    areFlat p = true ↔ ∀ s ∈ p, s.isBlock = false ∧ s.isFlat = true := by
  induction p with
  | nil => simp [areFlat]
  | cons s rest ih => simp [areFlat, ih, and_assoc]

theorem areFlat_append {p q : List Stmt} :
    areFlat (p ++ q) = true ↔ areFlat p = true ∧ areFlat q = true := by
  simp only [areFlat_iff, List.forall_mem_append]

theorem areFlat_one {s : Stmt} :
    areFlat [s] = true ↔ s.isBlock = false ∧ s.isFlat = true := by
  simp [areFlat]

end Stmt

/-! ## Flattening -/

/-- What may stand for a body after its statements were flattened: a block with
these statements, or the statement itself if there is one. A block around a
single statement may also be left out before. -/
inductive Stands : Stmt → List Stmt → Stmt → Prop
  | kept {l : Nat} {body ss : List Stmt} : Stands (.block l body) ss (.block l ss)
  | lone {s t : Stmt} : Stands s [t] t
  | inner {l : Nat} {s t : Stmt} {ss : List Stmt} : Stands s ss t →
      Stands (.block l [s]) ss t

/-- The statements of every block in a list take its place, at every depth, and
every body becomes one that may stand for it. -/
inductive Flattens : List Stmt → List Stmt → Prop
  | nil : Flattens [] []
  | cons {s : Stmt} {ss rest rest' : List Stmt} : Flattens [s] ss →
      Flattens rest rest' → Flattens (s :: rest) (ss ++ rest')
  | block {l : Nat} {body body' : List Stmt} : Flattens body body' →
      Flattens [.block l body] body'
  | simple {s : Stmt} : s.isSimple = true → Flattens [s] [s]
  | ifThen {l : Nat} {test : Expr} {yes yes' : Stmt} {ys : List Stmt} :
      Flattens [yes] ys → Stands yes ys yes' →
      Flattens [.branch l test yes none] [.branch l test yes' none]
  | ifThenElse {l : Nat} {test : Expr} {yes yes' no no' : Stmt} {ys ns : List Stmt} :
      Flattens [yes] ys → Stands yes ys yes' →
      Flattens [no] ns → Stands no ns no' →
      Flattens [.branch l test yes (some no)] [.branch l test yes' (some no')]
  | loop {l : Nat} {test : Expr} {body body' : Stmt} {ss : List Stmt} :
      Flattens [body] ss → Stands body ss body' →
      Flattens [.loop l test body] [.loop l test body']
  | count {l : Nat} {x : String} {r : Range} {body body' : Stmt} {ss : List Stmt} :
      Flattens [body] ss → Stands body ss body' →
      Flattens [.count l x r body] [.count l x r body']

theorem Stands.isFlat {s t : Stmt} {ss : List Stmt} (h : Stands s ss t)
    (hss : Stmt.areFlat ss = true) : t.isFlat = true := by
  induction h with
  | kept => exact hss
  | lone => exact (Stmt.areFlat_one.mp hss).2
  | inner _ ih => exact ih hss

theorem Flattens.areFlat {p q : List Stmt} (h : Flattens p q) :
    Stmt.areFlat q = true := by
  induction h with
  | nil => rfl
  | cons _ _ ihs ih => exact Stmt.areFlat_append.mpr ⟨ihs, ih⟩
  | block _ ih => exact ih
  | @simple s hs => cases s <;> first | rfl | cases hs
  | ifThen _ hyes ih => exact Stmt.areFlat_one.mpr ⟨rfl, hyes.isFlat ih⟩
  | ifThenElse _ hyes _ hno ihYes ihNo =>
      refine Stmt.areFlat_one.mpr ⟨rfl, ?_⟩
      simp only [Stmt.isFlat, hyes.isFlat ihYes, hno.isFlat ihNo, Bool.and_self]
  | loop _ hbody ih | count _ hbody ih =>
      exact Stmt.areFlat_one.mpr ⟨rfl, hbody.isFlat ih⟩

namespace Stmt

/-- The statements that take the place of a statement in a list. -/
def spliced : Stmt → List Stmt
  | .block _ body => body
  | s => [s]

mutual

/-- Flattens what is in a statement and keeps the blocks that are bodies. -/
def flatten : Stmt → Stmt
  | .block l body => .block l (flattenAll body)
  | .branch l test yes none => .branch l test yes.flatten none
  | .branch l test yes (some no) => .branch l test yes.flatten (some no.flatten)
  | .loop l test body => .loop l test body.flatten
  | .count l x r body => .count l x r body.flatten
  | .assign l op p e => .assign l op p e
  | .break_ l => .break_ l
  | .continue_ l => .continue_ l
  | .ret l e => .ret l e
  | .print l es => .print l es

def flattenAll : List Stmt → List Stmt
  | [] => []
  | s :: rest => s.flatten.spliced ++ flattenAll rest

end

theorem flattenAll_flattens {p : List Stmt}
    (h : ∀ s ∈ p, Flattens [s] s.flatten.spliced) : Flattens p (flattenAll p) := by
  induction p with
  | nil => exact .nil
  | cons s rest ih =>
      obtain ⟨hs, hrest⟩ := List.forall_mem_cons.mp h
      exact .cons hs (ih hrest)

theorem flatten_flattens (s : Stmt) :
    Flattens [s] s.flatten.spliced ∧ Stands s s.flatten.spliced s.flatten := by
  induction s with
  | block l body ih =>
      exact ⟨.block (flattenAll_flattens fun s hs => (ih s hs).1), .kept⟩
  | branch l test yes no ihYes ihNo =>
      cases no with
      | none => exact ⟨.ifThen ihYes.1 ihYes.2, .lone⟩
      | some no =>
          obtain ⟨hno, hstands⟩ := ihNo no rfl
          exact ⟨.ifThenElse ihYes.1 ihYes.2 hno hstands, .lone⟩
  | loop l test body ih => exact ⟨.loop ih.1 ih.2, .lone⟩
  | count l x r body ih => exact ⟨.count ih.1 ih.2, .lone⟩
  | assign | break_ | continue_ | ret | print => exact ⟨.simple rfl, .lone⟩

end Stmt

/-! ## Statements that coincide -/

theorem Outline.stmts_append (depth : Nat) (p q : List Stmt) :
    Outline.stmts depth (p ++ q) = Outline.stmts depth p ++ Outline.stmts depth q := by
  induction p with
  | nil => rfl
  | cons s rest ih => simp only [List.cons_append, Outline.stmts, ih, List.append_assoc]

theorem checkStmts_append (inLoop : Bool) (symbols : Symbols) (p q : List Stmt) :
    checkStmts inLoop symbols (p ++ q)
      = (checkStmts inLoop symbols p).andThen fun t => checkStmts inLoop t q := by
  induction p generalizing symbols with
  | nil => rfl
  | cons s rest ih =>
      simp only [List.cons_append, checkStmts, Checked.andThen, ih, List.append_assoc]

@[simp] theorem Outline.stmts_one (depth : Nat) (s : Stmt) :
    Outline.stmts depth [s] = Outline.stmt depth s := by
  simp only [Outline.stmts, List.append_nil]

@[simp] theorem checkStmts_one (inLoop : Bool) (symbols : Symbols) (s : Stmt) :
    checkStmts inLoop symbols [s] = checkStmt inLoop symbols s := by
  simp only [checkStmts, Checked.andThen, List.append_nil]

@[simp] theorem executeAll_one (budget : Nat) (stmt : Stmt) (s : State) :
    executeAll budget [stmt] s = execute budget stmt s := by
  simp only [executeAll]
  cases execute budget stmt s with
  | done signal t => cases signal <;> rfl
  | halted | cutOff => rfl

/-- No pass tells `p` and `q` apart, wherever they stand. -/
structure Coincide (p q : List Stmt) : Prop where
  outline : ∀ depth, Outline.stmts depth p = Outline.stmts depth q
  check : ∀ inLoop symbols, checkStmts inLoop symbols p = checkStmts inLoop symbols q
  run : ∀ budget s, executeAll budget p s = executeAll budget q s

namespace Coincide

variable {p q r : List Stmt} {s t : Stmt} {l : Nat} {test : Expr}

theorem refl (p : List Stmt) : Coincide p p :=
  ⟨fun _ => rfl, fun _ _ => rfl, fun _ _ => rfl⟩

theorem symm (h : Coincide p q) : Coincide q p :=
  ⟨fun d => (h.outline d).symm, fun i c => (h.check i c).symm,
    fun b m => (h.run b m).symm⟩

theorem trans (h : Coincide p q) (k : Coincide q r) : Coincide p r :=
  ⟨fun d => (h.outline d).trans (k.outline d),
    fun i c => (h.check i c).trans (k.check i c),
    fun b m => (h.run b m).trans (k.run b m)⟩

/-- What cuts one list off at some point cuts the other one off there. -/
theorem append {p' q' : List Stmt} (hp : Coincide p p') (hq : Coincide q q') :
    Coincide (p ++ q) (p' ++ q') where
  outline depth := by
    rw [Outline.stmts_append, Outline.stmts_append, hp.outline, hq.outline]
  check inLoop symbols := by
    simp only [checkStmts_append, hp.check, hq.check]
  run budget s := by
    simp only [executeAll_append, hp.run, hq.run]

/-- A block coincides with its statements. -/
theorem block (l : Nat) (p : List Stmt) : Coincide [.block l p] p where
  outline depth := by rw [Outline.stmts_one, Outline.stmt]
  check inLoop symbols := by rw [checkStmts_one, checkStmt]
  run budget s := by rw [executeAll_one, execute]

theorem outline_stmt (h : Coincide [s] [t]) (depth : Nat) :
    Outline.stmt depth s = Outline.stmt depth t := by
  simpa only [Outline.stmts_one] using h.outline depth

theorem check_stmt (h : Coincide [s] [t]) (inLoop : Bool) (symbols : Symbols) :
    checkStmt inLoop symbols s = checkStmt inLoop symbols t := by
  simpa only [checkStmts_one] using h.check inLoop symbols

theorem run_stmt (h : Coincide [s] [t]) (budget : Nat) :
    execute budget s = execute budget t := by
  funext u
  simpa only [executeAll_one] using h.run budget u

theorem ifThen (h : Coincide [s] [t]) :
    Coincide [.branch l test s none] [.branch l test t none] where
  outline depth := by simp only [Outline.stmts_one, Outline.stmt, h.outline_stmt]
  check inLoop symbols := by simp only [checkStmts_one, checkStmt, h.check_stmt]
  run budget u := by simp only [executeAll_one, execute, h.run_stmt]

theorem ifThenElse {s' t' : Stmt} (h : Coincide [s] [t]) (h' : Coincide [s'] [t']) :
    Coincide [.branch l test s (some s')] [.branch l test t (some t')] where
  outline depth := by
    simp only [Outline.stmts_one, Outline.stmt, h.outline_stmt, h'.outline_stmt]
  check inLoop symbols := by
    simp only [checkStmts_one, checkStmt, h.check_stmt, h'.check_stmt]
  run budget u := by
    simp only [executeAll_one, execute, h.run_stmt, h'.run_stmt]

theorem loop (h : Coincide [s] [t]) :
    Coincide [.loop l test s] [.loop l test t] where
  outline depth := by simp only [Outline.stmts_one, Outline.stmt, h.outline_stmt]
  check inLoop symbols := by simp only [checkStmts_one, checkStmt, h.check_stmt]
  run budget u := by simp only [executeAll_one, execute, h.run_stmt]

theorem count {x : String} {range : Range} (h : Coincide [s] [t]) :
    Coincide [.count l x range s] [.count l x range t] where
  outline depth := by simp only [Outline.stmts_one, Outline.stmt, h.outline_stmt]
  check inLoop symbols := by simp only [checkStmts_one, checkStmt, h.check_stmt]
  run budget u := by simp only [executeAll_one, execute, h.run_stmt]

end Coincide

theorem Stands.coincide {s t : Stmt} {ss : List Stmt} (h : Stands s ss t)
    (hss : Coincide [s] ss) : Coincide [s] [t] := by
  induction h with
  | kept => exact hss.trans (Coincide.block _ _).symm
  | lone => exact hss
  | @inner l s t ss _ ih =>
      have hblock := Coincide.block l [s]
      exact hblock.trans (ih (hblock.symm.trans hss))

theorem Flattens.coincide {p q : List Stmt} (h : Flattens p q) : Coincide p q := by
  induction h with
  | nil => exact .refl []
  | cons _ _ ihs ih => exact ihs.append ih
  | block _ ih => exact (Coincide.block _ _).trans ih
  | simple => exact .refl _
  | ifThen _ hyes ih => exact (hyes.coincide ih).ifThen
  | ifThenElse _ hyes _ hno ihYes ihNo =>
      exact (hyes.coincide ihYes).ifThenElse (hno.coincide ihNo)
  | loop _ hbody ih => exact (hbody.coincide ih).loop
  | count _ hbody ih => exact (hbody.coincide ih).count

/-- **Blocks are transparent.** Every program can be flattened. A flattened one
has no block in a list, the same outline, the same reports and symbols from the
checker, and the same runs: what is printed, the memory that is left, and the
value or the fault with its line. -/
theorem blocks_transparent (p : Program) :
    Flattens p (Stmt.flattenAll p)
      ∧ ∀ q, Flattens p q →
        Stmt.areFlat q = true
          ∧ Program.outline q = Program.outline p
          ∧ (∀ symbols, checkFrom symbols q = checkFrom symbols p)
          ∧ ∀ budget m, runFrom budget m q = runFrom budget m p := by
  constructor
  · exact Stmt.flattenAll_flattens fun s _ => s.flatten_flattens.1
  · intro q hq
    have h := hq.coincide.symm
    refine ⟨hq.areFlat, ?_, fun symbols => h.check false symbols,
      fun budget m => h.run budget _⟩
    simp only [Program.outline, h.outline]

namespace Sample

def stop (body : Stmt) : Stmt :=
  .branch 1 (.compare 1 .gt (.read 1 (.var "x")) (.int 1 4)) body none

def doubling (body : List Stmt) : Stmt :=
  .loop 1 (.compare 1 .lt (.read 1 (.var "x")) (.int 1 9)) (.block 1 body)

def double : Stmt :=
  .assign 1 .set (.var "x") (.binary 1 .mul (.read 1 (.var "x")) (.int 1 2))

def shown : Stmt := .print 1 [.read 1 (.var "x")]

/-- `while (x < 9) { { x = x * 2; { if (x > 4) { break; } } } print x; }`: a
signal that leaves three blocks. -/
def nested : Program :=
  [doubling [.block 1 [double, .block 1 [stop (.block 1 [.break_ 1])]], shown]]

/-- `while (x < 9) { x = x * 2; if (x > 4) break; print x; }` -/
def unnested : Program := [doubling [double, stop (.break_ 1), shown]]

theorem nested_flattens : Flattens nested unnested := by
  have hstop : Flattens [stop (.block 1 [.break_ 1])] [stop (.break_ 1)] :=
    .ifThen (.block (.simple rfl)) .lone
  have hinner : Flattens [double, .block 1 [stop (.block 1 [.break_ 1])]]
      [double, stop (.break_ 1)] :=
    .cons (.simple rfl) (.block hstop)
  have hshown : Flattens [shown] [shown] := .simple rfl
  exact .loop (.block (.cons (.block hinner) hshown)) .kept

end Sample

theorem blocks_transparent_nested :
    Flattens Sample.nested Sample.unnested
      ∧ Program.outline Sample.unnested = Program.outline Sample.nested
      ∧ (∀ symbols, checkFrom symbols Sample.unnested = checkFrom symbols Sample.nested)
      ∧ ∀ budget m,
        runFrom budget m Sample.unnested = runFrom budget m Sample.nested :=
  ⟨Sample.nested_flattens,
    ((blocks_transparent Sample.nested).2 _ Sample.nested_flattens).2⟩

end MatrixLang
