import MatrixLang.Diagnostic.Basic
import MatrixLang.Proofs.Tree
import MatrixLang.Token.Basic
import MatrixLang.Value.Fault

/-!
# Moving lines

Tokens, trees, diagnostics and faults carry lines and nothing else that hangs on
where a text breaks its lines. `mapLine` and `mapLines` put other lines in their
place. With a constant the lines are gone: two trees are equal up to their lines
exactly if they are the same after that (`Expr.unlined`, `Stmt.unlined`).
-/

namespace MatrixLang

variable (f : Nat → Nat)

def Token.mapLine (t : Token) : Token := { t with line := f t.line }

def Diagnostic.mapLine (d : Diagnostic) : Diagnostic :=
  { d with line := f d.line }

def RunError.mapLine (e : RunError) : RunError := { e with line := f e.line }

/-- A crash has no line. -/
def Halt.mapLine : Halt RunError → Halt RunError := .map (RunError.mapLine f)

namespace Expr

mutual

def mapLines : Expr → Expr
  | .int l n => .int (f l) n
  | .float l x => .float (f l) x
  | .str l s => .str (f l) s
  | .read l p => .read (f l) p
  | .binary l op a b => .binary (f l) op a.mapLines b.mapLines
  | .compare l op a b => .compare (f l) op a.mapLines b.mapLines
  | .vector l es => .vector (f l) (mapLinesAll es)
  | .matrix l es => .matrix (f l) (mapLinesAll es)
  | .construct l c d => .construct (f l) c d
  | .neg l e => .neg (f l) e.mapLines
  | .transpose l e => .transpose (f l) e.mapLines

def mapLinesAll : List Expr → List Expr
  | [] => []
  | e :: rest => e.mapLines :: mapLinesAll rest

end

theorem mapLinesAll_eq_map (es : List Expr) :
    mapLinesAll f es = es.map (mapLines f) := by
  induction es with
  | nil => rfl
  | cons e rest ih => rw [mapLinesAll, ih, List.map_cons]

@[simp] theorem line_mapLines (e : Expr) : (e.mapLines f).line = f e.line := by
  cases e <;> rfl

@[simp] theorem isVector_mapLines (e : Expr) :
    (e.mapLines f).isVector = e.isVector := by
  cases e <;> rfl

@[simp] theorem isEmptyMatrix_mapLines (e : Expr) :
    (e.mapLines f).isEmptyMatrix = e.isEmptyMatrix := by
  cases e with
  | matrix l es => cases es <;> rfl
  | _ => rfl

end Expr

def Range.mapLines (r : Range) : Range :=
  ⟨f r.line, r.start.mapLines f, r.stop.mapLines f⟩

namespace Stmt

mutual

def mapLines : Stmt → Stmt
  | .block l body => .block (f l) (mapLinesAll body)
  | .assign l op p e => .assign (f l) op p (e.mapLines f)
  | .branch l test yes none => .branch (f l) (test.mapLines f) yes.mapLines none
  | .branch l test yes (some no) =>
      .branch (f l) (test.mapLines f) yes.mapLines (some no.mapLines)
  | .loop l test body => .loop (f l) (test.mapLines f) body.mapLines
  | .count l x r body => .count (f l) x (r.mapLines f) body.mapLines
  | .break_ l => .break_ (f l)
  | .continue_ l => .continue_ (f l)
  | .ret l e => .ret (f l) (e.mapLines f)
  | .print l es => .print (f l) (Expr.mapLinesAll f es)

def mapLinesAll : List Stmt → List Stmt
  | [] => []
  | s :: rest => s.mapLines :: mapLinesAll rest

end

theorem mapLinesAll_eq_map (ss : List Stmt) :
    mapLinesAll f ss = ss.map (mapLines f) := by
  induction ss with
  | nil => rfl
  | cons s rest ih => rw [mapLinesAll, ih, List.map_cons]

end Stmt

/-! ## The same lines -/

@[simp] theorem Token.mapLine_id (t : Token) : t.mapLine (fun l => l) = t := rfl

theorem Token.map_mapLine_id (ts : List Token) :
    ts.map (mapLine fun l => l) = ts := by
  rw [List.map_congr_left fun t _ => t.mapLine_id, List.map_id']

@[simp] theorem Expr.mapLines_id (e : Expr) : e.mapLines (fun l => l) = e := by
  induction e with
  | binary l op a b iha ihb => rw [mapLines, iha, ihb]
  | compare l op a b iha ihb => rw [mapLines, iha, ihb]
  | vector l es ih =>
      rw [mapLines, mapLinesAll_eq_map, List.map_congr_left ih, List.map_id']
  | matrix l es ih =>
      rw [mapLines, mapLinesAll_eq_map, List.map_congr_left ih, List.map_id']
  | neg l e ih => rw [mapLines, ih]
  | transpose l e ih => rw [mapLines, ih]
  | int | float | str | read | construct => rfl

@[simp] theorem Range.mapLines_id (r : Range) :
    r.mapLines (fun l => l) = r := by
  rw [mapLines, Expr.mapLines_id, Expr.mapLines_id]

@[simp] theorem Stmt.mapLines_id (s : Stmt) : s.mapLines (fun l => l) = s := by
  induction s with
  | block l body ih =>
      rw [mapLines, mapLinesAll_eq_map, List.map_congr_left ih, List.map_id']
  | branch l test yes no ihYes ihNo =>
      cases no with
      | none => rw [mapLines, Expr.mapLines_id, ihYes]
      | some no => rw [mapLines, Expr.mapLines_id, ihYes, ihNo no rfl]
  | loop l test body ih => rw [mapLines, Expr.mapLines_id, ih]
  | count l x r body ih => rw [mapLines, Range.mapLines_id, ih]
  | assign l op p e => rw [mapLines, Expr.mapLines_id]
  | ret l e => rw [mapLines, Expr.mapLines_id]
  | print l es =>
      rw [mapLines, Expr.mapLinesAll_eq_map,
        List.map_congr_left fun e _ => e.mapLines_id, List.map_id']
  | break_ | continue_ => rfl

/-! ## No lines -/

abbrev Expr.unlined (e : Expr) : Expr := e.mapLines fun _ => 0

abbrev Expr.unlinedAll (es : List Expr) : List Expr := mapLinesAll (fun _ => 0) es

abbrev Stmt.unlined (s : Stmt) : Stmt := s.mapLines fun _ => 0

abbrev Stmt.unlinedAll (ss : List Stmt) : List Stmt := mapLinesAll (fun _ => 0) ss

end MatrixLang
