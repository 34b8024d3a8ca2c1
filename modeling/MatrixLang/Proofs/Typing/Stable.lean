import MatrixLang.Proofs.Run.Visits
import MatrixLang.Proofs.Typing.Step

/-!
# Checked programs whose variables keep their types

The checker walks through each branch and each loop body once. If nothing that
it records on the way changes the class or the shape of a variable, the types
hold in every state of every run, in whatever order and however often the
statements are come to.

The argument has two halves. The walk: every statement in the tree is checked
without a report in a table that is like the first one (`Stmt.Stable.part`). The
run: a step of such a statement keeps the memory matching and halts only as it may
(`Stmt.Stable.keeps`). `execute_safe` puts them together; the result is
`stable_run`. It has to leave room for a crash: stable types do not bound the product
of two matrices (`stable_run_noRoom`).
-/

namespace MatrixLang

/-! ## Classes of types -/

/-- The same class and the same shape, where integers and floats are one
class. -/
def Ty.Alike (t u : Ty) : Prop :=
  t.shape = u.shape
    ∧ (t.kind = u.kind ∨ t.kind.isNumeric = true ∧ u.kind.isNumeric = true)

instance (t u : Ty) : Decidable (t.Alike u) :=
  inferInstanceAs (Decidable (_ ∧ _))

theorem Ty.Alike.refl (t : Ty) : t.Alike t := ⟨rfl, .inl rfl⟩

theorem Ty.Alike.symm {t u : Ty} (h : t.Alike u) : u.Alike t := by
  obtain ⟨hshape, hkind | ⟨ht, hu⟩⟩ := h
  · exact ⟨hshape.symm, .inl hkind.symm⟩
  · exact ⟨hshape.symm, .inr ⟨hu, ht⟩⟩

/-- In the coarse reading only the class and the shape of a type matter. -/
theorem Value.Fits.alike {v : Value} {t u : Ty} (hv : v.Fits .coarse t)
    (h : t.Alike u) :
    v.Fits .coarse u := by
  obtain ⟨kind, shape⟩ := u
  obtain ⟨hshape, hkind⟩ := h
  simp only at hshape hkind
  subst hshape
  rcases hkind with hkind | ⟨ht, hu⟩
  · subst hkind
    exact hv
  · have hnum : kind = .int ∨ kind = .float := by
      cases kind with
      | int => exact .inl rfl
      | float => exact .inr rfl
      | string | vector | matrix => cases hu
    cases hv with
    | int n | whole n =>
        rcases hnum with rfl | rfl
        · exact .int n
        · exact .whole n
    | rounded x | float x =>
        rcases hnum with rfl | rfl
        · exact .rounded x rfl
        · exact .float x
    | str | vector | matrix => cases ht

/-! ## What the walk records -/

/-- The symbols after some types were recorded, the last one at the end. -/
def Symbols.recording (symbols : Symbols)
    (records : List (String × Option Ty)) : Symbols :=
  records.foldl (fun table r => table.define r.1 r.2) symbols

/-- What an assignment to a variable records. -/
def variableRecords (symbols : Symbols) (op : AssignOp) (name : String)
    (value : Option Ty) :
    List (String × Option Ty) :=
  if op = .set then [(name, value)]
  else
    match symbols.get? name, value with
    | some (some t), some u =>
        match Ty.compound op t u with
        | .ok r => [(name, some r)]
        | .error _ => []
    | _, _ => []

namespace Stmt

mutual

/-- What the checker records on its walk through a statement, in order. -/
def records (symbols : Symbols) : Stmt → List (String × Option Ty)
  | .block _ body => recordsAll symbols body
  | .assign _ op (.var name) e =>
      variableRecords symbols op name (infer symbols e).ty
  | .assign _ _ _ _ => []
  | .branch _ _ yes none => yes.records symbols
  | .branch _ _ yes (some no) =>
      let before := yes.records symbols
      before ++ no.records (symbols.recording before)
  | .loop _ _ body => body.records symbols
  | .count _ var _ body =>
      (var, some .int) :: body.records (symbols.define var (some .int))
  | .break_ _ | .continue_ _ | .ret _ _ | .print _ _ => []

def recordsAll (symbols : Symbols) : List Stmt → List (String × Option Ty)
  | [] => []
  | s :: rest =>
      let before := s.records symbols
      before ++ recordsAll (symbols.recording before) rest

end

end Stmt

theorem Symbols.recording_append (symbols : Symbols)
    (l k : List (String × Option Ty)) :
    symbols.recording (l ++ k) = (symbols.recording l).recording k :=
  List.foldl_append

theorem checkVariable_symbols (symbols : Symbols) (line : Nat) (op : AssignOp)
    (name : String) (value : Option Ty) :
    (checkVariable symbols line op name value).symbols
      = symbols.recording (variableRecords symbols op name value) := by
  unfold checkVariable variableRecords
  split
  · rfl
  · rcases symbols.get? name with _ | _ | t
    · rfl
    · rfl
    · cases value with
      | none => rfl
      | some u => cases h : Ty.compound op t u <;> simp only [h] <;> rfl

theorem checkStmts_symbols {inLoop : Bool} {body : List Stmt}
    (h : ∀ stmt ∈ body, ∀ symbols : Symbols,
      (checkStmt inLoop symbols stmt).symbols
        = symbols.recording (stmt.records symbols))
    (symbols : Symbols) :
    (checkStmts inLoop symbols body).symbols
      = symbols.recording (Stmt.recordsAll symbols body) := by
  induction body generalizing symbols with
  | nil => rfl
  | cons stmt rest ih =>
      obtain ⟨hstmt, hrest⟩ := List.forall_mem_cons.mp h
      simp only [checkStmts, Checked.andThen, Stmt.recordsAll,
        Symbols.recording_append, hstmt]
      exact ih hrest _

/-- The walk changes the symbols by what it records, and by nothing else. -/
theorem checkStmt_symbols (inLoop : Bool) (symbols : Symbols) (stmt : Stmt) :
    (checkStmt inLoop symbols stmt).symbols = symbols.recording
    (stmt.records symbols) := by
  induction stmt generalizing inLoop symbols with
  | block line body ih =>
      exact checkStmts_symbols (fun s hs => ih s hs inLoop) symbols
  | assign line op place e =>
      cases place with
      | var name => exact checkVariable_symbols symbols line op name _
      | item | cell => rfl
  | branch line test yes no ihYes ihNo =>
      cases no with
      | none => exact ihYes inLoop symbols
      | some no =>
          simp only [checkStmt, Checked.andThen, Stmt.records,
            Symbols.recording_append, ihYes]
          exact ihNo no rfl inLoop _
  | loop line test body ih => exact ih true symbols
  | count line var range body ih => exact ih true _
  | break_ | continue_ | ret | print => rfl

/-! ## The walk keeps to the types -/

section

variable {G : String → Ty} {names : List String} {symbols : Symbols} {inLoop : Bool}

/-- On these names the symbols are those of `G`, up to the class. -/
def Symbols.Like (G : String → Ty) (names : List String) (symbols : Symbols) :
    Prop :=
  ∀ x ∈ names, ∃ t, symbols.get? x = some (some t) ∧ t.Alike (G x)

/-- Every recorded type is that of `G`, up to the class. -/
def RecordsLike (G : String → Ty) (records : List (String × Option Ty)) :
    Prop :=
  ∀ r ∈ records, ∃ t ∈ r.2, t.Alike (G r.1)

theorem Symbols.Like.define {name : String} {t : Ty} (h : symbols.Like G names)
    (ht : t.Alike (G name)) :
    Symbols.Like G names (symbols.define name (some t)) := by
  intro x hx
  rw [Scopes.get?_define]
  by_cases hname : name = x
  · subst hname
    exact ⟨t, if_pos rfl, ht⟩
  · rw [if_neg hname]
    exact h x hx

theorem Symbols.Like.recording {records : List (String × Option Ty)}
    (h : symbols.Like G names) (hrecords : RecordsLike G records) :
    (symbols.recording records).Like G names := by
  induction records generalizing symbols with
  | nil => exact h
  | cons r rest ih =>
      obtain ⟨⟨t, ht, halike⟩, hrest⟩ := List.forall_mem_cons.mp hrecords
      obtain ⟨name, value⟩ := r
      obtain rfl : value = some t := ht
      exact ih (h.define halike) hrest

instance (G : String → Ty) (records : List (String × Option Ty)) :
    Decidable (RecordsLike G records) :=
  inferInstanceAs (Decidable (∀ r ∈ records, ∃ t ∈ r.2, t.Alike (G r.1)))

/-- A statement is checked without a report in a table like `G`, and what is
recorded in it is like `G` too. -/
structure Stmt.Stable (G : String → Ty) (names : List String) (inLoop : Bool)
    (symbols : Symbols) (stmt : Stmt) : Prop where
  like : symbols.Like G names
  scope : ∀ x ∈ stmt.names, x ∈ names
  clean : (checkStmt inLoop symbols stmt).reports = []
  records : RecordsLike G (stmt.records symbols)

namespace Stmt.Stable

theorem member {line : Nat} {body : List Stmt}
    (h : (Stmt.block line body).Stable G names inLoop symbols) :
    ∀ stmt ∈ body, ∃ before, stmt.Stable G names inLoop before := by
  induction body generalizing symbols with
  | nil => exact fun stmt hstmt => absurd hstmt List.not_mem_nil
  | cons first rest ih =>
      obtain ⟨hlike, hscope, hclean, hrecords⟩ := h
      obtain ⟨hscopeFirst, hscopeRest⟩ := List.forall_mem_append.mp hscope
      obtain ⟨hrecordsFirst, hrecordsRest⟩ := List.forall_mem_append.mp hrecords
      simp only [checkStmt, checkStmts, Checked.andThen,
        List.append_eq_nil_iff] at hclean
      rw [checkStmt_symbols] at hclean
      have hfirst : first.Stable G names inLoop symbols :=
        ⟨hlike, hscopeFirst, hclean.1, hrecordsFirst⟩
      have hrest : (Stmt.block line rest).Stable G names inLoop
          (symbols.recording (first.records symbols)) :=
        ⟨hlike.recording hrecordsFirst, hscopeRest, hclean.2, hrecordsRest⟩
      intro stmt hstmt
      rcases List.mem_cons.mp hstmt with rfl | hstmt
      · exact ⟨symbols, hfirst⟩
      · exact ih hrest stmt hstmt

/-- The condition of a branch and its first statement. -/
theorem yes {line : Nat} {test : Expr} {yes : Stmt} {no : Option Stmt}
    (h : (Stmt.branch line test yes no).Stable G names inLoop symbols) :
    (∀ x ∈ test.names, x ∈ names) ∧ (infer symbols test).reports = []
      ∧ yes.Stable G names inLoop symbols := by
  obtain ⟨hlike, hscope, hclean, hrecords⟩ := h
  cases no with
  | none =>
      simp only [checkStmt, Checked.andThen, List.append_eq_nil_iff] at hclean
      obtain ⟨htest, hyes⟩ := List.forall_mem_append.mp hscope
      exact ⟨htest, hclean.1, hlike, hyes, hclean.2, hrecords⟩
  | some no =>
      simp only [checkStmt, Checked.andThen, List.append_eq_nil_iff] at hclean
      obtain ⟨hboth, -⟩ := List.forall_mem_append.mp hscope
      obtain ⟨htest, hyes⟩ := List.forall_mem_append.mp hboth
      obtain ⟨hrecordsYes, -⟩ := List.forall_mem_append.mp hrecords
      exact ⟨htest, hclean.1.1, hlike, hyes, hclean.1.2, hrecordsYes⟩

theorem no {line : Nat} {test : Expr} {yes no : Stmt}
    (h : (Stmt.branch line test yes (some no)).Stable G names inLoop symbols) :
    no.Stable G names inLoop (symbols.recording (yes.records symbols)) := by
  obtain ⟨hlike, hscope, hclean, hrecords⟩ := h
  obtain ⟨-, hno⟩ := List.forall_mem_append.mp hscope
  obtain ⟨hrecordsYes, hrecordsNo⟩ := List.forall_mem_append.mp hrecords
  simp only [checkStmt, Checked.andThen, List.append_eq_nil_iff] at hclean
  rw [checkStmt_symbols] at hclean
  exact ⟨hlike.recording hrecordsYes, hno, hclean.2, hrecordsNo⟩

theorem loop {line : Nat} {test : Expr} {body : Stmt}
    (h : (Stmt.loop line test body).Stable G names inLoop symbols) :
    (∀ x ∈ test.names, x ∈ names) ∧ (infer symbols test).reports = []
      ∧ body.Stable G names true symbols := by
  obtain ⟨hlike, hscope, hclean, hrecords⟩ := h
  obtain ⟨htest, hbody⟩ := List.forall_mem_append.mp hscope
  simp only [checkStmt, Checked.andThen, List.append_eq_nil_iff] at hclean
  exact ⟨htest, hclean.1, hlike, hbody, hclean.2, hrecords⟩

theorem count {line : Nat} {var : String} {range : Range} {body : Stmt}
    (h : (Stmt.count line var range body).Stable G names inLoop symbols) :
    Ty.int.Alike (G var)
      ∧ body.Stable G names true (symbols.define var (some .int)) := by
  obtain ⟨hlike, hscope, hclean, hrecords⟩ := h
  obtain ⟨-, hrange⟩ := List.forall_mem_cons.mp hscope
  obtain ⟨-, hbody⟩ := List.forall_mem_append.mp hrange
  obtain ⟨⟨t, ht, halike⟩, hrecordsBody⟩ := List.forall_mem_cons.mp hrecords
  obtain rfl : Ty.int = t := Option.some.inj ht
  simp only [checkStmt, Checked.andThen, List.append_eq_nil_iff] at hclean
  exact ⟨halike, hlike.define halike, hbody, hclean.2, hrecordsBody⟩

/-- Every statement in a stable one is stable: the walk comes to it with some
table. -/
theorem part {stmt : Stmt} (h : stmt.Stable G names inLoop symbols) :
    ∀ x ∈ stmt.parts, ∃ inLoop' symbols', x.Stable G names inLoop' symbols' := by
  induction stmt generalizing inLoop symbols with
  | block line body ih =>
      intro x hx
      rcases List.mem_cons.mp hx with rfl | hx
      · exact ⟨_, _, h⟩
      · obtain ⟨stmt, hstmt, hx⟩ := Stmt.mem_partsAll.mp hx
        obtain ⟨before, hbefore⟩ := h.member stmt hstmt
        exact ih stmt hstmt hbefore x hx
  | branch line test yes no ihYes ihNo =>
      intro x hx
      cases no with
      | none =>
          rcases List.mem_cons.mp hx with rfl | hx
          · exact ⟨_, _, h⟩
          · exact ihYes h.yes.2.2 x hx
      | some no =>
          rcases List.mem_cons.mp hx with rfl | hx
          · exact ⟨_, _, h⟩
          · rcases List.mem_append.mp hx with hx | hx
            · exact ihYes h.yes.2.2 x hx
            · exact ihNo no rfl h.no x hx
  | loop line test body ih =>
      intro x hx
      rcases List.mem_cons.mp hx with rfl | hx
      · exact ⟨_, _, h⟩
      · exact ih h.loop.2.2 x hx
  | count line var range body ih =>
      intro x hx
      rcases List.mem_cons.mp hx with rfl | hx
      · exact ⟨_, _, h⟩
      · exact ih h.count.2 x hx
  | assign | break_ | continue_ | ret | print =>
      intro x hx
      obtain rfl := List.mem_singleton.mp hx
      exact ⟨_, _, h⟩

end Stmt.Stable

/-! ## Steps of the run -/

/-- On these names the memory has values of the classes and shapes of `G`. -/
def Memory.Matches (G : String → Ty) (names : List String) (m : Memory) :
    Prop :=
  ∀ x ∈ names, ∃ v, m.get? x = some v ∧ v.Fits .coarse (G x)

theorem Memory.Matches.agrees {m : Memory} {x : String} (h : m.Matches G names)
    (hlike : symbols.Like G names) (hx : x ∈ names) :
    m.Agrees .coarse symbols x := by
  intro ty hty
  obtain ⟨t, ht, halike⟩ := hlike x hx
  obtain ⟨v, hv, hfit⟩ := h x hx
  exact ⟨t, v, Option.some.inj (hty.symm.trans ht), hv, hfit.alike halike.symm⟩

theorem Memory.Matches.assign {m : Memory} {name : String} {v : Value}
    (h : m.Matches G names) (hv : v.Fits .coarse (G name)) :
    Memory.Matches G names (m.assign name v) := by
  intro x hx
  rw [Scopes.get?_assign]
  by_cases hname : name = x
  · subst hname
    exact ⟨v, if_pos rfl, hv⟩
  · rw [if_neg hname]
    exact h x hx

def Expr.isCompare : Expr → Bool
  | .compare _ _ _ _ => true
  | _ => false

theorem Expr.isCompare_iff {e : Expr} :
    e.isCompare = true ↔ ∃ line op l r, e = .compare line op l r := by
  cases e <;> simp [isCompare]

/-- The condition of a branch or of a loop is a comparison, as in every program
text. -/
def Stmt.testsComparison : Stmt → Bool
  | .branch _ test _ _ | .loop _ test _ => test.isCompare
  | _ => true

namespace Stmt.Stable

/-- What is recorded for an assignment is like the type that it should have. -/
theorem recorded {line : Nat} {op : AssignOp} {place : Place} {e : Expr}
    {r : Ty} (h : (Stmt.assign line op place e).Stable G names inLoop symbols)
    (hr : (checkStmt inLoop symbols (.assign line op place e)).symbols.get?
      place.name = some (some r)) : r.Alike (G place.name) := by
  rw [checkStmt_symbols] at hr
  obtain ⟨t, ht, halike⟩ :=
    h.like.recording h.records place.name (h.scope _ List.mem_cons_self)
  obtain rfl := Option.some.inj (Option.some.inj (hr.symm.trans ht))
  exact halike

theorem holds_settles {stmt : Stmt} {line : Nat} {op : Relation} {l r : Expr}
    {m : Memory} (hlike : symbols.Like G names)
    (hscope : ∀ x ∈ (Expr.compare line op l r).names, x ∈ names)
    (hclean : (infer symbols (.compare line op l r)).reports = [])
    (hm : m.Matches G names) :
    Settles (Halt.Permitted (fun e => stmt.Permits e.fault) True) (fun _ => True)
      (holds m (.compare line op l r)) :=
  (MatrixLang.holds_settles (Expr.evaluates
    (fun x hx => hm.agrees hlike (hscope x hx)) hclean)).permits

/-- A step of a stable statement keeps the memory matching. -/
theorem keeps {stmt : Stmt} (h : stmt.Stable G names inLoop symbols)
    (htest : stmt.testsComparison = true) :
    stmt.Keeps (fun s => s.memory.Matches G names) Stmt.MayHalt := by
  refine Stmt.Keeps.crowded fun s hs => ?_
  have hlike := h.like
  have hagree : ∀ x ∈ stmt.names, s.memory.Agrees .coarse symbols x := by
    intro x hx
    exact hs.agrees hlike (h.scope x hx)
  have hclean := h.clean
  cases stmt with
  | assign line op place e =>
      obtain ⟨r, hr, hstep⟩ := assign_settles hagree hclean
      refine hstep.mono ?_
      rintro t ⟨w, rfl, hw⟩
      exact hs.assign (hw.alike (h.recorded hr))
  | print line values =>
      simp only [checkStmt, List.flatMap_eq_nil_iff] at hclean
      have hvalues : ∀ e ∈ values, e.Evaluates .coarse s.memory symbols := by
        intro e he
        exact Expr.evaluates (Memory.agrees_member hagree he) (hclean e he)
      refine (print_settles hvalues).permits.mono fun t ht => ?_
      show t.memory.Matches G names
      rw [ht]
      exact hs
  | ret line e =>
      obtain ⟨t, -, -, heval⟩ := Expr.evaluates hagree hclean
      exact (heval.mono fun _ _ => trivial).permits
  | branch line test yes no =>
      obtain ⟨testLine, op, l, r, rfl⟩ := Expr.isCompare_iff.mp htest
      obtain ⟨hscope, htestClean, -⟩ := h.yes
      exact holds_settles hlike hscope htestClean hs
  | loop line test body =>
      obtain ⟨testLine, op, l, r, rfl⟩ := Expr.isCompare_iff.mp htest
      obtain ⟨hscope, htestClean, -⟩ := h.loop
      exact holds_settles hlike hscope htestClean hs
  | count line var range body =>
      simp only [checkStmt, Checked.andThen, List.append_eq_nil_iff] at hclean
      obtain ⟨-, hnames⟩ := List.forall_mem_cons.mp hagree
      obtain ⟨hbounds, -⟩ := List.forall_mem_append.mp hnames
      refine ⟨(evaluateRange_settles hbounds hclean.1).permits, fun i => ?_⟩
      exact hs.assign (Value.Fits.alike (.int _) h.count.1)
  | block | break_ | continue_ => trivial

end Stmt.Stable

end

/-! ## Whole runs -/

/-- **Stable types hold on every run.** Let the checker start with the types `G`,
report nothing and record only types like those of `G`. Then a run that starts
with values of these types has such values in every state it comes to, also if
it is cut off, and its faults are permitted ones of the statements that it comes
to, which crash nowhere but at products for which there is no room. -/
theorem stable_run (budget : Nat) {p : Program} {G : String → Ty}
    {symbols : Symbols} {m : Memory}
    (htests : ∀ stmt ∈ Stmt.partsAll p, stmt.testsComparison = true)
    (hsymbols : ∀ x ∈ Stmt.namesAll p, symbols.get? x = some (some (G x)))
    (hclean : (checkFrom symbols p).reports = [])
    (hrecords : RecordsLike G (Stmt.recordsAll symbols p))
    (hm : m.Matches G (Stmt.namesAll p)) :
    (∀ stmt t, Visits budget (.block 0 p) ⟨m, .empty⟩ stmt t →
      t.memory.Matches G (Stmt.namesAll p))
    ∧ (runFrom budget m p).Safe (fun t => t.memory.Matches G (Stmt.namesAll p))
        (Blamed Stmt.MayHalt budget (.block 0 p) ⟨m, .empty⟩) := by
  have hstable : (Stmt.block 0 p).Stable G (Stmt.namesAll p) false symbols :=
    ⟨fun x hx => ⟨G x, hsymbols x hx, .refl _⟩, fun _ hx => hx, hclean, hrecords⟩
  have hkeeps : ∀ part ∈ (Stmt.block 0 p).parts,
      part.Keeps (fun s => s.memory.Matches G (Stmt.namesAll p)) Stmt.MayHalt := by
    intro part hpart
    obtain ⟨inLoop, before, hpartStable⟩ := hstable.part part hpart
    refine hpartStable.keeps ?_
    rcases List.mem_cons.mp hpart with rfl | hpart
    · rfl
    · exact htests part hpart
  refine ⟨fun stmt t hvisit => hvisit.invariant hkeeps hm, ?_⟩
  have hsafe := execute_safe budget hkeeps (s := ⟨m, .empty⟩) hm
  simp only [execute] at hsafe
  exact hsafe

namespace Sample

/-- `while (x < 100) { x *= 2.5; v = v + v; for i = 0:x { v[0] = i;
if (i > 9) break; } }`: a number that is an integer on the first round and a
float afterwards, and a vector that is doubled, and written in a loop inside the
loop. -/
def growing : Program :=
  [.loop 1 (.compare 1 .lt (.read 1 (.var "x")) (.int 1 100)) (.block 1 [
    .assign 1 .mul (.var "x") (.float 1 2.5),
    .assign 1 .set (.var "v")
      (.binary 1 .add (.read 1 (.var "v")) (.read 1 (.var "v"))),
    .count 1 "i" ⟨1, .int 1 0, .read 1 (.var "x")⟩ (.block 1 [
      .assign 1 .set (.item "v" 0) (.read 1 (.var "i")),
      .branch 1 (.compare 1 .gt (.read 1 (.var "i")) (.int 1 9))
        (.break_ 1) none])])]

def growingTypes (x : String) : Ty := if x = "v" then .vector 2 else .int

def growingSymbols : Symbols :=
  ((Symbols.initial.define "x" (some .int)).define "i" (some .int)).define "v"
    (some (.vector 2))

def growingMemory : Memory :=
  ((Memory.initial.define "x" (.int 5)).define "i" (.int 0)).define "v"
    (.tensor (Tensor.ofNumbers [.int 1, .int 2]))

theorem growingMemory_matches :
    growingMemory.Matches growingTypes (Stmt.namesAll growing) := by
  have hnames : ∀ x ∈ Stmt.namesAll growing, x = "x" ∨ x = "v" ∨ x = "i" := by
    decide +kernel
  intro x hx
  rcases hnames x hx with rfl | rfl | rfl
  · exact ⟨.int 5, rfl, .int 5⟩
  · exact ⟨.tensor (Tensor.ofNumbers [.int 1, .int 2]), rfl, .vector rfl⟩
  · exact ⟨.int 0, rfl, .int 0⟩

end Sample

open Sample in
theorem stable_run_growing :
    growingMemory.Matches growingTypes (Stmt.namesAll growing)
      ∧ (runFrom 7 growingMemory growing).Safe
          (fun t => t.memory.Matches growingTypes (Stmt.namesAll growing))
          (Blamed Stmt.MayHalt 7 (.block 0 growing) ⟨growingMemory, .empty⟩) := by
  have htests : ∀ stmt ∈ Stmt.partsAll growing, stmt.testsComparison = true := by
    decide +kernel
  have hsymbols : ∀ x ∈ Stmt.namesAll growing,
      growingSymbols.get? x = some (some (growingTypes x)) := by decide +kernel
  have hclean : (checkFrom growingSymbols growing).reports = [] :=
    List.isEmpty_iff.mp (by decide +kernel)
  have hrecords :
      RecordsLike growingTypes (Stmt.recordsAll growingSymbols growing) := by
    decide +kernel
  exact ⟨growingMemory_matches, (stable_run 7 htests hsymbols hclean hrecords
    growingMemory_matches).2⟩

namespace Sample

/-- `return A * B;` -/
def crowded : Program :=
  [.ret 1 (.binary 1 .mul (.read 1 (.var "A")) (.read 1 (.var "B")))]

def crowdedTypes (x : String) : Ty :=
  if x = "A" then .matrix 1073741824 0 else .matrix 0 1073741824

def crowdedSymbols : Symbols :=
  (Symbols.initial.define "A" (some (.matrix 1073741824 0))).define "B"
    (some (.matrix 0 1073741824))

def crowdedMemory : Memory :=
  (Memory.initial.define "A" (.tensor (.zeros 1073741824 0))).define "B"
    (.tensor (.zeros 0 1073741824))

theorem crowdedMemory_matches :
    crowdedMemory.Matches crowdedTypes (Stmt.namesAll crowded) := by
  have hnames : ∀ x ∈ Stmt.namesAll crowded, x = "A" ∨ x = "B" := by decide +kernel
  intro x hx
  rcases hnames x hx with rfl | rfl
  · exact ⟨.tensor (.zeros 1073741824 0), rfl, .matrix rfl⟩
  · exact ⟨.tensor (.zeros 0 1073741824), rfl, .matrix rfl⟩

end Sample

open Sample in
/-- Stable types, and a crash. -/
theorem stable_run_noRoom :
    (∀ stmt ∈ Stmt.partsAll crowded, stmt.testsComparison = true)
      ∧ (∀ x ∈ Stmt.namesAll crowded, crowdedSymbols.get? x = some (some (crowdedTypes x)))
      ∧ (checkFrom crowdedSymbols crowded).reports = []
      ∧ RecordsLike crowdedTypes (Stmt.recordsAll crowdedSymbols crowded)
      ∧ crowdedMemory.Matches crowdedTypes (Stmt.namesAll crowded)
      ∧ runFrom 0 crowdedMemory crowded
        = .halted (.crash .noRoom) ⟨crowdedMemory, .empty⟩ :=
  ⟨by decide +kernel, by decide +kernel, List.isEmpty_iff.mp (by decide +kernel),
    by decide +kernel, crowdedMemory_matches, rfl⟩

end MatrixLang
