import MatrixLang.Proofs.Run.Visits
import MatrixLang.Proofs.Scopes
import MatrixLang.Proofs.Typing.Tables

/-!
# Names without a value

Which names the checker reports as undefined can be read off the text alone. The
walk through a tree comes to names in a fixed order (`Stmt.mentions`): it uses
them, in an expression or as the target of an assignment that needs a value to
start from, and it defines them, in a plain assignment or as the variable of a
`for` loop. A use is reported unless the name was there at the start or a
definition of it came before (`undefinedUses`).

What an expression reports of undefined names depends on the symbols alone
(`infer_undefined`). The induction on statements carries which names the symbols
have: those of the start and those that were defined on the way
(`Symbols.After`). Types do not matter to either, and neither does what else is
wrong: `check_undefined` has no condition on them.
-/

namespace MatrixLang

/-! ## Uses and definitions -/

namespace Expr

mutual

/-- Where an expression uses a variable, in the order of the walk: the line and the
name. -/
def uses : Expr → List (Nat × String)
  | .int _ _ | .float _ _ | .str _ _ | .construct _ _ _ => []
  | .read line p => [(line, p.name)]
  | .binary _ _ l r | .compare _ _ l r => l.uses ++ r.uses
  | .vector _ es | .matrix _ es => usesAll es
  | .neg _ e | .transpose _ e => e.uses

def usesAll : List Expr → List (Nat × String)
  | [] => []
  | e :: rest => e.uses ++ usesAll rest

end

end Expr

/-- What the walk through a program does with a name. -/
inductive Mention where
  | use (line : Nat) (name : String)
  | definition (name : String)
deriving DecidableEq

/-- An element and a variable that is assigned to in parts have to be there
before. -/
def Place.mention (line : Nat) (op : AssignOp) : Place → Mention
  | .var name => if op = .set then .definition name else .use line name
  | p => .use line p.name

def usesOf (us : List (Nat × String)) : List Mention :=
  us.map fun u => .use u.1 u.2

namespace Stmt

mutual

/-- What the walk through a statement does with names, in order: the value before
the target, the bounds before the variable of a loop, a condition before the
branches. -/
def mentions : Stmt → List Mention
  | .block _ body => mentionsAll body
  | .assign line op p e => usesOf e.uses ++ [p.mention line op]
  | .branch _ test yes none => usesOf test.uses ++ yes.mentions
  | .branch _ test yes (some no) => usesOf test.uses ++ yes.mentions ++ no.mentions
  | .loop _ test body => usesOf test.uses ++ body.mentions
  | .count _ var r body =>
      usesOf (r.start.uses ++ r.stop.uses) ++ [.definition var] ++ body.mentions
  | .break_ _ | .continue_ _ => []
  | .ret _ e => usesOf e.uses
  | .print _ es => usesOf (Expr.usesAll es)

def mentionsAll : List Stmt → List Mention
  | [] => []
  | s :: rest => s.mentions ++ mentionsAll rest

end

end Stmt

/-- A name has a value from the start, or from a definition. -/
def Symbols.Binds (start : Symbols) (before : List Mention) (name : String) : Prop :=
  (start.get? name).isSome = true ∨ .definition name ∈ before

instance (start : Symbols) (before : List Mention) (name : String) :
    Decidable (start.Binds before name) :=
  inferInstanceAs (Decidable (_ ∨ _))

/-- The report of a mention, before which there were others. -/
def Mention.report? (start : Symbols) (before : List Mention) : Mention → Option Diagnostic
  | .use line name =>
      if start.Binds before name then none
      else some ((Problem.undefinedVariable name).onLine line)
  | .definition _ => none

/-- The reports of the mentions that follow upon those in `before`. -/
def undefinedUses (start : Symbols) (before : List Mention) :
    List Mention → List Diagnostic
  | [] => []
  | m :: rest =>
      (m.report? start before).toList ++ undefinedUses start (before ++ [m]) rest

/-! ## The reports of undefined names -/

def undefined (ds : List Diagnostic) : List Diagnostic :=
  ds.filter fun d => d.code = .undefinedVariable

@[simp] theorem undefined_nil : undefined [] = [] := rfl

@[simp] theorem undefined_append (ds es : List Diagnostic) :
    undefined (ds ++ es) = undefined ds ++ undefined es :=
  List.filter_append ..

theorem undefined_one {p : Problem} (h : p.code ≠ .undefinedVariable) (line : Nat) :
    undefined [p.onLine line] = [] := by
  have hcode : (p.onLine line).code ≠ .undefinedVariable := h
  simp [undefined, hcode]

theorem Ty.binary_defined {op : BinaryOp} {t u : Ty} {p : Problem}
    (h : Ty.binary op t u = .error p) : p.code ≠ .undefinedVariable := by
  unfold Ty.binary at h
  split at h
  · cases h
    exact nofun
  · rcases applyRule_code h with hcode | hcode <;> rw [hcode] <;> exact nofun

theorem Ty.compound_defined {op : AssignOp} {t u : Ty} {p : Problem}
    (h : Ty.compound op t u = .error p) : p.code ≠ .undefinedVariable := by
  unfold Ty.compound at h
  split at h
  · cases h
  · split at h
    · cases h
      exact nofun
    · rcases applyRule_code h with hcode | hcode <;> rw [hcode] <;> exact nofun

theorem boundsReport_undefined (i : Int64) (size : Nat) (place : BoundsProblem)
    (line : Nat) : undefined (boundsReport i size place line) = [] := by
  unfold boundsReport
  split <;> rfl

theorem itemReport_undefined (line i : Nat) (t : Option Ty) :
    undefined (itemReport line i t) = [] := by
  unfold itemReport
  split
  · split <;> rfl
  · rfl

theorem boundReport_undefined (line : Nat) (bound : RangeEnd) (t : Option Ty) :
    undefined (boundReport line bound t) = [] := by
  unfold boundReport
  split
  · split <;> rfl
  · rfl

theorem compareReports_undefined (line : Nat) (op : Relation) (t u : Option Ty) :
    undefined (compareReports line op t u) = [] := by
  unfold compareReports
  split
  · split <;> rfl
  · rfl

theorem raggedReport_undefined (line : Nat) (rows : List Expr) :
    undefined (raggedReport line rows) = [] := by
  unfold raggedReport
  simp only
  split <;> rfl

theorem constructType_undefined (line : Nat) (f : Constructor) (dims : Dims) :
    undefined (constructType line f dims).reports = [] := by
  simp only [constructType]
  split <;> rfl

theorem negType_undefined (line : Nat) (t : Ty) :
    undefined (negType line t).reports = [] := by
  unfold negType
  split <;> rfl

theorem transposeType_undefined (line : Nat) (t : Ty) :
    undefined (transposeType line t).reports = [] := by
  unfold transposeType
  split <;> rfl

theorem ofExcept_undefined (line : Nat) (op : BinaryOp) (t u : Ty) :
    undefined (Judgement.ofExcept line (Ty.binary op t u)).reports = [] := by
  cases h : Ty.binary op t u with
  | ok r => rfl
  | error p => exact undefined_one (Ty.binary_defined h) line

theorem Judgement.bind_undefined {j : Judgement} {next : Ty → Judgement}
    (h : ∀ t, undefined (next t).reports = []) :
    undefined (j.bind next).reports = undefined j.reports := by
  unfold bind
  split
  · rfl
  · rw [undefined_append, h, List.append_nil]

theorem Judgement.bind₂_undefined {l r : Judgement} {next : Ty → Ty → Judgement}
    (h : ∀ t u, undefined (next t u).reports = []) :
    undefined (l.bind₂ r next).reports = undefined l.reports ++ undefined r.reports := by
  unfold bind₂
  split
  · rw [undefined_append, undefined_append, h, List.append_nil]
  · exact undefined_append _ _

/-! ## Expressions -/

variable {symbols start : Symbols}

/-- The reports of the uses of names that the symbols do not have. -/
def Symbols.missing (symbols : Symbols) (us : List (Nat × String)) : List Diagnostic :=
  (us.filter fun u => (symbols.get? u.2).isNone).map
    fun u => (Problem.undefinedVariable u.2).onLine u.1

@[simp] theorem Symbols.missing_append (us vs : List (Nat × String)) :
    symbols.missing (us ++ vs) = symbols.missing us ++ symbols.missing vs := by
  simp [missing]

theorem itemType_undefined (line : Nat) (name : String) (i : Int64) (t : Ty) :
    undefined (itemType line name i t).reports = [] := by
  unfold itemType
  split
  · exact boundsReport_undefined ..
  · rfl
  · exact boundsReport_undefined ..
  · rfl
  · rfl

theorem cellType_undefined (line : Nat) (name : String) (i j : Int64) (t : Ty) :
    undefined (cellType line name i j t).reports = [] := by
  unfold cellType
  split
  · rw [undefined_append, boundsReport_undefined, boundsReport_undefined, List.append_nil]
  · rfl
  · rfl

/-- A place is a use of its name, and whatever its type is, nothing else is reported of
the name. -/
theorem placeType_undefined (line : Nat) (p : Place) :
    undefined (placeType symbols line p).reports = symbols.missing [(line, p.name)] := by
  unfold placeType
  split
  · rename_i hnone
    simp [Symbols.missing, hnone]
    rfl
  · rename_i hs
    simp [Symbols.missing, hs]
  · rename_i t hs
    have hthere : symbols.missing [(line, p.name)] = [] := by simp [Symbols.missing, hs]
    rw [hthere]
    cases p with
    | var name => rfl
    | item name i => exact itemType_undefined line name i t
    | cell name i j => exact cellType_undefined line name i j t

theorem itemReports_undefined {items : List Expr}
    (h : ∀ e ∈ items, undefined (infer symbols e).reports = symbols.missing e.uses)
    (i : Nat) :
    undefined (itemReports symbols i items) = symbols.missing (Expr.usesAll items) := by
  induction items generalizing i with
  | nil => rfl
  | cons e rest ih =>
      obtain ⟨he, hrest⟩ := List.forall_mem_cons.mp h
      simp only [itemReports, undefined_append, he, itemReport_undefined, ih hrest,
        List.append_nil, Expr.usesAll, Symbols.missing_append]

/-- Rows that are vector literals are walked through like any other. -/
theorem rowReports_undefined {rows : List Expr} (hrows : ∀ e ∈ rows, e.isVector = true)
    (h : ∀ e ∈ rows, undefined (infer symbols e).reports = symbols.missing e.uses)
    (line i : Nat) :
    undefined (rowReports symbols line i rows) = symbols.missing (Expr.usesAll rows) := by
  induction rows generalizing i with
  | nil => rfl
  | cons row rest ih =>
      obtain ⟨hvector, hvectors⟩ := List.forall_mem_cons.mp hrows
      obtain ⟨hrow, hrest⟩ := List.forall_mem_cons.mp h
      have hhere : undefined (rowReport symbols line i row) = symbols.missing row.uses := by
        cases row with
        | vector l items => simpa only [rowReport, infer] using hrow
        | _ => cases hvector
      simp only [rowReports, undefined_append, hhere, ih hvectors hrest, Expr.usesAll,
        Symbols.missing_append]

theorem infer_undefined {e : Expr} (hrows : e.vectorRows = true) :
    undefined (infer symbols e).reports = symbols.missing e.uses := by
  induction e with
  | int | float | str => rfl
  | read line p => exact placeType_undefined line p
  | binary line op l r ihl ihr =>
      obtain ⟨hl, hr⟩ := Bool.and_eq_true_iff.mp hrows
      simp only [infer, Expr.uses, Symbols.missing_append, ← ihl hl, ← ihr hr]
      exact Judgement.bind₂_undefined fun t u => ofExcept_undefined line op t u
  | compare line op l r ihl ihr =>
      obtain ⟨hl, hr⟩ := Bool.and_eq_true_iff.mp hrows
      simp only [infer, undefined_append, ihl hl, ihr hr, compareReports_undefined,
        List.append_nil, Expr.uses, Symbols.missing_append]
  | vector line items ih =>
      refine itemReports_undefined (fun e he => ih e he ?_) 0
      exact Expr.vectorRowsAll_iff.mp hrows e he
  | matrix line rows ih =>
      obtain ⟨hvectors, hall⟩ := Expr.vectorRows_matrix.mp hrows
      have hitems := rowReports_undefined hvectors (fun e he => ih e he (hall e he)) line 0
      simp only [infer, undefined_append, hitems, raggedReport_undefined, List.append_nil,
        Expr.uses]
  | construct line f dims => exact constructType_undefined line f dims
  | neg line e ih =>
      simp only [infer, Expr.uses, ← ih hrows]
      exact Judgement.bind_undefined (negType_undefined line)
  | transpose line e ih =>
      simp only [infer, Expr.uses, ← ih hrows]
      exact Judgement.bind_undefined (transposeType_undefined line)

/-! ## Which names the symbols have -/

/-- The symbols have the names that were there at the start and those that were
defined on the way. -/
def Symbols.After (start : Symbols) (before : List Mention) (symbols : Symbols) : Prop :=
  ∀ name, (symbols.get? name).isSome = true ↔ start.Binds before name

namespace Symbols.After

variable {before : List Mention}

theorem here : symbols.After [] symbols := by
  simp [After, Binds]

theorem use (h : start.After before symbols) (line : Nat) (name : String) :
    start.After (before ++ [.use line name]) symbols := by
  intro x
  simp [h x, Binds]

theorem uses (h : start.After before symbols) (us : List (Nat × String)) :
    start.After (before ++ usesOf us) symbols := by
  intro x
  simp [h x, Binds, usesOf]

theorem definition (h : start.After before symbols) (name : String) (ty : Option Ty) :
    start.After (before ++ [.definition name]) (symbols.define name ty) := by
  intro x
  rw [Scopes.get?_define]
  by_cases hx : name = x
  · simp [hx, Binds]
  · simp [hx, Ne.symm hx, h x, Binds]

/-- A name that is there can be given another type. -/
theorem again (h : start.After before symbols) {name : String}
    (hname : (symbols.get? name).isSome = true) (ty : Option Ty) :
    start.After before (symbols.define name ty) := by
  intro x
  rw [← h x, Scopes.get?_define]
  by_cases hx : name = x
  · subst hx
    simp [hname]
  · rw [if_neg hx]

/-- So what an expression reports are its uses without a definition. -/
theorem missing (h : start.After before symbols) (us : List (Nat × String)) :
    symbols.missing us = undefinedUses start before (usesOf us) := by
  induction us generalizing before with
  | nil => rfl
  | cons u rest ih =>
      have hrest := ih (h.use u.1 u.2)
      have hu : symbols.missing [u]
          = (Mention.report? start before (.use u.1 u.2)).toList := by
        by_cases hbound : start.Binds before u.2
        · have hsome := (h u.2).mpr hbound
          simp [Symbols.missing, Mention.report?, hbound, Option.isSome_iff_ne_none.mp hsome]
        · have hnone : symbols.get? u.2 = none := by
            simpa using mt (h u.2).mp hbound
          simp [Symbols.missing, Mention.report?, hbound, hnone]
      calc symbols.missing (u :: rest)
          = symbols.missing [u] ++ symbols.missing rest := Symbols.missing_append [u] rest
        _ = undefinedUses start before (usesOf (u :: rest)) := by rw [hu, hrest]; rfl

end Symbols.After

theorem undefinedUses_append (before l k : List Mention) :
    undefinedUses start before (l ++ k)
      = undefinedUses start before l ++ undefinedUses start (before ++ l) k := by
  induction l generalizing before with
  | nil => simp [undefinedUses]
  | cons m rest ih =>
      simp only [List.cons_append, undefinedUses, ih, List.append_assoc, List.nil_append]

/-! ## Statements -/

/-- A part of the walk that does `ms` with names: its reports and the symbols
after it. -/
structure Checked.Follows (start : Symbols) (before ms : List Mention) (c : Checked) :
    Prop where
  reports : undefined c.reports = undefinedUses start before ms
  symbols : start.After (before ++ ms) c.symbols

namespace Checked.Follows

variable {before ms ns : List Mention}

theorem andThen {c : Checked} {next : Symbols → Checked} (hc : c.Follows start before ms)
    (hnext : ∀ s, start.After (before ++ ms) s →
      (next s).Follows start (before ++ ms) ns) :
    (c.andThen next).Follows start before (ms ++ ns) where
  reports := by
    rw [undefinedUses_append, ← hc.reports, ← (hnext _ hc.symbols).reports]
    exact undefined_append _ _
  symbols := by
    rw [← List.append_assoc]
    exact (hnext _ hc.symbols).symbols

theorem definition {c : Checked} (hc : c.Follows start before ms) (name : String)
    (ty : Option Ty) :
    Checked.Follows start before (ms ++ [.definition name])
      ⟨c.symbols.define name ty, c.reports⟩ where
  reports := by
    rw [undefinedUses_append, hc.reports]
    exact (List.append_nil _).symm
  symbols := by
    rw [← List.append_assoc]
    exact hc.symbols.definition name ty

theorem quiet (h : start.After before symbols) {ds : List Diagnostic}
    (hds : undefined ds = []) : Checked.Follows start before [] ⟨symbols, ds⟩ :=
  ⟨hds, by rwa [List.append_nil]⟩

theorem uses (h : start.After before symbols) {ds : List Diagnostic}
    {us : List (Nat × String)} (hds : undefined ds = symbols.missing us) :
    Checked.Follows start before (usesOf us) ⟨symbols, ds⟩ :=
  ⟨hds.trans (h.missing us), h.uses us⟩

theorem judged (h : start.After before symbols) {e : Expr} (hrows : e.vectorRows = true) :
    Checked.Follows start before (usesOf e.uses) ⟨symbols, (infer symbols e).reports⟩ :=
  .uses h (infer_undefined hrows)

end Checked.Follows

theorem checkVariable_follows {before : List Mention} (h : start.After before symbols)
    (line : Nat) {op : AssignOp} (hop : op ≠ .set) (name : String) (value : Option Ty) :
    (checkVariable symbols line op name value).Follows start before [.use line name] := by
  have hthere : (symbols.get? name).isSome = true → ∀ (s : Symbols) (ds : List Diagnostic),
      undefined ds = [] → start.After before s →
      Checked.Follows start before [.use line name] ⟨s, ds⟩ := by
    intro hsome s ds hds hs
    refine ⟨hds.trans ?_, hs.use line name⟩
    simp [undefinedUses, Mention.report?, (h name).mp hsome]
  simp only [checkVariable, if_neg hop]
  cases hname : symbols.get? name with
  | none =>
      have hmissing : undefined [(Problem.undefinedVariable name).onLine line]
          = symbols.missing [(line, name)] := by
        simp [Symbols.missing, hname]
        rfl
      exact .uses h hmissing
  | some target =>
      have hsome : (symbols.get? name).isSome = true := by rw [hname]; rfl
      simp only
      split
      · split
        · exact hthere hsome _ _ rfl (h.again hsome _)
        · rename_i problem hproblem
          exact hthere hsome _ _ (undefined_one (Ty.compound_defined hproblem) line) h
      · exact hthere hsome _ _ rfl h

theorem checkAssign_follows {before : List Mention} (h : start.After before symbols)
    (line : Nat) (op : AssignOp) (p : Place) (value : Option Ty) :
    (checkAssign symbols line op p value).Follows start before [p.mention line op] := by
  cases p with
  | var name =>
      by_cases hop : op = .set
      · subst hop
        exact ⟨rfl, h.definition name value⟩
      · simp only [checkAssign, Place.mention, if_neg hop]
        exact checkVariable_follows h line hop name value
  | item name i => exact .uses h (placeType_undefined line (.item name i))
  | cell name i j => exact .uses h (placeType_undefined line (.cell name i j))

theorem rangeReports_undefined {r : Range} (hstart : r.start.vectorRows = true)
    (hstop : r.stop.vectorRows = true) :
    undefined (rangeReports symbols r) = symbols.missing (r.start.uses ++ r.stop.uses) := by
  simp only [rangeReports, undefined_append, infer_undefined hstart, infer_undefined hstop,
    boundReport_undefined, List.append_nil, Symbols.missing_append]

theorem values_undefined {values : List Expr} (hrows : ∀ e ∈ values, e.vectorRows = true) :
    undefined (values.flatMap fun e => (infer symbols e).reports)
      = symbols.missing (Expr.usesAll values) := by
  induction values with
  | nil => rfl
  | cons e rest ih =>
      obtain ⟨he, hrest⟩ := List.forall_mem_cons.mp hrows
      simp only [List.flatMap_cons, undefined_append, infer_undefined he, ih hrest,
        Expr.usesAll, Symbols.missing_append]

theorem checkStmts_follows {inLoop : Bool} {body : List Stmt}
    (hbody : ∀ stmt ∈ body, ∀ (before : List Mention) (symbols : Symbols),
      start.After before symbols →
      (checkStmt inLoop symbols stmt).Follows start before stmt.mentions)
    (before : List Mention) (symbols : Symbols) (h : start.After before symbols) :
    (checkStmts inLoop symbols body).Follows start before (Stmt.mentionsAll body) := by
  induction body generalizing before symbols with
  | nil => exact .quiet h rfl
  | cons stmt rest ih =>
      obtain ⟨hstmt, hrest⟩ := List.forall_mem_cons.mp hbody
      exact (hstmt before symbols h).andThen fun s hs => ih hrest _ s hs

theorem checkStmt_follows {stmt : Stmt}
    (hrows : stmt.All fun part => ∀ e ∈ part.exprs, e.vectorRows = true) (inLoop : Bool)
    (before : List Mention) (symbols : Symbols) (h : start.After before symbols) :
    (checkStmt inLoop symbols stmt).Follows start before stmt.mentions := by
  have hself := hrows.self
  induction stmt generalizing inLoop before symbols with
  | block line body ih =>
      refine checkStmts_follows (fun stmt hstmt before symbols h => ?_) before symbols h
      have hmember := hrows.member hstmt
      exact ih stmt hstmt hmember inLoop before symbols h hmember.self
  | assign line op p e =>
      have hvalue := Checked.Follows.judged h (hself e List.mem_cons_self)
      exact hvalue.andThen fun s hs => checkAssign_follows hs line op p _
  | branch line test yes no ihYes ihNo =>
      have htest := Checked.Follows.judged h (hself test List.mem_cons_self)
      have hthen := htest.andThen fun s hs =>
        ihYes hrows.yes inLoop _ s hs hrows.yes.self
      cases no with
      | none => exact hthen
      | some no =>
          exact hthen.andThen fun s hs => ihNo no rfl hrows.no inLoop _ s hs hrows.no.self
  | loop line test body ih =>
      have htest := Checked.Follows.judged h (hself test List.mem_cons_self)
      exact htest.andThen fun s hs => ih hrows.loop true _ s hs hrows.loop.self
  | count line var range body ih =>
      obtain ⟨hstart, hstop⟩ := List.forall_mem_cons.mp hself
      have hbounds : undefined (rangeReports symbols range)
          = symbols.missing (range.start.uses ++ range.stop.uses) :=
        rangeReports_undefined hstart (hstop _ List.mem_cons_self)
      have hheader := (Checked.Follows.uses h hbounds).definition var (some .int)
      exact hheader.andThen fun s hs => ih hrows.count true _ s hs hrows.count.self
  | break_ line | continue_ line => exact .quiet h (by cases inLoop <;> rfl)
  | ret line e => exact .judged h (hself e List.mem_cons_self)
  | print line values => exact .uses h (values_undefined hself)

/-- **Undefined names are reported by definition before use.** From whatever
symbols the checker starts, its reports of undefined names are, in the order of the
walk, those of the uses that no definition of the name comes before and whose name
was not there at the start. -/
theorem check_undefined {p : Program}
    (hrows : ∀ stmt ∈ Stmt.partsAll p, ∀ e ∈ stmt.exprs, e.vectorRows = true)
    (symbols : Symbols) :
    undefined (checkFrom symbols p).reports
      = undefinedUses symbols [] (Stmt.mentionsAll p) := by
  have hfollows : (checkFrom symbols p).Follows symbols [] (Stmt.mentionsAll p) := by
    refine checkStmts_follows (fun stmt hstmt before t ht => ?_) [] symbols .here
    exact checkStmt_follows (Stmt.all_of_partsAll hrows hstmt) false before t ht
  exact hfollows.reports

namespace Sample

/-- `x += -y; for i = i:n v[0] = i; if ("a" < i) y = [[x]]; else print y, n[1];` -/
def scattered : Program :=
  [.assign 1 .add (.var "x") (.neg 1 (.read 1 (.var "y"))),
    .count 2 "i" ⟨2, .read 2 (.var "i"), .read 2 (.var "n")⟩
      (.assign 2 .set (.item "v" 0) (.read 2 (.var "i"))),
    .branch 3 (.compare 3 .lt (.str 3 "a") (.read 3 (.var "i")))
      (.assign 3 .set (.var "y") (.matrix 3 [.vector 3 [.read 3 (.var "x")]]))
      (some (.print 4 [.read 4 (.var "y"), .read 4 (.item "n" 1)]))]

end Sample

open Sample in
/-- The target of `x += -y` is used, not defined, so `x` is reported twice; `y` is
defined in the branch that stands first. -/
theorem check_undefined_scattered :
    (∀ stmt ∈ Stmt.partsAll scattered, ∀ e ∈ stmt.exprs, e.vectorRows = true)
      ∧ undefined (checkFrom (Symbols.initial.define "n" (some .int)) scattered).reports
        = [(1, "y"), (1, "x"), (2, "i"), (2, "v"), (3, "x")].map
            fun u => (Problem.undefinedVariable u.2).onLine u.1 := by
  have hrows : ∀ stmt ∈ Stmt.partsAll scattered, ∀ e ∈ stmt.exprs,
      e.vectorRows = true := by decide +kernel
  exact ⟨hrows, (check_undefined hrows _).trans (by decide +kernel)⟩

end MatrixLang
