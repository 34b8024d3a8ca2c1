import MatrixLang.Proofs.Run.Visits
import MatrixLang.Proofs.Scopes
import MatrixLang.Typing.Check

/-!
# Forgetting types

A missing type silences what would be reported against it, and nothing else. So
the checker that remembers less never reports more: with some types forgotten in
its symbols, its reports are some of those that it would have made, in the same
order, and everything gets the type that it would have got, or none
(`check_forgetting`).

Two runs are compared, and `Forgets` is the relation between their symbols, their
judgements and their states; each construct of the checker keeps it. An operator
does because it goes on only from types that are there (`Judgement.Forgets.bind₂`),
a comparison or a literal because its own type does not depend on its parts. A
compound assignment does not: it leaves the old type where the new one is missing.
-/

namespace MatrixLang

/-! ## The relation -/

/-- The same type, or none. -/
def Forgotten (t t' : Option Ty) : Prop := t' = t ∨ t' = none

/-- The second table has the names of the first and the same types, but for some
that are missing. -/
def Symbols.Forgets (s s' : Symbols) : Prop :=
  ∀ x, s'.get? x = s.get? x ∨ (s.get? x).isSome = true ∧ s'.get? x = some none

/-- The second judgement reports a part of the first, and has its type or none. -/
structure Judgement.Forgets (j j' : Judgement) : Prop where
  ty : Forgotten j.ty j'.ty
  reports : j'.reports.Sublist j.reports

structure Checked.Forgets (c c' : Checked) : Prop where
  symbols : c.symbols.Forgets c'.symbols
  reports : c'.reports.Sublist c.reports

namespace Forgotten

variable {t t' u u' : Option Ty}

theorem refl (t : Option Ty) : Forgotten t t := .inl rfl

/-- What is reported against a type is not reported against a missing one. -/
theorem sublist {f : Option Ty → List Diagnostic} (h : Forgotten t t')
    (hnone : f none = []) : (f t').Sublist (f t) := by
  rcases h with rfl | rfl
  · exact .refl _
  · rw [hnone]
    exact List.nil_sublist _

theorem itemReport (h : Forgotten t t') (line i : Nat) :
    (MatrixLang.itemReport line i t').Sublist (MatrixLang.itemReport line i t) :=
  h.sublist rfl

theorem boundReport (h : Forgotten t t') (line : Nat) (bound : RangeEnd) :
    (MatrixLang.boundReport line bound t').Sublist (MatrixLang.boundReport line bound t) :=
  h.sublist rfl

theorem compareReports (ht : Forgotten t t') (hu : Forgotten u u') (line : Nat)
    (op : Relation) :
    (MatrixLang.compareReports line op t' u').Sublist
      (MatrixLang.compareReports line op t u) := by
  refine (ht.sublist (f := (MatrixLang.compareReports line op · u')) rfl).trans ?_
  exact hu.sublist (f := MatrixLang.compareReports line op t) (by cases t <;> rfl)

end Forgotten

theorem Symbols.Forgets.define {s s' : Symbols} {t t' : Option Ty} (h : s.Forgets s')
    (ht : Forgotten t t') (name : String) :
    Symbols.Forgets (s.define name t) (s'.define name t') := by
  intro x
  rw [Scopes.get?_define, Scopes.get?_define]
  by_cases hx : name = x
  · rw [if_pos hx, if_pos hx]
    rcases ht with rfl | rfl
    · exact .inl rfl
    · exact .inr ⟨rfl, rfl⟩
  · rw [if_neg hx, if_neg hx]
    exact h x

/-! ## Expressions -/

namespace Judgement.Forgets

variable {j j' k k' : Judgement}

theorem refl (j : Judgement) : j.Forgets j := ⟨.refl _, .refl _⟩

theorem silent (j : Judgement) : j.Forgets ⟨none, []⟩ :=
  ⟨.inr rfl, List.nil_sublist _⟩

theorem bind (h : j.Forgets j') (next : Ty → Judgement) :
    (j.bind next).Forgets (j'.bind next) := by
  obtain ⟨hty, hreports⟩ := h
  simp only [Judgement.bind]
  cases hj' : j'.ty with
  | none =>
      refine ⟨.inr hj', hreports.trans ?_⟩
      cases j.ty with
      | none => exact .refl _
      | some t => exact List.sublist_append_left _ _
  | some t =>
      rcases hty with heq | hnone
      · rw [← heq, hj']
        exact ⟨.refl _, hreports.append_right _⟩
      · rw [hnone] at hj'
        cases hj'

/-- An operator is held against its table only if both types are there. -/
theorem bind₂ (hj : j.Forgets j') (hk : k.Forgets k') (next : Ty → Ty → Judgement) :
    (j.bind₂ k next).Forgets (j'.bind₂ k' next) := by
  have hboth : (j'.reports ++ k'.reports).Sublist (j.reports ++ k.reports) :=
    hj.reports.append hk.reports
  have hfirst : (j.reports ++ k.reports).Sublist (j.bind₂ k next).reports := by
    simp only [Judgement.bind₂]
    split
    · exact List.sublist_append_left _ _
    · exact .refl _
  by_cases hthere : j'.ty = j.ty ∧ k'.ty = k.ty
  · obtain ⟨hty, hty'⟩ := hthere
    simp only [Judgement.bind₂, hty, hty']
    split
    · exact ⟨.refl _, hboth.append_right _⟩
    · exact ⟨.refl _, hboth⟩
  · have hsilent : j'.bind₂ k' next = ⟨none, j'.reports ++ k'.reports⟩ := by
      simp only [Judgement.bind₂]
      rcases hj.ty with heq | hnone
      · have hnone : k'.ty = none := hk.ty.resolve_left fun h => hthere ⟨heq, h⟩
        rw [hnone]
        cases j'.ty <;> rfl
      · rw [hnone]
    rw [hsilent]
    exact ⟨.inr rfl, hboth.trans hfirst⟩

end Judgement.Forgets

variable {s s' : Symbols}

theorem placeType_forgets (h : s.Forgets s') (line : Nat) (p : Place) :
    (placeType s line p).Forgets (placeType s' line p) := by
  rcases h p.name with heq | ⟨-, hnone⟩
  · simp only [placeType, heq]
    exact .refl _
  · simp only [placeType, hnone]
    exact .silent _

theorem itemReports_forgets {items : List Expr}
    (hitems : ∀ e ∈ items, (infer s e).Forgets (infer s' e)) (i : Nat) :
    (itemReports s' i items).Sublist (itemReports s i items) := by
  induction items generalizing i with
  | nil => exact .refl _
  | cons e rest ih =>
      obtain ⟨he, hrest⟩ := List.forall_mem_cons.mp hitems
      exact (he.reports.append (he.ty.itemReport e.line i)).append (ih hrest (i + 1))

/-- A row is judged as the vector literal that it is, or not looked into. -/
theorem rowReports_forgets {rows : List Expr}
    (hrows : ∀ e ∈ rows, (infer s e).Forgets (infer s' e)) (line i : Nat) :
    (rowReports s' line i rows).Sublist (rowReports s line i rows) := by
  induction rows generalizing i with
  | nil => exact .refl _
  | cons row rest ih =>
      obtain ⟨hrow, hrest⟩ := List.forall_mem_cons.mp hrows
      refine List.Sublist.append ?_ (ih hrest (i + 1))
      cases row with
      | vector l items => simpa only [rowReport, infer] using hrow.reports
      | _ => exact .refl _

theorem infer_forgets (h : s.Forgets s') (e : Expr) : (infer s e).Forgets (infer s' e) := by
  induction e with
  | int | float | str => exact .refl _
  | read line p => exact placeType_forgets h line p
  | binary line op l r ihl ihr => exact ihl.bind₂ ihr _
  | compare line op l r ihl ihr =>
      refine ⟨.refl _, ?_⟩
      exact (ihl.reports.append ihr.reports).append (ihl.ty.compareReports ihr.ty line op)
  | vector line items ih => exact ⟨.refl _, itemReports_forgets ih 0⟩
  | matrix line rows ih =>
      exact ⟨.refl _, (rowReports_forgets ih line 0).append_right _⟩
  | construct line f dims => exact .refl _
  | neg line e ih => exact ih.bind _
  | transpose line e ih => exact ih.bind _

theorem rangeReports_forgets (h : s.Forgets s') (r : Range) :
    (rangeReports s' r).Sublist (rangeReports s r) := by
  have hstart := infer_forgets h r.start
  have hstop := infer_forgets h r.stop
  exact ((hstart.reports.append hstop.reports).append
    (hstart.ty.boundReport r.line .start)).append (hstop.ty.boundReport r.line .stop)

theorem values_forgets (h : s.Forgets s') (values : List Expr) :
    (values.flatMap fun e => (infer s' e).reports).Sublist
      (values.flatMap fun e => (infer s e).reports) := by
  induction values with
  | nil => exact .refl _
  | cons e rest ih => exact (infer_forgets h e).reports.append ih

/-! ## Statements -/

def Stmt.isCompound : Stmt → Bool
  | .assign _ op _ _ => op ≠ .set
  | _ => false

theorem Checked.Forgets.andThen {c c' : Checked} {f f' : Symbols → Checked}
    (hc : c.Forgets c') (hf : ∀ s s' : Symbols, s.Forgets s' → (f s).Forgets (f' s')) :
    (c.andThen f).Forgets (c'.andThen f') :=
  ⟨(hf _ _ hc.symbols).symbols, hc.reports.append (hf _ _ hc.symbols).reports⟩

theorem Checked.Forgets.judged (h : s.Forgets s') (e : Expr) :
    Checked.Forgets ⟨s, (infer s e).reports⟩ ⟨s', (infer s' e).reports⟩ :=
  ⟨h, (infer_forgets h e).reports⟩

theorem checkAssign_forgets {t t' : Option Ty} (h : s.Forgets s')
    (ht : Forgotten t t') (line : Nat) (p : Place) :
    (checkAssign s line .set p t).Forgets (checkAssign s' line .set p t') := by
  cases p with
  | var name => exact ⟨h.define ht name, .refl _⟩
  | item name i => exact ⟨h, (placeType_forgets h line (.item name i)).reports⟩
  | cell name i j => exact ⟨h, (placeType_forgets h line (.cell name i j)).reports⟩

theorem checkStmts_forgets {inLoop : Bool} {body : List Stmt}
    (hbody : ∀ stmt ∈ body, ∀ s s' : Symbols, s.Forgets s' →
      (checkStmt inLoop s stmt).Forgets (checkStmt inLoop s' stmt)) (s s' : Symbols)
    (h : s.Forgets s') :
    (checkStmts inLoop s body).Forgets (checkStmts inLoop s' body) := by
  induction body generalizing s s' with
  | nil => exact ⟨h, .refl _⟩
  | cons stmt rest ih =>
      obtain ⟨hstmt, hrest⟩ := List.forall_mem_cons.mp hbody
      exact (hstmt s s' h).andThen fun t t' ht => ih hrest t t' ht

theorem checkStmt_forgets {stmt : Stmt} (hplain : stmt.All (·.isCompound = false))
    (inLoop : Bool) (s s' : Symbols) (h : s.Forgets s') :
    (checkStmt inLoop s stmt).Forgets (checkStmt inLoop s' stmt) := by
  induction stmt generalizing inLoop s s' with
  | block line body ih =>
      exact checkStmts_forgets
        (fun stmt hstmt s s' h => ih stmt hstmt (hplain.member hstmt) inLoop s s' h) s s' h
  | assign line op p e =>
      have hop : op = .set := by simpa [Stmt.isCompound] using hplain.self
      subst hop
      exact (Checked.Forgets.judged h e).andThen fun t t' ht =>
        checkAssign_forgets ht (infer_forgets h e).ty line p
  | branch line test yes no ihYes ihNo =>
      have hthen := (Checked.Forgets.judged h test).andThen fun t t' ht =>
        ihYes hplain.yes inLoop t t' ht
      cases no with
      | none => exact hthen
      | some no => exact hthen.andThen fun t t' ht => ihNo no rfl hplain.no inLoop t t' ht
  | loop line test body ih =>
      exact (Checked.Forgets.judged h test).andThen fun t t' ht => ih hplain.loop true t t' ht
  | count line var range body ih =>
      have hheader : Checked.Forgets ⟨s.define var (some .int), rangeReports s range⟩
          ⟨s'.define var (some .int), rangeReports s' range⟩ :=
        ⟨h.define (.refl _) var, rangeReports_forgets h range⟩
      exact hheader.andThen fun t t' ht => ih hplain.count true t t' ht
  | break_ line | continue_ line => exact ⟨h, .refl _⟩
  | ret line e => exact .judged h e
  | print line values => exact ⟨h, values_forgets h values⟩

/-- **Forgetting types never adds a report.** From symbols in which some types are
missing, the checker makes some of the reports that it makes from all of them, in
the same order, and every name ends with the type that it had there, or with
none. The same holds of each expression by itself. -/
theorem check_forgetting (h : s.Forgets s') {p : Program}
    (hplain : ∀ stmt ∈ Stmt.partsAll p, stmt.isCompound = false) :
    (checkFrom s' p).reports.Sublist (checkFrom s p).reports
      ∧ (checkFrom s p).symbols.Forgets (checkFrom s' p).symbols
      ∧ ∀ e, (infer s e).Forgets (infer s' e) := by
  have hp : (checkFrom s p).Forgets (checkFrom s' p) := by
    refine checkStmts_forgets (fun stmt hstmt => ?_) s s' h
    exact checkStmt_forgets (Stmt.all_of_partsAll hplain hstmt) false
  exact ⟨hp.reports, hp.symbols, infer_forgets h⟩

namespace Sample

/-- `y = x[5]; for i = 1:x { z = [y, -"a"]; } if (x < 1) x[0, 1] = i; else z = -z;` -/
def silenced : Program :=
  [.assign 1 .set (.var "y") (.read 1 (.item "x" 5)),
    .count 2 "i" ⟨2, .int 2 1, .read 2 (.var "x")⟩ (.block 2 [
      .assign 3 .set (.var "z")
        (.vector 3 [.read 3 (.var "y"), .neg 3 (.str 3 "a")])]),
    .branch 4 (.compare 4 .lt (.read 4 (.var "x")) (.int 4 1))
      (.assign 4 .set (.cell "x" 0 1) (.read 4 (.var "i")))
      (some (.assign 5 .set (.var "z") (.neg 5 (.read 5 (.var "z")))))]

/-- A vector, and the same name without its type. -/
def vectorKnown : Symbols := Symbols.initial.define "x" (some (.vector 3))

def vectorForgotten : Symbols := Symbols.initial.define "x" none

end Sample

open Sample in
/-- Of five reports the one that is not about the vector is left. -/
theorem check_forgetting_silenced :
    vectorKnown.Forgets vectorForgotten
      ∧ (∀ stmt ∈ Stmt.partsAll silenced, stmt.isCompound = false)
      ∧ (checkFrom vectorForgotten silenced).reports.Sublist
          (checkFrom vectorKnown silenced).reports
      ∧ (checkFrom vectorKnown silenced).symbols.Forgets
          (checkFrom vectorForgotten silenced).symbols
      ∧ (checkFrom vectorKnown silenced).reports.length = 5
      ∧ (checkFrom vectorForgotten silenced).reports.length = 1 := by
  have hforgets : vectorKnown.Forgets vectorForgotten :=
    Symbols.Forgets.define (fun x => .inl rfl) (.inr rfl) "x"
  have hplain : ∀ stmt ∈ Stmt.partsAll silenced, stmt.isCompound = false := by
    decide +kernel
  obtain ⟨hreports, hsymbols, -⟩ := check_forgetting hforgets hplain
  exact ⟨hforgets, hplain, hreports, hsymbols, by decide +kernel, by decide +kernel⟩

end MatrixLang
