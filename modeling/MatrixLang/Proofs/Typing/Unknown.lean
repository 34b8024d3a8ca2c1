import MatrixLang.Proofs.Blocks
import MatrixLang.Proofs.Scopes
import MatrixLang.Proofs.Typing.Evaluate

/-!
# Where missing types come from

Types go missing only after a report. `Passes` are the states that the checker goes
through on its way, its symbols together with all that it has reported so far; one
checker may be fed any number of programs. What was reported in such a state are the
first of the reports at the end (`Passes.reports_prefix`), and the types in its
symbols are accounted for (`Checked.Accounted`): their shapes go with their kinds,
and as long as nothing was reported all of them are known and all arrays have a
shape.

`Ty.Accounted clean` is one statement of both halves, under a condition for the second.
An expression is accounted for if the symbols are, where its own reports enter the
condition (`infer_accounted`, by induction on the expression). A statement records
only types of expressions, types that the table of operators gives, and integers, so
it keeps the states accounted for (`checkStmt_accounted`). An induction along the walk
puts these together; the result is `missing_types_reported`.
-/

namespace MatrixLang

/-! ## Types -/

/-- Whether an array of some kind can have a shape. Other kinds have none. -/
def Kind.admits : Kind → Shape → Bool
  | .vector, .vector _ => true
  | .matrix, .matrix _ _ => true
  | _, _ => false

/-- The shape of a type, if there is one, goes with its kind. -/
def Ty.Coherent (t : Ty) : Prop :=
  ∀ s, t.shape = some s → t.kind.admits s = true

/-- A type that leaves something open: it is missing, or is that of an array without
a shape. -/
def LeftOpen (ty : Option Ty) : Prop :=
  ty = none ∨ ∃ t, ty = some t ∧ t.kind.isArray = true ∧ t.shape = none

namespace Ty

variable {t u r : Ty}

theorem coherent_ofKind (kind : Kind) : (ofKind kind).Coherent := nofun

theorem Known.coherent (h : t.Known) : t.Coherent := by
  cases h with
  | int | float | string => exact nofun
  | vector n => rintro s ⟨⟩; rfl
  | matrix m n => rintro s ⟨⟩; rfl

/-- An entry of the table for arrays has operands and a result of one kind. -/
theorem operatorRule_kinds {op : BinaryOp} {k l kind : Kind} {rule : ShapeRule}
    (h : operatorRule op k l = some (kind, rule)) :
    rule = .any ∨ k = kind ∧ l = kind := by
  unfold operatorRule at h
  split at h
  · cases h; exact .inl rfl
  · cases h; exact .inl rfl
  · cases h; exact .inl rfl
  · cases h; exact .inl rfl
  · split at h <;> cases h
    exact .inr ⟨rfl, rfl⟩
  · split at h <;> cases h
    · exact .inr ⟨rfl, rfl⟩
    · exact .inr ⟨rfl, rfl⟩
  · cases h

theorem applyRule_coherent {symbol : String} {kind : Kind} {rule : ShapeRule}
    (ht : t.Coherent) (hu : u.Coherent)
    (hkinds : rule = .any ∨ t.kind = kind ∧ u.kind = kind)
    (h : applyRule symbol kind rule t.shape u.shape = .ok r) : r.Coherent := by
  rcases hkinds with rfl | ⟨rfl, hkind⟩
  · cases h
    exact coherent_ofKind kind
  · unfold applyRule at h
    split at h
    · cases h
      exact coherent_ofKind _
    · rename_i hl hr
      split at h <;> cases h
      rintro s ⟨⟩
      exact ht _ hl
    · cases h
      intro s hs
      rcases Option.or_eq_some_iff.mp hs with hl | ⟨-, hr⟩
      · exact ht s hl
      · exact hkind ▸ hu s hr
    · split at h <;> cases h
      exact (Known.matrix _ _).coherent
    · cases h
      exact coherent_ofKind _

theorem binary_coherent {op : BinaryOp} (ht : t.Coherent) (hu : u.Coherent)
    (h : Ty.binary op t u = .ok r) : r.Coherent := by
  obtain ⟨kind, rule, hrule, happly⟩ := Ty.binary_eq_ok h
  exact applyRule_coherent ht hu (operatorRule_kinds hrule) happly

theorem compound_coherent {op : AssignOp} (ht : t.Coherent) (hu : u.Coherent)
    (h : Ty.compound op t u = .ok r) : r.Coherent := by
  cases hbase : op.base? with
  | none =>
      simp only [Ty.compound, hbase] at h
      cases h
      exact hu
  | some base =>
      obtain ⟨kind, rule, hrule, happly⟩ := Ty.compound_eq_ok hbase h
      have hkinds := (operatorRule_kinds hrule).imp_left
        fun hany => congrArg ShapeRule.keepingTarget hany
      exact applyRule_coherent ht hu hkinds happly

/-- A type, if there is one, has a shape that goes with its kind; and on a condition
there is one, and it leaves nothing open. The condition will be that nothing was
reported. -/
structure Accounted (clean : Prop) (ty : Option Ty) : Prop where
  coherent : ∀ t, ty = some t → t.Coherent
  known : clean → ∃ t, ty = some t ∧ t.Known

namespace Accounted

variable {clean clean' : Prop} {ty : Option Ty}

theorem mono (h : Accounted clean ty) (himp : clean' → clean) : Accounted clean' ty :=
  ⟨h.coherent, fun hclean => h.known (himp hclean)⟩

theorem of_known (ht : t.Known) : Accounted clean (some t) :=
  ⟨fun _ heq => Option.some.inj heq ▸ ht.coherent, fun _ => ⟨t, rfl, ht⟩⟩

/-- A type that is there. -/
theorem of_some (ht : t.Coherent) (hknown : clean → t.Known) : Accounted clean (some t) :=
  ⟨fun _ heq => Option.some.inj heq ▸ ht, fun hclean => ⟨t, rfl, hknown hclean⟩⟩

theorem known_some (h : Accounted clean (some t)) (hclean : clean) : t.Known := by
  obtain ⟨u, hu, huk⟩ := h.known hclean
  exact Option.some.inj hu ▸ huk

theorem not_leftOpen (h : Accounted clean ty) (hclean : clean) : ¬LeftOpen ty := by
  obtain ⟨t, rfl, ht⟩ := h.known hclean
  rintro (hnone | ⟨u, hu, harray, hshape⟩)
  · cases hnone
  · cases hu
    cases ht with
    | int | float | string => cases harray
    | vector n => cases hshape
    | matrix m n => cases hshape

theorem binary {op : BinaryOp} (ht : Accounted clean (some t))
    (hu : Accounted clean (some u)) (h : Ty.binary op t u = .ok r) :
    Accounted clean (some r) := by
  refine .of_some (binary_coherent (ht.coherent t rfl) (hu.coherent u rfl) h) ?_
  intro hclean
  exact (Combines.of_binary (ht.known_some hclean) (hu.known_some hclean) h).known

theorem compound {op : AssignOp} (ht : Accounted clean (some t))
    (hu : Accounted clean (some u)) (h : Ty.compound op t u = .ok r) :
    Accounted clean (some r) := by
  refine .of_some (compound_coherent (ht.coherent t rfl) (hu.coherent u rfl) h) ?_
  intro hclean
  have htk := ht.known_some hclean
  have huk := hu.known_some hclean
  cases hbase : op.base? with
  | none =>
      simp only [Ty.compound, hbase] at h
      cases h
      exact huk
  | some base =>
      rcases Combines.of_compound hbase htk huk h with ⟨-, hcomb⟩ | ⟨-, -, rfl⟩
      · exact hcomb.known
      · exact htk

end Accounted

end Ty

/-! ## Expressions -/

/-- All types in the symbols are accounted for. -/
def Symbols.Accounted (clean : Prop) (symbols : Symbols) : Prop :=
  ∀ x ty, symbols.get? x = some ty → Ty.Accounted clean ty

/-- The type of a judgement is accounted for, provided that it reports nothing
itself. -/
def Judgement.Accounted (clean : Prop) (j : Judgement) : Prop :=
  Ty.Accounted (clean ∧ j.reports = []) j.ty

namespace Judgement.Accounted

variable {clean : Prop} {j l r : Judgement} {t u : Ty}

theorem of_known (ht : t.Known) (ds : List Diagnostic) :
    Judgement.Accounted clean ⟨some t, ds⟩ :=
  Ty.Accounted.of_known ht

theorem wrong (p : Problem) (line : Nat) : (Judgement.wrong p line).Accounted clean :=
  ⟨nofun, fun h => nomatch h.2⟩

theorem ofExcept {line : Nat} {op : BinaryOp} (ht : Ty.Accounted clean (some t))
    (hu : Ty.Accounted clean (some u)) :
    (Judgement.ofExcept line (Ty.binary op t u)).Accounted clean := by
  cases h : Ty.binary op t u with
  | error p => exact .wrong p line
  | ok r => exact (ht.binary hu h).mono And.left

/-- The operation may rely on its operand only as far as nothing was reported of it. -/
theorem bind {next : Ty → Judgement} (hj : j.Accounted clean)
    (hnext : ∀ (clean : Prop) t, Ty.Accounted clean (some t) → (next t).Accounted clean) :
    (j.bind next).Accounted clean := by
  unfold Judgement.bind
  split
  · exact hj
  · rename_i t ht
    have hoperand : Ty.Accounted (clean ∧ j.reports = []) (some t) := ht ▸ hj
    refine (hnext _ t hoperand).mono ?_
    rintro ⟨hclean, hnil⟩
    obtain ⟨hbefore, hhere⟩ := List.append_eq_nil_iff.mp hnil
    exact ⟨⟨hclean, hbefore⟩, hhere⟩

theorem bind₂ {next : Ty → Ty → Judgement} (hl : l.Accounted clean) (hr : r.Accounted clean)
    (hnext : ∀ (clean : Prop) t u, Ty.Accounted clean (some t) →
      Ty.Accounted clean (some u) → (next t u).Accounted clean) :
    (l.bind₂ r next).Accounted clean := by
  have hleft : Ty.Accounted (clean ∧ l.reports ++ r.reports = []) l.ty :=
    hl.mono fun h => ⟨h.1, (List.append_eq_nil_iff.mp h.2).1⟩
  have hright : Ty.Accounted (clean ∧ l.reports ++ r.reports = []) r.ty :=
    hr.mono fun h => ⟨h.1, (List.append_eq_nil_iff.mp h.2).2⟩
  unfold Judgement.bind₂
  split
  · rename_i t u ht hu
    refine (hnext _ t u (ht ▸ hleft) (hu ▸ hright)).mono ?_
    rintro ⟨hclean, hnil⟩
    obtain ⟨hbefore, hhere⟩ := List.append_eq_nil_iff.mp hnil
    exact ⟨⟨hclean, hbefore⟩, hhere⟩
  · rename_i hmissing
    refine ⟨nofun, fun hclean => ?_⟩
    obtain ⟨t, ht, -⟩ := hleft.known hclean
    obtain ⟨u, hu, -⟩ := hright.known hclean
    exact (hmissing t u ht hu).elim

end Judgement.Accounted

section

variable {clean : Prop} {t : Ty}

theorem itemType_accounted (h : Ty.Accounted clean (some t)) (line : Nat) (name : String)
    (i : Int64) : (itemType line name i t).Accounted clean := by
  unfold itemType
  split
  · exact .of_known .float _
  · exact .of_known .float _
  · exact .of_known (.vector _) _
  · rename_i hkind hshape
    refine .of_some (Ty.coherent_ofKind .vector) fun hclean => ?_
    obtain ⟨rows, cols, rfl⟩ := (h.known_some hclean.1).eq_matrix hkind
    exact (hshape rows cols rfl).elim
  · exact .wrong _ line

theorem cellType_accounted (clean : Prop) (line : Nat) (name : String) (i j : Int64)
    (t : Ty) : (cellType line name i j t).Accounted clean := by
  unfold cellType
  split
  · exact .of_known .float _
  · exact .of_known .float _
  · exact .wrong _ line

theorem negType_accounted (h : Ty.Accounted clean (some t)) (line : Nat) :
    (negType line t).Accounted clean := by
  unfold negType
  split
  · exact .wrong _ line
  · exact h.mono And.left

theorem transposeType_accounted (h : Ty.Accounted clean (some t)) (line : Nat) :
    (transposeType line t).Accounted clean := by
  unfold transposeType
  split
  · rename_i hkind
    refine .of_some ?_ fun hclean => ?_
    · intro s hs
      obtain ⟨s', hs', rfl⟩ := Option.map_eq_some_iff.mp hs
      have hadmits := h.coherent t rfl s' hs'
      rw [hkind] at hadmits
      cases s' with
      | vector n => cases hadmits
      | matrix m n => rfl
    · obtain ⟨rows, cols, rfl⟩ := (h.known_some hclean.1).eq_matrix hkind
      exact .matrix cols rows
  · exact .wrong _ line

theorem matrixType_coherent (rows : List Expr) : (matrixType rows).Coherent := by
  unfold matrixType
  split
  · exact (Ty.Known.matrix 0 0).coherent
  · split
    · exact (Ty.Known.matrix _ _).coherent
    · exact Ty.coherent_ofKind .matrix

end

variable {clean : Prop} {symbols : Symbols}

theorem placeType_accounted (h : symbols.Accounted clean) (line : Nat) (p : Place) :
    (placeType symbols line p).Accounted clean := by
  unfold placeType
  split
  · exact .wrong _ line
  · rename_i hs
    exact (h _ _ hs).mono And.left
  · rename_i t hs
    have ht := h _ _ hs
    split
    · exact ht.mono And.left
    · exact itemType_accounted ht line _ _
    · exact cellType_accounted clean line _ _ _ t

/-- The type of an expression is accounted for if those in the symbols are. -/
theorem infer_accounted (h : symbols.Accounted clean) (e : Expr) :
    (infer symbols e).Accounted clean := by
  induction e with
  | int => exact .of_known .int _
  | float => exact .of_known .float _
  | str => exact .of_known .string _
  | read line p => exact placeType_accounted h line p
  | binary line op l r ihl ihr => exact ihl.bind₂ ihr fun _ _ _ ht hu => .ofExcept ht hu
  | compare line op l r => exact .of_known .int _
  | vector line items => exact .of_known (.vector _) _
  | matrix line rows =>
      refine .of_some (matrixType_coherent rows) fun hclean => ?_
      obtain ⟨hrows, hragged⟩ := List.append_eq_nil_iff.mp hclean.2
      obtain ⟨cols, -, hty⟩ := matrixType_eq hrows hragged
      exact hty ▸ .matrix _ _
  | construct line f dims =>
      simp only [infer, constructType]
      split
      · exact .of_known (.matrix _ _) _
      · exact .wrong _ line
  | neg line e ih => exact ih.bind fun _ _ ht => negType_accounted ht line
  | transpose line e ih => exact ih.bind fun _ _ ht => transposeType_accounted ht line

/-! ## States of the checker -/

/-- The types in the symbols are accounted for, on the condition that nothing was
reported. -/
def Checked.Accounted (c : Checked) : Prop :=
  c.symbols.Accounted (c.reports = [])

theorem Checked.andThen_assoc (c : Checked) (f g : Symbols → Checked) :
    (c.andThen f).andThen g = c.andThen fun s => (f s).andThen g := by
  simp only [andThen, List.append_assoc]

namespace Checked.Accounted

variable {c : Checked}

theorem initial : Checked.Accounted ⟨.initial, []⟩ := nofun

theorem reporting (h : c.Accounted) (ds : List Diagnostic) :
    Checked.Accounted ⟨c.symbols, c.reports ++ ds⟩ :=
  fun x ty hx => (h x ty hx).mono fun hnil => (List.append_eq_nil_iff.mp hnil).1

theorem define (h : c.Accounted) (name : String) {ty : Option Ty}
    (hty : Ty.Accounted (c.reports = []) ty) :
    Checked.Accounted ⟨c.symbols.define name ty, c.reports⟩ := by
  intro x u hu
  rw [Scopes.get?_define] at hu
  split at hu
  · exact Option.some.inj hu ▸ hty
  · exact h x u hu

theorem assign (h : c.Accounted) (line : Nat) (op : AssignOp) (p : Place)
    {value : Option Ty} (hvalue : Ty.Accounted (c.reports = []) value) :
    (c.andThen fun s => checkAssign s line op p value).Accounted := by
  cases p with
  | item name i | cell name i j => exact h.reporting _
  | var name =>
      simp only [checkAssign, checkVariable, Checked.andThen]
      split
      · rw [List.append_nil]
        exact h.define name hvalue
      · split
        · exact h.reporting _
        · rename_i hname
          split
          · split
            · rename_i hresult
              rw [List.append_nil]
              exact h.define name ((h name _ hname).compound hvalue hresult)
            · exact h.reporting _
          · exact h.reporting _

/-- The variable of a header is an integer. -/
theorem count (h : c.Accounted) (var : String) (range : Range) :
    Checked.Accounted
      ⟨c.symbols.define var (some .int), c.reports ++ rangeReports c.symbols range⟩ :=
  (h.reporting (rangeReports c.symbols range)).define var (.of_known .int)

end Checked.Accounted

theorem checkStmts_accounted {inLoop : Bool} {body : List Stmt}
    (hbody : ∀ stmt ∈ body, ∀ c : Checked, c.Accounted →
      (c.andThen fun s => checkStmt inLoop s stmt).Accounted) {c : Checked}
    (h : c.Accounted) : (c.andThen fun s => checkStmts inLoop s body).Accounted := by
  induction body generalizing c with
  | nil => exact h.reporting []
  | cons stmt rest ih =>
      obtain ⟨hstmt, hrest⟩ := List.forall_mem_cons.mp hbody
      simp only [checkStmts, ← Checked.andThen_assoc]
      exact ih hrest (hstmt c h)

theorem checkStmt_accounted (stmt : Stmt) (inLoop : Bool) (c : Checked)
    (h : c.Accounted) : (c.andThen fun s => checkStmt inLoop s stmt).Accounted := by
  induction stmt generalizing inLoop c with
  | block line body ih =>
      exact checkStmts_accounted (fun stmt hstmt c h => ih stmt hstmt inLoop c h) h
  | assign line op p e =>
      have hvalue : Ty.Accounted (c.reports ++ (infer c.symbols e).reports = [])
          (infer c.symbols e).ty :=
        (infer_accounted h e).mono List.append_eq_nil_iff.mp
      have hassigned := (h.reporting (infer c.symbols e).reports).assign line op p hvalue
      simpa only [checkStmt, Checked.andThen, List.append_assoc] using hassigned
  | branch line test yes no ihYes ihNo =>
      have hyes := ihYes inLoop _ (h.reporting (infer c.symbols test).reports)
      cases no with
      | none =>
          simp only [checkStmt, ← Checked.andThen_assoc]
          exact hyes
      | some no =>
          simp only [checkStmt, ← Checked.andThen_assoc]
          exact ihNo no rfl inLoop _ hyes
  | loop line test body ih =>
      simp only [checkStmt, ← Checked.andThen_assoc]
      exact ih true _ (h.reporting (infer c.symbols test).reports)
  | count line var range body ih =>
      simp only [checkStmt, ← Checked.andThen_assoc]
      exact ih true _ (h.count var range)
  | break_ line | continue_ line => exact h.reporting _
  | ret line e => exact h.reporting _
  | print line values => exact h.reporting _

/-! ## The states on the way -/

/-- What is reported of the expressions in a statement itself, before the statement
does anything. -/
def Stmt.judged (symbols : Symbols) : Stmt → List Diagnostic
  | .assign _ _ _ e | .branch _ e _ _ | .loop _ e _ | .ret _ e => (infer symbols e).reports
  | .count _ _ range _ => rangeReports symbols range
  | .print _ values => values.flatMap fun e => (infer symbols e).reports
  | .block _ _ | .break_ _ | .continue_ _ => []

/-- `Passes inLoop c stmt d` says that a checker in state `c` that checks `stmt` is in
state `d` at some moment: while it judges the expressions of `stmt` (`judging`), at the
end (`done`), or at some moment while it checks a part of `stmt`. -/
inductive Passes : Bool → Checked → Stmt → Checked → Prop where
  | judging {inLoop : Bool} {c : Checked} {stmt : Stmt} {ds : List Diagnostic}
      (hds : ds <+: stmt.judged c.symbols) :
      Passes inLoop c stmt ⟨c.symbols, c.reports ++ ds⟩
  | done (inLoop : Bool) (c : Checked) (stmt : Stmt) :
      Passes inLoop c stmt (c.andThen fun s => checkStmt inLoop s stmt)
  | block {inLoop : Bool} {c d : Checked} {line : Nat} {front back : List Stmt}
      {stmt : Stmt}
      (h : Passes inLoop (c.andThen fun s => checkStmts inLoop s front) stmt d) :
      Passes inLoop c (.block line (front ++ stmt :: back)) d
  | yes {inLoop : Bool} {c d : Checked} {line : Nat} {test : Expr} {yes : Stmt}
      {no : Option Stmt}
      (h : Passes inLoop ⟨c.symbols, c.reports ++ (infer c.symbols test).reports⟩ yes d) :
      Passes inLoop c (.branch line test yes no) d
  | no {inLoop : Bool} {c d : Checked} {line : Nat} {test : Expr} {yes no : Stmt}
      (h : Passes inLoop
        (Checked.andThen ⟨c.symbols, c.reports ++ (infer c.symbols test).reports⟩
          fun s => checkStmt inLoop s yes) no d) :
      Passes inLoop c (.branch line test yes (some no)) d
  | loop {inLoop : Bool} {c d : Checked} {line : Nat} {test : Expr} {body : Stmt}
      (h : Passes true ⟨c.symbols, c.reports ++ (infer c.symbols test).reports⟩ body d) :
      Passes inLoop c (.loop line test body) d
  | count {inLoop : Bool} {c d : Checked} {line : Nat} {var : String} {range : Range}
      {body : Stmt}
      (h : Passes true
        ⟨c.symbols.define var (some .int), c.reports ++ rangeReports c.symbols range⟩
        body d) :
      Passes inLoop c (.count line var range body) d

theorem Stmt.judged_prefix (inLoop : Bool) (stmt : Stmt) :
    stmt.judged symbols <+: (checkStmt inLoop symbols stmt).reports := by
  cases stmt with
  | block | break_ | continue_ => exact List.nil_prefix
  | ret | print => exact List.prefix_refl _
  | assign | loop | count => exact List.prefix_append _ _
  | branch line test yes no =>
      cases no with
      | none => exact List.prefix_append _ _
      | some no => exact (List.prefix_append _ _).trans (List.prefix_append _ _)

/-- At each moment, what was reported is what the reports at the end begin with. -/
theorem Passes.reports_prefix {inLoop : Bool} {c d : Checked} {stmt : Stmt}
    (h : Passes inLoop c stmt d) :
    d.reports <+: (c.andThen fun s => checkStmt inLoop s stmt).reports := by
  induction h with
  | @judging inLoop c stmt ds hds =>
      exact List.prefix_append_right_inj _ |>.mpr (hds.trans (stmt.judged_prefix inLoop))
  | done => exact List.prefix_refl _
  | block hpart ih =>
      simp only [checkStmt, checkStmts_append, checkStmts, ← Checked.andThen_assoc]
      exact ih.trans (List.prefix_append _ _)
  | @yes _ _ _ _ _ _ no hpart ih =>
      cases no with
      | none =>
          simp only [checkStmt, ← Checked.andThen_assoc]
          exact ih
      | some no =>
          simp only [checkStmt, ← Checked.andThen_assoc]
          exact ih.trans (List.prefix_append _ _)
  | no hpart ih | loop hpart ih | count hpart ih =>
      simp only [checkStmt, ← Checked.andThen_assoc]
      exact ih

theorem Passes.accounted {inLoop : Bool} {c d : Checked} {stmt : Stmt}
    (hpass : Passes inLoop c stmt d) (h : c.Accounted) : d.Accounted := by
  induction hpass with
  | judging hds => exact h.reporting _
  | done inLoop c stmt => exact checkStmt_accounted stmt inLoop c h
  | block hpart ih =>
      exact ih (checkStmts_accounted (fun stmt _ c h => checkStmt_accounted stmt _ c h) h)
  | yes hpart ih => exact ih (h.reporting _)
  | no hpart ih => exact ih (checkStmt_accounted _ _ _ (h.reporting _))
  | loop hpart ih => exact ih (h.reporting _)
  | count hpart ih => exact ih (h.count _ _)

/-- The state of a checker after it was fed some programs, one after the other. -/
def checkAll (fed : List Program) : Checked :=
  fed.foldl (fun c p => c.andThen fun s => checkFrom s p) ⟨.initial, []⟩

theorem checkAll_concat (fed : List Program) (p : Program) :
    checkAll (fed ++ [p]) = (checkAll fed).andThen fun s => checkFrom s p := by
  simp only [checkAll, List.foldl_append, List.foldl_cons, List.foldl_nil]

theorem checkAll_accounted (fed : List Program) : (checkAll fed).Accounted := by
  unfold checkAll
  generalize hc : (⟨.initial, []⟩ : Checked) = c
  have h : c.Accounted := hc ▸ .initial
  clear hc
  induction fed generalizing c with
  | nil => exact h
  | cons p rest ih =>
      exact ih _ (checkStmts_accounted (fun stmt _ c h => checkStmt_accounted stmt _ c h) h)

/-- **Missing types were reported.** Whatever programs a checker was fed, and wherever
it is in the next one: its reports are those that the reports at the end begin with;
shapes go with kinds, for the symbols and for every expression that it may judge there;
a symbol leaves something open only after a report, and so does an expression, whose
own reports count. While there is no report, every symbol has a type and every array a
shape. -/
theorem missing_types_reported (fed : List Program) {line : Nat} {p : Program}
    {d : Checked} (hpass : Passes false (checkAll fed) (.block line p) d) :
    d.reports <+: (checkAll (fed ++ [p])).reports
      ∧ (∀ x t, d.symbols.get? x = some (some t) → t.Coherent)
      ∧ (∀ e t, (infer d.symbols e).ty = some t → t.Coherent)
      ∧ (∀ x ty, d.symbols.get? x = some ty → LeftOpen ty → d.reports ≠ [])
      ∧ (∀ e, LeftOpen (infer d.symbols e).ty →
          d.reports ++ (infer d.symbols e).reports ≠ [])
      ∧ (d.reports = [] → ∀ x ty, d.symbols.get? x = some ty →
          ∃ t, ty = some t ∧ (t.kind.isArray = true → t.shape.isSome = true)) := by
  have h := hpass.accounted (checkAll_accounted fed)
  have hjudged := infer_accounted h
  refine ⟨?first, fun x t hx => (h x _ hx).coherent t rfl, fun e => (hjudged e).coherent,
    ?symbol, ?expression, ?clean⟩
  case first =>
    rw [checkAll_concat]
    exact hpass.reports_prefix
  case symbol =>
    intro x ty hx hopen hnil
    exact (h x ty hx).not_leftOpen hnil hopen
  case expression =>
    intro e hopen hnil
    exact (hjudged e).not_leftOpen (List.append_eq_nil_iff.mp hnil) hopen
  case clean =>
    intro hnil x ty hx
    have hleft := (h x ty hx).not_leftOpen hnil
    obtain ⟨t, rfl, -⟩ := (h x ty hx).known hnil
    refine ⟨t, rfl, fun harray => Option.isSome_iff_ne_none.mpr fun hnone => ?_⟩
    exact hleft (.inr ⟨t, rfl, harray, hnone⟩)

namespace Sample

/-- `y = x;` -/
def opening : Program := [.assign 1 .set (.var "y") (.read 1 (.var "x"))]

/-- `n = 2; if (n < 3) z = y';` -/
def carrying : Program :=
  [.assign 1 .set (.var "n") (.int 1 2),
    .branch 2 (.compare 2 .lt (.read 2 (.var "n")) (.int 2 3))
      (.assign 2 .set (.var "z") (.transpose 2 (.read 2 (.var "y")))) none]

end Sample

open Sample in
/-- In the branch, `z` gets no type. The report on `x` was in the program before. -/
theorem missing_types_reported_carrying :
    ∃ d, Passes false (checkAll [opening]) (.block 1 carrying) d
      ∧ d.symbols.get? "z" = some none ∧ d.reports ≠ [] := by
  have hpass : Passes false (checkAll [opening]) (.block 1 carrying) _ :=
    @Passes.block _ _ _ _ (carrying.take 1) [] _ (.yes (.done ..))
  obtain ⟨-, -, -, hsymbol, -⟩ := missing_types_reported [opening] hpass
  exact ⟨_, hpass, rfl, hsymbol "z" none rfl (.inl rfl)⟩

end MatrixLang
