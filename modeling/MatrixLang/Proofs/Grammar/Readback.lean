import MatrixLang.Proofs.Grammar.Reading

/-!
# Reading back what was written

Tokens that write a tree in normal form are read as this tree, up to lines. The
induction is on how the tree was written (`Written.readsBack`); each way to
write has its lemma among those on readers, and what is left to show is that the
trees agree. Only lists need care: an empty row is read as an empty matrix
first, and becomes a row when the whole list is known to be one of rows.
-/

namespace MatrixLang

open Reader

/-! ## Ranks -/

/-- The tokens read as an expression of this rank. -/
def Rank.Reads : Rank → Expr → List Token → Prop
  | .sum => Reader.Reads levels
  | .dotSum => Reader.Reads [dotSumLevel, productLevel, dotProductLevel]
  | .product => Reader.Reads [productLevel, dotProductLevel]
  | .dotProduct => Reader.Reads [dotProductLevel]
  | .unary => Reader.Reads []
  | .postfixed => ReadsMarked
  | .primary => ReadsPrimary

variable {e f : Expr} {us vs : List Token}

theorem Rank.Reads.tight {rank : Rank} (h : rank.tighter.Reads e us) :
    rank.Reads e us := by
  cases rank with
  | sum | dotSum | product | dotProduct => exact Reader.Reads.loosen h
  | unary => exact ReadsMarked.unary h
  | postfixed => exact ReadsPrimary.marked h
  | primary => exact h

theorem Rank.Reads.binary {op : BinaryOp} {l : Nat} (he : op.rank.Reads e us)
    (hf : op.rank.tighter.Reads f vs) :
    op.rank.Reads (.binary e.line op e f) (us ++ ⟨.symbol op.symbol, l⟩ :: vs) := by
  cases op <;> exact Reader.Reads.binary rfl (by decide) (by decide) (by decide) he hf

/-! ## Bracket lists -/

theorem asRow_unlined (e : Expr) : (asRow e).unlined = asRow e.unlined := by
  cases e <;> rfl

/-- Items that look like rows are the rows of a matrix. -/
theorem bracketed_rows {rows es : List Expr} {line : Nat}
    (hrows : ∀ row ∈ rows, row.isRow Expr.plainRow = true)
    (hes : Expr.unlinedAll es = Expr.unlinedAll (rows.map Expr.asItem)) :
    (bracketed line es).unlined = .matrix 0 (Expr.unlinedAll rows) := by
  have hplain : Expr.anyPlain es = false := by
    rw [Expr.anyPlain_congr hes]
    simp only [Expr.anyPlain, List.any_map, List.any_eq_false,
      Function.comp_apply]
    intro row hrow
    simp [(Expr.isItem_of_isRow (hrows row hrow)).2]
  have hall : (es.all fun e => e.isVector || e.isEmptyMatrix) = true := by
    rw [Expr.anyPlain_eq_not_all, Bool.not_eq_false'] at hplain
    exact hplain
  rw [bracketed, if_pos hall]
  show Expr.matrix 0 (Expr.unlinedAll (es.map asRow)) = _
  congr 1
  have hmap : (es.map asRow).map Expr.unlined
      = (es.map Expr.unlined).map asRow := by
    simp only [List.map_map, Function.comp_def, asRow_unlined]
  simp only [Expr.mapLinesAll_eq_map] at hes ⊢
  rw [hmap, hes, List.map_map, List.map_map]
  refine List.map_congr_left fun row hrow => ?_
  have hvector := hrows row hrow
  cases row with
  | vector line items => cases items <;> rfl
  | _ => cases hvector

/-- Items of which one is no row are the items of a vector. -/
theorem bracketed_plain {es fs : List Expr} {line : Nat}
    (hplain : Expr.anyPlain fs = true)
    (hes : Expr.unlinedAll es = Expr.unlinedAll fs) :
    (bracketed line es).unlined = .vector 0 (Expr.unlinedAll fs) := by
  rw [← Expr.anyPlain_congr hes] at hplain
  have hall : ¬(es.all fun e => e.isVector || e.isEmptyMatrix) = true := by
    rw [Expr.anyPlain_eq_not_all, Bool.not_eq_true'] at hplain
    exact Bool.eq_false_iff.mp hplain
  rw [bracketed, if_neg hall, ← hes]
  rfl

/-! ## Everything that can be written -/

/-- The tokens read as the phrase, if it is in normal form. -/
def Phrase.ReadsBack (us : List Token) : Phrase → Prop
  | .expr rank e =>
      e.IsItem → ∃ e', e'.unlined = e.asItem.unlined ∧ rank.Reads e' us
  | .items es => (∀ e ∈ es, e.IsItem) →
      ∃ es', Expr.unlinedAll es' = Expr.unlinedAll (es.map Expr.asItem)
        ∧ ReadsItems es' us
  | .test e => Stmt.isNormalTest Expr.plainRow e = true →
      ∃ e', e'.unlined = e.unlined ∧ ReadsTest e' us
  | .stmt s => s.isNormal Expr.plainRow = true →
      ∃ s', s'.unlined = s.unlined ∧ ReadsStmt s' us
  | .body ss => Stmt.areNormal Expr.plainRow ss = true →
      ∃ ss', Stmt.unlinedAll ss' = Stmt.unlinedAll ss ∧ ReadsBody ss' us

/-- A normal expression is not changed by being an item. -/
theorem Phrase.ReadsBack.normal {rank : Rank}
    (h : (Phrase.expr rank e).ReadsBack us)
    (he : e.isNormal Expr.plainRow = true) :
    ∃ e', e'.unlined = e.unlined ∧ rank.Reads e' us := by
  have hread := h (.inl he)
  rwa [Expr.asItem_of_isNormal he] at hread

theorem Phrase.ReadsBack.normals {es : List Expr}
    (h : (Phrase.items es).ReadsBack us)
    (hes : Expr.areNormal Expr.plainRow es = true) :
    ∃ es', Expr.unlinedAll es' = Expr.unlinedAll es ∧ ReadsItems es' us := by
  have hread := h fun e he => .inl (Expr.areNormal_iff.mp hes e he)
  rwa [Expr.map_asItem hes] at hread

theorem Expr.IsItem.isNormal {e : Expr} (h : e.IsItem)
    (he : e.isVector = false) :
    e.isNormal plainRow = true := by
  rcases h with h | ⟨line, rfl⟩
  · exact h
  · cases he

theorem Written.startsElse {ss : List Stmt} (h : Written (.body ss) us)
    {rest : List Token} (hrest : Reader.startsElse rest = false) :
    Reader.startsElse (us ++ rest) = false := by
  cases h with
  | nil => exact hrest
  | cons hs _ =>
      rw [List.append_assoc]
      exact startsStmt_not_else (startsStmt_written hs)

theorem Written.readsBack {φ : Phrase} (h : Written φ us) : φ.ReadsBack us := by
  induction h with
  | @int n _ l => exact fun _ => ⟨.int l n, rfl, .int⟩
  | @float x _ l => exact fun _ => ⟨.float l x, rfl, .float⟩
  | @str x _ l => exact fun _ => ⟨.str l x, rfl, .str⟩
  | read hp =>
      intro _
      obtain ⟨l, hread⟩ := ReadsPrimary.place hp
      exact ⟨.read l _, rfl, hread⟩
  | @construct f d _ l _ _ _ hd =>
      exact fun _ => ⟨.construct l f d, rfl, .construct hd⟩
  | @emptyMatrix _ l | @emptyVector _ l =>
      exact fun _ => ⟨.matrix l [], rfl, .emptyList⟩
  | matrix _ ih =>
      intro hitem
      have hnormal := hitem.isNormal rfl
      have hrows := Expr.areRows_iff.mp hnormal
      obtain ⟨es, hes, hread⟩ :=
        ih fun row hrow => (Expr.isItem_of_isRow (hrows row hrow)).1
      exact ⟨bracketed _ es, bracketed_rows hrows hes, .list hread⟩
  | vector hitems ih =>
      intro hitem
      rcases hitem with hnormal | ⟨line, hempty⟩
      · rw [Expr.asItem_of_isNormal hnormal]
        simp only [Expr.isNormal, Bool.and_eq_true] at hnormal
        obtain ⟨es, hes, hread⟩ := ih.normals hnormal.2
        exact ⟨bracketed _ es, bracketed_plain hnormal.1 hes, .list hread⟩
      · cases hempty
        cases hitems
  | paren _ ih =>
      intro hitem
      obtain ⟨e, he, hread⟩ := ih hitem
      exact ⟨e, he, ReadsPrimary.paren hread⟩
  | transpose _ ih =>
      intro hitem
      obtain ⟨e, he, hread⟩ := ih.normal (hitem.isNormal rfl)
      exact ⟨.transpose _ e, congrArg (Expr.transpose 0) he,
        ReadsMarked.transpose hread⟩
  | neg _ ih =>
      intro hitem
      obtain ⟨e, he, hread⟩ := ih.normal (hitem.isNormal rfl)
      exact ⟨.neg _ e, congrArg (Expr.neg 0) he, Reader.Reads.neg hread⟩
  | @binary op _ _ _ _ _ _ _ _ ihl ihr =>
      intro hitem
      have hnormal := hitem.isNormal rfl
      simp only [Expr.isNormal, Bool.and_eq_true] at hnormal
      obtain ⟨e, he, hreadl⟩ := ihl.normal hnormal.1
      obtain ⟨f, hf, hreadr⟩ := ihr.normal hnormal.2
      refine ⟨.binary e.line op e f, ?_, hreadl.binary hreadr⟩
      simp only [Expr.asItem, Expr.mapLines, he, hf]
  | tight _ ih =>
      intro hitem
      obtain ⟨e, he, hread⟩ := ih hitem
      exact ⟨e, he, hread.tight⟩
  | one _ ih =>
      intro hitems
      obtain ⟨e, he, hread⟩ := ih (hitems _ List.mem_cons_self)
      exact ⟨[e], congrArg (fun e => [e]) he, .one hread⟩
  | more _ _ ihe ihes =>
      intro hitems
      obtain ⟨hitem, hrest⟩ := List.forall_mem_cons.mp hitems
      obtain ⟨e, he, hread⟩ := ihe hitem
      obtain ⟨es, hes, hreads⟩ := ihes hrest
      refine ⟨e :: es, ?_, .more hread hreads⟩
      simp only [Expr.mapLinesAll, List.map_cons, he, hes]
  | @test op _ _ _ _ _ _ _ _ ihl ihr =>
      intro hnormal
      simp only [Stmt.isNormalTest, Bool.and_eq_true] at hnormal
      obtain ⟨e, he, hreadl⟩ := ihl.normal hnormal.1
      obtain ⟨f, hf, hreadr⟩ := ihr.normal hnormal.2
      refine ⟨.compare e.line op e f, ?_, .compare hreadl hreadr⟩
      simp only [Expr.mapLines, he, hf]
  | block _ ih =>
      intro hnormal
      obtain ⟨ss, hss, hread⟩ := ih hnormal
      exact ⟨.block _ ss, congrArg (Stmt.block 0) hss, .block hread⟩
  | @assign op p _ _ _ _ _ _ hp _ ih =>
      intro hnormal
      simp only [Stmt.isNormal, Bool.and_eq_true, Bool.or_eq_true,
        decide_eq_true_eq] at hnormal
      obtain ⟨e, he, hread⟩ := ih.normal hnormal.2
      obtain ⟨line, hstmt⟩ := ReadsStmt.assign hp hnormal.1 hread
      exact ⟨.assign line op p e, congrArg (Stmt.assign 0 op p) he, hstmt⟩
  | ifThen _ _ ihe ihs =>
      intro hnormal
      simp only [Stmt.isNormal, Bool.and_eq_true] at hnormal
      obtain ⟨e, he, htest⟩ := ihe hnormal.1
      obtain ⟨s, hs, hread⟩ := ihs hnormal.2
      refine ⟨.branch _ e s none, ?_, .ifThen htest hread⟩
      simp only [Stmt.mapLines, he, hs]
  | ifThenElse _ _ _ ihe ihs iht =>
      intro hnormal
      simp only [Stmt.isNormal, Bool.and_eq_true, Bool.not_eq_true'] at hnormal
      obtain ⟨⟨⟨htest, hyes⟩, hclosed⟩, hno⟩ := hnormal
      obtain ⟨e, he, htest⟩ := ihe htest
      obtain ⟨s, hs, hread⟩ := ihs hyes
      obtain ⟨t, ht, hreads⟩ := iht hno
      rw [← Stmt.endsOpen_congr hs] at hclosed
      refine ⟨.branch _ e s (some t), ?_, .ifThenElse htest hread hclosed hreads⟩
      simp only [Stmt.mapLines, he, hs, ht]
  | loop _ _ ihe ihs =>
      intro hnormal
      simp only [Stmt.isNormal, Bool.and_eq_true] at hnormal
      obtain ⟨e, he, htest⟩ := ihe hnormal.1
      obtain ⟨s, hs, hread⟩ := ihs hnormal.2
      refine ⟨.loop _ e s, ?_, .loop htest hread⟩
      simp only [Stmt.mapLines, he, hs]
  | count _ _ hbody ihe ihf ihs =>
      intro hnormal
      simp only [Stmt.isNormal, Bool.and_eq_true] at hnormal
      obtain ⟨⟨hstart, hstop⟩, hs⟩ := hnormal
      obtain ⟨e, he, hreade⟩ := ihe.normal hstart
      obtain ⟨f, hf, hreadf⟩ := ihf.normal hstop
      obtain ⟨s, hs, hread⟩ := ihs hs
      have hends : ∀ rest, Ends levels (_ ++ rest) := fun _ =>
        startsStmt_ends (startsStmt_written hbody)
      refine ⟨.count _ _ ⟨_, e, f⟩ s, ?_, .count hreade hreadf hread hends⟩
      simp only [Stmt.mapLines, Range.mapLines, he, hf, hs]
  | @break_ _ l => exact fun _ => ⟨.break_ l, rfl, .break_⟩
  | @continue_ _ l => exact fun _ => ⟨.continue_ l, rfl, .continue_⟩
  | ret _ ih =>
      intro hnormal
      obtain ⟨e, he, hread⟩ := ih.normal hnormal
      exact ⟨.ret _ e, congrArg (Stmt.ret 0) he, .ret hread⟩
  | print _ ih =>
      intro hnormal
      simp only [Stmt.isNormal, Bool.and_eq_true] at hnormal
      obtain ⟨es, hes, hread⟩ := ih.normals hnormal.2
      exact ⟨.print _ es, congrArg (Stmt.print 0) hes, .print hread⟩
  | nil => exact fun _ => ⟨[], rfl, .nil⟩
  | cons hfirst hrest ihs ihss =>
      intro hnormal
      simp only [Stmt.areNormal, Bool.and_eq_true] at hnormal
      obtain ⟨s, hs, hread⟩ := ihs hnormal.1
      obtain ⟨ss, hss, hreads⟩ := ihss hnormal.2
      refine ⟨s :: ss, ?_, .cons hread hreads (fun _ => startsStmt_written hfirst)
        fun _ => hrest.startsElse⟩
      simp only [Stmt.mapLinesAll, hs, hss]

/-- **What is written can be read back.** The tokens of a program in normal form
are parsed without an error, to the same program up to lines. -/
theorem parse_written {p : Program} {ts : List Token} (l : Nat)
    (hnormal : Stmt.areNormal Expr.plainRow p = true)
    (h : Written (.body p) ts) :
    ∃ p', parse (ts ++ [⟨.eof, l⟩]) = ⟨p', []⟩
      ∧ Stmt.unlinedAll p' = Stmt.unlinedAll p := by
  obtain ⟨p', hp', hread⟩ := h.readsBack hnormal
  exact ⟨p', hread.parse l, hp'⟩

namespace Sample

/-- `x = (1 + 2) * [([1]), []]';` -/
def scaled : Program :=
  [.assign 1 .set (.var "x") (.binary 1 .mul (.binary 1 .add (.int 1 1) (.int 1 2))
    (.transpose 1 (.matrix 1 [.vector 1 [.int 1 1], .vector 1 []])))]

def scaledTokens : List Token :=
  [.ident "x", .symbol .assign, .symbol .lparen, .int 1, .symbol .plus, .int 2,
    .symbol .rparen, .symbol .star, .symbol .lbracket, .symbol .lparen,
    .symbol .lbracket, .int 1, .symbol .rbracket, .symbol .rparen,
    .symbol .comma, .symbol .lbracket, .symbol .rbracket, .symbol .rbracket,
    .symbol .quote, .symbol .semicolon].map fun lexeme => ⟨lexeme, 1⟩

theorem scaled_written : Written (.body scaled) scaledTokens := by
  have one : ∀ n : Int64, Written (.expr .primary (.int 1 n)) [⟨.int n, 1⟩] :=
    fun _ => .int
  have hsum :=
    @Written.binary .add _ _ 1 1 _ _ ((one 1).anywhere _) ((one 2).anywhere _)
  have hrow := @Written.vector _ 1 1 1 _ (.one ((one 1).anywhere _))
  have hparen := @Written.paren _ 1 1 _ (hrow.anywhere _)
  have hrows := @Written.more _ _ 1 _ _ (hparen.anywhere _)
    (.one ((@Written.emptyVector 1 1 1).anywhere _))
  have hmatrix := @Written.matrix _ 1 1 1 _ hrows
  have hfactor : Written (.expr .unary _) _ :=
    .tight (@Written.transpose _ 1 1 _ (.tight hmatrix))
  have hscale := (@Written.paren _ 1 1 _ hsum).anywhere .product
  have hproduct := @Written.binary .mul _ _ 1 1 _ _ hscale (.tight hfactor)
  have hassign := @Written.assign .set _ _ 1 1 1 _ _ (@WrittenPlace.var "x" 1)
    (.tight (.tight hproduct))
  exact .cons hassign .nil

/-- `x = [[[1]]];` as a matrix whose only row holds a vector. -/
def nestedRow : Program :=
  [.assign 1 .set (.var "x") (.matrix 1 [.vector 1 [.vector 1 [.int 1 1]]])]

def nestedRowTokens : List Token :=
  [.ident "x", .symbol .assign, .symbol .lbracket, .symbol .lbracket,
    .symbol .lbracket, .int 1, .symbol .rbracket, .symbol .rbracket,
    .symbol .rbracket, .symbol .semicolon].map
    fun lexeme => ⟨lexeme, 1⟩

theorem nestedRow_written : Written (.body nestedRow) nestedRowTokens := by
  have hone : Written (.expr .primary (.int 1 1)) [⟨.int 1, 1⟩] := .int
  have hinner := @Written.vector _ 1 1 1 _ (.one (hone.anywhere _))
  have hrow := @Written.vector _ 1 1 1 _ (.one (hinner.anywhere _))
  have hmatrix := @Written.matrix _ 1 1 1 _ (.one (hrow.anywhere _))
  have hassign := @Written.assign .set _ _ 1 1 1 _ _ (@WrittenPlace.var "x" 1)
    (hmatrix.anywhere _)
  exact .cons hassign .nil

end Sample

theorem parse_written_scaled :
    Stmt.areNormal Expr.plainRow Sample.scaled = true
      ∧ ∃ p', parse (Sample.scaledTokens ++ [⟨.eof, 1⟩]) = ⟨p', []⟩
        ∧ Stmt.unlinedAll p' = Stmt.unlinedAll Sample.scaled :=
  ⟨by decide, parse_written 1 (by decide) Sample.scaled_written⟩

/-- Without the demand on the items of matrix rows this fails: a row that holds
nothing but vectors is read as a matrix, which is no row. -/
theorem parse_written_nestedRow :
    Stmt.areNormal (fun _ => true) Sample.nestedRow = true
      ∧ Written (.body Sample.nestedRow) Sample.nestedRowTokens
      ∧ ¬∃ p', parse (Sample.nestedRowTokens ++ [⟨.eof, 1⟩]) = ⟨p', []⟩
        ∧ Stmt.unlinedAll p' = Stmt.unlinedAll Sample.nestedRow := by
  refine ⟨by decide, Sample.nestedRow_written, ?_⟩
  rintro ⟨p', hparse, hlines⟩
  have hread : parse (Sample.nestedRowTokens ++ [⟨.eof, 1⟩]) = ⟨[.assign 1 .set (.var "x")
      (.vector 1 [.matrix 1 [.vector 1 [.int 1 1]]])], []⟩ := rfl
  rw [hread] at hparse
  cases hparse
  cases hlines

end MatrixLang
