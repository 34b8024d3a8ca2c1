import MatrixLang.Proofs.Grammar.Accepted
import MatrixLang.Proofs.Grammar.Readback

/-!
# The language of the parser

The parser accepts what the grammar derives. One direction follows the readers.
The other goes through trees: every token list that the grammar derives writes
some tree in normal form (`Spells.writes`), and those are read back.

The grammar leaves open to which `if` an `else` belongs, and a tree in normal
form does not. So where the grammar hangs an `else` on an outer `if`, the tree
has it at the last open one inside (`Written.attach`).
-/

namespace MatrixLang

open MatrixLang.Expr (plainRow)

variable {ts us vs : List Token}

/-! ## Taking right sides apart -/

namespace Ebnf.Means

variable {P : Nonterminal → List Token → Prop} {a : Ebnf}

theorem symbol {s : Symbol} (h : (Ebnf.symbol s).Means P ts) :
    ∃ l, ts = [⟨.symbol s, l⟩] := by
  obtain ⟨⟨lexeme, l⟩, rfl, h⟩ := h
  cases lexeme <;> cases h
  exact ⟨l, rfl⟩

theorem word {k : Keyword} (h : (Ebnf.word k).Means P ts) :
    ∃ l, ts = [⟨.word k, l⟩] := by
  obtain ⟨⟨lexeme, l⟩, rfl, h⟩ := h
  cases lexeme <;> cases h
  exact ⟨l, rfl⟩

theorem ident (h : (Ebnf.terminal .ident).Means P ts) :
    ∃ name l, ts = [⟨.ident name, l⟩] := by
  obtain ⟨⟨lexeme, l⟩, rfl, h⟩ := h
  cases lexeme <;> cases h
  exact ⟨_, l, rfl⟩

theorem int (h : (Ebnf.terminal .int).Means P ts) :
    ∃ n l, ts = [⟨.int n, l⟩] := by
  obtain ⟨⟨lexeme, l⟩, rfl, h⟩ := h
  cases lexeme <;> cases h
  exact ⟨_, l, rfl⟩

/-- What stands before a symbol. -/
theorem before_symbol {s : Symbol} (h : (a ++ Ebnf.symbol s).Means P ts) :
    ∃ us l, ts = us ++ [⟨.symbol s, l⟩] ∧ a.Means P us := by
  obtain ⟨us, vs, rfl, hus, hvs⟩ := h
  obtain ⟨l, rfl⟩ := symbol hvs
  exact ⟨us, l, rfl, hus⟩

/-- What stands after a symbol. -/
theorem after_symbol {s : Symbol} (h : (Ebnf.symbol s ++ a).Means P ts) :
    ∃ us l, ts = ⟨.symbol s, l⟩ :: us ∧ a.Means P us := by
  obtain ⟨vs, us, rfl, hvs, hus⟩ := h
  obtain ⟨l, rfl⟩ := symbol hvs
  exact ⟨us, l, rfl, hus⟩

end Ebnf.Means

/-! ## Trees for derived token lists -/

/-- The tokens write an expression in normal form. -/
def WritesExpr (rank : Rank) (ts : List Token) : Prop :=
  ∃ e, e.isNormal plainRow = true ∧ Written (.expr rank e) ts

def WritesItems (ts : List Token) : Prop :=
  ∃ es, Expr.areNormal plainRow es = true ∧ Written (.items es) ts

def WritesStmt (ts : List Token) : Prop :=
  ∃ s, s.isNormal plainRow = true ∧ Written (.stmt s) ts

/-- The tokens write what the nonterminal stands for. -/
def Nonterminal.Writes : Nonterminal → List Token → Prop
  | .program, ts => ∃ p, Stmt.areNormal plainRow p = true ∧ Written (.body p) ts
  | .instruction, ts => WritesStmt ts
  | .condition, ts =>
      ∃ e, Stmt.isNormalTest plainRow e = true ∧ Written (.test e) ts
  | .expr, ts => WritesExpr .sum ts
  | .term1, ts => WritesExpr .dotSum ts
  | .term2, ts => WritesExpr .product ts
  | .term3, ts => WritesExpr .dotProduct ts
  | .unary, ts => WritesExpr .unary ts
  | .postfixed, ts => WritesExpr .postfixed ts
  | .primary, ts => WritesExpr .primary ts
  | .size, ts => ∃ n, WrittenSize n ts

theorem WritesExpr.tight {rank : Rank} (h : WritesExpr rank.tighter ts) :
    WritesExpr rank ts := by
  obtain ⟨e, he, hts⟩ := h
  exact ⟨e, he, .tight hts⟩

/-! ## Operators -/

/-- Operators of one level are hung on from the left. -/
theorem WritesExpr.chain {rank : Rank} {operators : Ebnf} {n : Nonterminal}
    (h : (Ebnf.chain operators (.rule n)).Means Nonterminal.Writes ts)
    (hop : ∀ ws, operators.Means Nonterminal.Writes ws →
      ∃ (op : BinaryOp) (l : Nat), op.rank = rank ∧ ws = [⟨.symbol op.symbol, l⟩])
    (hoperand : ∀ ws, n.Writes ws → WritesExpr rank.tighter ws) :
    WritesExpr rank ts := by
  obtain ⟨us, vs, rfl, hus, hvs⟩ := h
  have hleft : WritesExpr rank us := (hoperand us hus).tight
  clear hus
  have hrest : Repeats ((operators ++ .rule n).Means Nonterminal.Writes) vs := hvs
  clear hvs
  induction hrest generalizing us with
  | nil => rwa [List.append_nil]
  | cons hws _ ih =>
      obtain ⟨os, ws, rfl, hos, hws⟩ := hws
      obtain ⟨op, l, rfl, rfl⟩ := hop os hos
      obtain ⟨e, he, hleft⟩ := hleft
      obtain ⟨f, hf, hright⟩ := hoperand ws hws
      have hnode : WritesExpr op.rank (us ++ ⟨.symbol op.symbol, l⟩ :: ws) := by
        refine ⟨.binary 0 op e f, ?_, .binary hleft hright⟩
        simp only [Expr.isNormal, he, hf, Bool.and_self]
      have happend := ih _ hnode
      rwa [List.append_assoc] at happend ⊢

theorem WritesExpr.marks (hus : WritesExpr .primary us)
    (hvs : Repeats ((Ebnf.symbol .quote).Means Nonterminal.Writes) vs) :
    WritesExpr .postfixed (us ++ vs) := by
  have hprimary : WritesExpr (Rank.tighter .postfixed) us := hus
  have hleft : WritesExpr .postfixed us := hprimary.tight
  clear hus hprimary
  induction hvs generalizing us with
  | nil => rwa [List.append_nil]
  | cons hquote _ ih =>
      obtain ⟨l, rfl⟩ := hquote.symbol
      obtain ⟨e, he, hleft⟩ := hleft
      rw [← List.append_assoc]
      exact ih ⟨.transpose 0 e, he, .transpose hleft⟩

/-! ## Bracket lists -/

/-- The empty matrix and an empty row are written alike. -/
theorem Written.emptyRow {rank : Rank} {line : Nat}
    (h : Written (.expr rank (.matrix line [])) ts) :
    Written (.expr rank (.vector line [])) ts := by
  generalize hφ : Phrase.expr rank (.matrix line []) = φ at h
  induction h generalizing rank with
  | emptyMatrix => cases hφ; exact .emptyVector
  | matrix hitems => cases hφ; cases hitems
  | paren _ ih => cases hφ; exact .paren (ih rfl)
  | tight _ ih => cases hφ; exact .tight (ih rfl)
  | _ => cases hφ

/-- Items that look like rows can be read as rows. -/
theorem Written.asRows {es : List Expr} (h : Written (.items es) ts)
    (hrows : ∀ e ∈ es, e.isRowLike = true) :
    Written (.items (es.map Reader.asRow)) ts := by
  have hone : ∀ {e : Expr} {us : List Token}, e.isRowLike = true →
      Written (.expr .sum e) us → Written (.expr .sum (Reader.asRow e)) us := by
    intro e us he hus
    cases e with
    | vector line es => exact hus
    | matrix line es =>
        cases es with
        | nil => exact hus.emptyRow
        | cons => cases he
    | _ => cases he
  induction es generalizing ts with
  | nil => cases h
  | cons e es ih =>
      obtain ⟨he, hes⟩ := List.forall_mem_cons.mp hrows
      cases h with
      | one hus => exact .one (hone he hus)
      | more hus hvs => exact .more (hone he hus) (ih hvs hes)

theorem isRow_asRow {e : Expr} (h : e.isNormal plainRow = true)
    (he : e.isRowLike = true) :
    (Reader.asRow e).isRow plainRow = true := by
  cases e with
  | vector line es =>
      simp only [Expr.isNormal, Bool.and_eq_true] at h
      simp only [Reader.asRow, Expr.isRow, plainRow, h.1, h.2, Bool.or_true,
        Bool.and_self]
  | matrix line es => rfl
  | _ => cases he

/-- A bracket list is a vector or, if all items are rows, a matrix. -/
theorem WritesItems.list {l l₁ : Nat} (h : WritesItems ts) :
    WritesExpr .primary
      (⟨.symbol .lbracket, l⟩ :: ts ++ [⟨.symbol .rbracket, l₁⟩]) := by
  obtain ⟨es, hes, hts⟩ := h
  cases hplain : Expr.anyPlain es with
  | true =>
      refine ⟨.vector 0 es, ?_, .vector hts⟩
      simp only [Expr.isNormal, hplain, hes, Bool.and_self]
  | false =>
      rw [Expr.anyPlain_eq_not_all, Bool.not_eq_false',
        List.all_eq_true] at hplain
      refine ⟨.matrix 0 (es.map Reader.asRow), ?_, .matrix (hts.asRows hplain)⟩
      simp only [Expr.isNormal, Expr.areRows_iff, List.forall_mem_map]
      exact fun e he => isRow_asRow (Expr.areNormal_iff.mp hes e he) (hplain e he)

theorem WritesItems.of_listOf
    (h : (Ebnf.listOf (.rule .expr)).Means Nonterminal.Writes ts) :
    WritesItems ts := by
  obtain ⟨us, vs, rfl, hus, hvs⟩ := h
  have hrest : Repeats
      ((Ebnf.symbol .comma ++ .rule .expr).Means Nonterminal.Writes) vs := hvs
  clear hvs
  induction hrest generalizing us with
  | nil =>
      obtain ⟨e, he, hus⟩ := hus
      rw [List.append_nil]
      refine ⟨[e], ?_, .one hus⟩
      simp only [Expr.areNormal, he, Bool.and_self]
  | cons hws _ ih =>
      obtain ⟨ws, l, rfl, hitem⟩ := hws.after_symbol
      obtain ⟨es, hes, hrest⟩ := ih ws hitem
      obtain ⟨e, he, hus⟩ := hus
      refine ⟨e :: es, ?_, .more hus hrest⟩
      simp only [Expr.areNormal, he, hes, Bool.and_self]

/-! ## Primaries -/

theorem writtenPlace_element (h : Ebnf.element.Means Nonterminal.Writes ts) :
    ∃ p, WrittenPlace p ts := by
  rcases h with h | h
  · obtain ⟨_, _, rfl, h₁⟩ := h.before_symbol
    obtain ⟨_, _, rfl, h₂, hi⟩ := h₁
    obtain ⟨_, _, rfl, hx⟩ := h₂.before_symbol
    obtain ⟨x, _, rfl⟩ := hx.ident
    obtain ⟨i, _, rfl⟩ := hi.int
    exact ⟨.item x i, .item⟩
  · obtain ⟨_, _, rfl, h₁⟩ := h.before_symbol
    obtain ⟨_, _, rfl, h₂, hj⟩ := h₁
    obtain ⟨_, _, rfl, h₃⟩ := h₂.before_symbol
    obtain ⟨_, _, rfl, h₄, hi⟩ := h₃
    obtain ⟨_, _, rfl, hx⟩ := h₄.before_symbol
    obtain ⟨x, _, rfl⟩ := hx.ident
    obtain ⟨i, _, rfl⟩ := hi.int
    obtain ⟨j, _, rfl⟩ := hj.int
    exact ⟨.cell x i j, .cell⟩

theorem writtenSize_rule (h : (Ebnf.grammar .size).Means Nonterminal.Writes ts) :
    ∃ n, WrittenSize n ts := by
  obtain ⟨_, _, rfl, hminus, hn⟩ := h
  obtain ⟨n, _, rfl⟩ := hn.int
  rcases hminus with rfl | hminus
  · exact ⟨n, .plain⟩
  · obtain ⟨_, rfl⟩ := hminus.symbol
    exact ⟨-n, .minus⟩

theorem writtenDims_sizes
    (h : (.rule .size ++ .maybe (Ebnf.symbol .comma ++ .rule .size)
      : Ebnf).Means Nonterminal.Writes ts) : ∃ d, WrittenDims d ts := by
  obtain ⟨us, vs, rfl, ⟨m, hm⟩, hvs⟩ := h
  rcases hvs with rfl | hvs
  · rw [List.append_nil]
    exact ⟨.square m, .square hm⟩
  · obtain ⟨vs, l, rfl, n, hn⟩ := hvs.after_symbol
    exact ⟨.rect m n, .rect hm hn⟩

theorem keyword_constructor
    (h : (Ebnf.word .zeros ||| Ebnf.word .ones ||| Ebnf.word .eye).Means
      Nonterminal.Writes ts) :
    ∃ (f : Constructor) (l : Nat), ts = [⟨.word f.keyword, l⟩] := by
  rcases h with (h | h) | h
  all_goals obtain ⟨l, rfl⟩ := h.word
  · exact ⟨.zeros, l, rfl⟩
  · exact ⟨.ones, l, rfl⟩
  · exact ⟨.eye, l, rfl⟩

theorem WritesExpr.place {p : Place} (h : WrittenPlace p ts) :
    WritesExpr .primary ts :=
  ⟨.read 0 p, rfl, .read h⟩

theorem writesExpr_primary
    (h : (Ebnf.grammar .primary).Means Nonterminal.Writes ts) :
    WritesExpr .primary ts := by
  rcases h with (((((((hint | hfloat) | hstr) | hident) | helement) | hparen)
    | hempty) | hlist) | hconstruct
  · obtain ⟨n, l, rfl⟩ := hint.int
    exact ⟨.int 0 n, rfl, .int⟩
  · obtain ⟨⟨lexeme, l⟩, rfl, ht⟩ := hfloat
    cases lexeme <;> cases ht
    exact ⟨.float 0 _, rfl, .float⟩
  · obtain ⟨⟨lexeme, l⟩, rfl, ht⟩ := hstr
    cases lexeme <;> cases ht
    exact ⟨.str 0 _, rfl, .str⟩
  · obtain ⟨x, l, rfl⟩ := hident.ident
    exact .place .var
  · obtain ⟨p, hp⟩ := writtenPlace_element helement
    exact .place hp
  · obtain ⟨_, _, rfl, h⟩ := hparen.before_symbol
    obtain ⟨us, _, rfl, e, he, hus⟩ := h.after_symbol
    exact ⟨e, he, .paren hus⟩
  · obtain ⟨_, _, rfl, h⟩ := hempty.before_symbol
    obtain ⟨_, rfl⟩ := h.symbol
    exact ⟨.matrix 0 [], rfl, .emptyMatrix⟩
  · obtain ⟨_, _, rfl, h⟩ := hlist.before_symbol
    obtain ⟨us, _, rfl, hus⟩ := h.after_symbol
    exact WritesItems.list (.of_listOf hus)
  · obtain ⟨_, l₂, rfl, h⟩ := hconstruct.before_symbol
    obtain ⟨_, vs, rfl, ⟨_, us, rfl, h, hus⟩, hvs⟩ := h
    obtain ⟨_, l₁, rfl, hf⟩ := h.before_symbol
    obtain ⟨f, l, rfl⟩ := keyword_constructor hf
    obtain ⟨d, hd⟩ := writtenDims_sizes ⟨us, vs, rfl, hus, hvs⟩
    refine ⟨.construct 0 f d, rfl, ?_⟩
    have hwritten := @Written.construct f d 0 l l₁ l₂ _ hd
    simpa only [List.append_assoc, List.cons_append,
      List.nil_append] using hwritten

/-! ## Statements -/

/-- An `else` after a statement that ends open can be hung on an `if` inside. -/
theorem Written.attach {s t : Stmt} {l : Nat} (h : Written (.stmt s) us)
    (hs : s.isNormal plainRow = true) (hopen : s.endsOpen = true)
    (ht : t.isNormal plainRow = true) (hvs : Written (.stmt t) vs) :
    WritesStmt (us ++ ⟨.word .else_, l⟩ :: vs) := by
  induction s generalizing us with
  | branch line test yes no ihYes ihNo =>
      cases no with
      | none =>
          simp only [Stmt.isNormal, Bool.and_eq_true] at hs
          cases h with
          | ifThen htest hyes =>
              cases hinner : yes.endsOpen with
              | true =>
                  rw [List.append_assoc, List.cons_append]
                  obtain ⟨s', hs', hw⟩ := ihYes hyes hs.2 hinner
                  refine ⟨.branch 0 test s' none, ?_, .ifThen htest hw⟩
                  simp only [Stmt.isNormal, hs.1, hs', Bool.and_self]
              | false =>
                  refine ⟨.branch 0 test yes (some t), ?_,
                    .ifThenElse htest hyes hvs⟩
                  simp only [Stmt.isNormal, hs.1, hs.2, hinner, ht,
                    Bool.not_false, Bool.and_self]
      | some no =>
          simp only [Stmt.isNormal, Bool.and_eq_true] at hs
          cases h with
          | ifThenElse htest hyes hno =>
              obtain ⟨s', hs', hw⟩ := ihNo no rfl hno hs.2 hopen
              rw [List.append_assoc, List.cons_append]
              refine ⟨.branch 0 test yes (some s'), ?_, .ifThenElse htest hyes hw⟩
              simp only [Stmt.isNormal, hs.1.1.1, hs.1.1.2, hs.1.2, hs',
                Bool.and_self]
  | loop line test body ih =>
      simp only [Stmt.isNormal, Bool.and_eq_true] at hs
      cases h with
      | loop htest hbody =>
          obtain ⟨s', hs', hw⟩ := ih hbody hs.2 hopen
          rw [List.append_assoc, List.cons_append]
          refine ⟨.loop 0 test s', ?_, .loop htest hw⟩
          simp only [Stmt.isNormal, hs.1, hs', Bool.and_self]
  | count line x range body ih =>
      simp only [Stmt.isNormal, Bool.and_eq_true] at hs
      cases h with
      | count hstart hstop hbody =>
          obtain ⟨s', hs', hw⟩ := ih hbody hs.2 hopen
          rw [List.append_assoc]
          refine ⟨.count 0 x ⟨0, _, _⟩ s', ?_, .count hstart hstop hw⟩
          simp only [Stmt.isNormal, hs.1.1, hs.1.2, hs', Bool.and_self]
  | block | assign | break_ | continue_ | ret | print => cases hopen

theorem relation_operator
    (h : (Ebnf.symbol .eq ||| Ebnf.symbol .ne ||| Ebnf.symbol .lt
      ||| Ebnf.symbol .gt ||| Ebnf.symbol .le ||| Ebnf.symbol .ge).Means
      Nonterminal.Writes ts) :
    ∃ (op : Relation) (l : Nat), ts = [⟨.symbol op.symbol, l⟩] := by
  rcases h with ((((h | h) | h) | h) | h) | h
  all_goals obtain ⟨l, rfl⟩ := h.symbol
  · exact ⟨.eq, l, rfl⟩
  · exact ⟨.ne, l, rfl⟩
  · exact ⟨.lt, l, rfl⟩
  · exact ⟨.gt, l, rfl⟩
  · exact ⟨.le, l, rfl⟩
  · exact ⟨.ge, l, rfl⟩

theorem assignment_operator
    (h : (Ebnf.symbol .assign ||| Ebnf.symbol .addAssign
      ||| Ebnf.symbol .subAssign ||| Ebnf.symbol .mulAssign
      ||| Ebnf.symbol .divAssign).Means Nonterminal.Writes ts) :
    ∃ (op : AssignOp) (l : Nat), ts = [⟨.symbol op.symbol, l⟩] := by
  rcases h with (((h | h) | h) | h) | h
  all_goals obtain ⟨l, rfl⟩ := h.symbol
  · exact ⟨.set, l, rfl⟩
  · exact ⟨.add, l, rfl⟩
  · exact ⟨.sub, l, rfl⟩
  · exact ⟨.mul, l, rfl⟩
  · exact ⟨.div, l, rfl⟩

theorem writesTest_condition
    (h : (Ebnf.grammar .condition).Means Nonterminal.Writes ts) :
    ∃ e, Stmt.isNormalTest plainRow e = true ∧ Written (.test e) ts := by
  obtain ⟨_, vs, rfl, ⟨us, _, rfl, ⟨e, he, hus⟩, hop⟩, ⟨f, hf, hvs⟩⟩ := h
  obtain ⟨op, l, rfl⟩ := relation_operator hop
  rw [List.append_assoc]
  refine ⟨.compare 0 op e f, ?_, .test hus hvs⟩
  simp only [Stmt.isNormalTest, he, hf, Bool.and_self]

/-- A keyword with a condition in parentheses after it. -/
theorem writesTest_parens {k : Keyword}
    (h : (.word k ++ .symbol .lparen ++ .rule .condition ++ .symbol .rparen
      : Ebnf).Means Nonterminal.Writes ts) :
    ∃ (e : Expr) (us : List Token) (l l₁ l₂ : Nat),
      ts = ⟨.word k, l⟩ :: ⟨.symbol .lparen, l₁⟩ :: us ++ [⟨.symbol .rparen, l₂⟩]
      ∧ Stmt.isNormalTest plainRow e = true ∧ Written (.test e) us := by
  obtain ⟨_, l₂, rfl, hopen⟩ := h.before_symbol
  obtain ⟨_, us, rfl, hhead, e, he, hus⟩ := hopen
  obtain ⟨_, l₁, rfl, hk⟩ := hhead.before_symbol
  obtain ⟨l, rfl⟩ := hk.word
  exact ⟨e, us, l, l₁, l₂, rfl, he, hus⟩

/-- The statements of a block or a program. -/
theorem Repeats.body (h : Repeats WritesStmt ts) :
    ∃ ss, Stmt.areNormal plainRow ss = true ∧ Written (.body ss) ts := by
  induction h with
  | nil => exact ⟨[], rfl, .nil⟩
  | cons hfirst _ ih =>
      obtain ⟨s, hs, hus⟩ := hfirst
      obtain ⟨ss, hss, hvs⟩ := ih
      refine ⟨s :: ss, ?_, .cons hus hvs⟩
      simp only [Stmt.areNormal, hs, hss, Bool.and_self]

/-! ## Kinds of instructions -/

namespace WritesStmt

theorem block
    (h : (.symbol .lbrace ++ .many (.rule .instruction) ++ .symbol .rbrace
      : Ebnf).Means Nonterminal.Writes ts) : WritesStmt ts := by
  obtain ⟨_, l₁, rfl, hopen⟩ := h.before_symbol
  obtain ⟨us, l, rfl, hus⟩ := hopen.after_symbol
  obtain ⟨ss, hss, hus⟩ := Repeats.body hus
  exact ⟨.block 0 ss, hss, .block hus⟩

/-- The instructions of the two branches may have been taken from different
`if`s. -/
theorem branch
    (h : (.word .if_ ++ .symbol .lparen ++ .rule .condition ++ .symbol .rparen
      ++ .rule .instruction ++ .maybe (.word .else_ ++ .rule .instruction)
      : Ebnf).Means Nonterminal.Writes ts) : WritesStmt ts := by
  obtain ⟨_, ws, rfl, ⟨_, vs, rfl, htest, yes, hyes, hvs⟩, helse⟩ := h
  obtain ⟨e, us, l, l₁, l₂, rfl, he, hus⟩ := writesTest_parens htest
  have hopen : (Stmt.branch 0 e yes none).isNormal plainRow = true := by
    simp only [Stmt.isNormal, he, hyes, Bool.and_self]
  have hthen : Written (.stmt (.branch 0 e yes none))
      (⟨.word .if_, l⟩ :: ⟨.symbol .lparen, l₁⟩ :: us
        ++ [⟨.symbol .rparen, l₂⟩] ++ vs) := by
    rw [List.append_assoc]
    exact .ifThen hus hvs
  rcases helse with rfl | ⟨_, ws, rfl, hk, no, hno, hws⟩
  · rw [List.append_nil]
    exact ⟨.branch 0 e yes none, hopen, hthen⟩
  · obtain ⟨l₃, rfl⟩ := hk.word
    exact hthen.attach hopen rfl hno hws

theorem loop
    (h : (.word .while_ ++ .symbol .lparen ++ .rule .condition
      ++ .symbol .rparen ++ .rule .instruction
      : Ebnf).Means Nonterminal.Writes ts) : WritesStmt ts := by
  obtain ⟨_, vs, rfl, htest, s, hs, hvs⟩ := h
  obtain ⟨e, us, l, l₁, l₂, rfl, he, hus⟩ := writesTest_parens htest
  rw [List.append_assoc]
  refine ⟨.loop 0 e s, ?_, .loop hus hvs⟩
  simp only [Stmt.isNormal, he, hs, Bool.and_self]

theorem count
    (h : (.word .for_ ++ .terminal .ident ++ .symbol .assign ++ .rule .expr
      ++ .symbol .colon ++ .rule .expr ++ .rule .instruction
      : Ebnf).Means Nonterminal.Writes ts) : WritesStmt ts := by
  obtain ⟨_, ws, rfl, ⟨_, vs, rfl, hcolon, f, hf, hvs⟩, s, hs, hws⟩ := h
  obtain ⟨_, l₃, rfl, hstart⟩ := hcolon.before_symbol
  obtain ⟨_, us, rfl, hassign, e, he, hus⟩ := hstart
  obtain ⟨_, l₂, rfl, hhead⟩ := hassign.before_symbol
  obtain ⟨_, _, rfl, hk, hx⟩ := hhead
  obtain ⟨l, rfl⟩ := hk.word
  obtain ⟨x, l₁, rfl⟩ := hx.ident
  have hcount := @Written.count x e f s 0 0 l l₁ l₂ l₃ _ _ _ hus hvs hws
  refine ⟨.count 0 x ⟨0, e, f⟩ s, ?_, ?_⟩
  · simp only [Stmt.isNormal, he, hf, hs, Bool.and_self]
  · simpa only [List.append_assoc, List.cons_append,
      List.nil_append] using hcount

theorem assign {p : Place} {op : AssignOp} {l l₁ : Nat}
    (hp : WrittenPlace p us) (hop : op = .set ∨ p = .var p.name)
    (he : WritesExpr .sum vs) :
    WritesStmt (us ++ [⟨.symbol op.symbol, l⟩] ++ vs
      ++ [⟨.symbol .semicolon, l₁⟩]) := by
  obtain ⟨e, he, hvs⟩ := he
  rw [List.append_assoc us]
  refine ⟨.assign 0 op p e, ?_, .assign hp hvs⟩
  simpa only [Stmt.isNormal, he, Bool.and_true, Bool.or_eq_true,
    decide_eq_true_eq] using hop

theorem jump {k : Keyword} (s : Stmt) (hs : s.isNormal plainRow = true)
    (hwritten : ∀ l l₁,
      Written (.stmt s) [⟨.word k, l⟩, ⟨.symbol .semicolon, l₁⟩])
    (h : (.word k ++ .symbol .semicolon : Ebnf).Means Nonterminal.Writes ts) :
    WritesStmt ts := by
  obtain ⟨_, l₁, rfl, hk⟩ := h.before_symbol
  obtain ⟨l, rfl⟩ := hk.word
  exact ⟨s, hs, hwritten l l₁⟩

theorem ret
    (h : (.word .return_ ++ .rule .expr ++ .symbol .semicolon
      : Ebnf).Means Nonterminal.Writes ts) : WritesStmt ts := by
  obtain ⟨_, l₁, rfl, hvalue⟩ := h.before_symbol
  obtain ⟨_, us, rfl, hk, e, he, hus⟩ := hvalue
  obtain ⟨l, rfl⟩ := hk.word
  exact ⟨.ret 0 e, he, .ret hus⟩

theorem print
    (h : (.word .print ++ .listOf (.rule .expr) ++ .symbol .semicolon
      : Ebnf).Means Nonterminal.Writes ts) : WritesStmt ts := by
  obtain ⟨_, l₁, rfl, hvalues⟩ := h.before_symbol
  obtain ⟨_, us, rfl, hk, hlist⟩ := hvalues
  obtain ⟨l, rfl⟩ := hk.word
  obtain ⟨es, hes, hus⟩ := WritesItems.of_listOf hlist
  have hne : es.isEmpty = false := by
    cases es with
    | nil => cases hus
    | cons => rfl
  refine ⟨.print 0 es, ?_, .print hus⟩
  simp only [Stmt.isNormal, hne, hes, Bool.not_false, Bool.and_self]

theorem instruction
    (h : (Ebnf.grammar .instruction).Means Nonterminal.Writes ts) :
    WritesStmt ts := by
  rcases h with ((((((((hblock | hif) | hwhile) | hfor) | hvariable)
    | helement) | hbreak) | hcontinue) | hreturn) | hprint
  · exact block hblock
  · exact branch hif
  · exact loop hwhile
  · exact count hfor
  · obtain ⟨_, l₁, rfl, _, us, rfl, ⟨_, _, rfl, hx, hop⟩, hus⟩ :=
      hvariable.before_symbol
    obtain ⟨x, _, rfl⟩ := hx.ident
    obtain ⟨op, l, rfl⟩ := assignment_operator hop
    exact assign .var (.inr rfl) hus
  · obtain ⟨_, l₁, rfl, _, us, rfl, hplace, hus⟩ := helement.before_symbol
    obtain ⟨_, l, rfl, hp⟩ := hplace.before_symbol
    obtain ⟨p, hp⟩ := writtenPlace_element hp
    exact assign hp (.inl rfl) hus
  · exact jump (.break_ 0) rfl (fun _ _ => .break_) hbreak
  · exact jump (.continue_ 0) rfl (fun _ _ => .continue_) hcontinue
  · exact ret hreturn
  · exact print hprint

end WritesStmt

/-! ## The language -/

/-- The operators of a level are those of its rule. -/
theorem level_operator (f g : BinaryOp) (hrank : g.rank = f.rank)
    (h : (Ebnf.symbol f.symbol ||| Ebnf.symbol g.symbol).Means
      Nonterminal.Writes ts) :
    ∃ (op : BinaryOp) (l : Nat), op.rank = f.rank
      ∧ ts = [⟨.symbol op.symbol, l⟩] := by
  rcases h with h | h
  · obtain ⟨l, rfl⟩ := h.symbol
    exact ⟨f, l, rfl, rfl⟩
  · obtain ⟨l, rfl⟩ := h.symbol
    exact ⟨g, l, hrank, rfl⟩

/-- What a rule derives writes a tree in normal form. -/
theorem Nonterminal.writes_closed (n : Nonterminal) (ts : List Token)
    (h : (Ebnf.grammar n).Means Nonterminal.Writes ts) : n.Writes ts := by
  cases n with
  | program => exact Repeats.body h
  | instruction => exact WritesStmt.instruction h
  | condition => exact writesTest_condition h
  | expr =>
      exact WritesExpr.chain h (fun _ => level_operator .add .sub rfl)
        fun _ h => h
  | term1 =>
      exact WritesExpr.chain h (fun _ => level_operator .dotAdd .dotSub rfl)
        fun _ h => h
  | term2 =>
      exact WritesExpr.chain h (fun _ => level_operator .mul .div rfl)
        fun _ h => h
  | term3 =>
      exact WritesExpr.chain h (fun _ => level_operator .dotMul .dotDiv rfl)
        fun _ h => h
  | unary =>
      rcases h with hminus | hpostfixed
      · obtain ⟨us, l, rfl, e, he, hus⟩ := hminus.after_symbol
        exact ⟨.neg 0 e, he, .neg hus⟩
      · have htight : WritesExpr (Rank.tighter .unary) ts := hpostfixed
        exact htight.tight
  | postfixed =>
      obtain ⟨us, vs, rfl, hus, hvs⟩ := h
      exact WritesExpr.marks hus hvs
  | primary => exact writesExpr_primary h
  | size => exact writtenSize_rule h

/-- The first end of the input is where the tokens before it stop. -/
theorem eq_of_end {body rest : List Token} {last : Token}
    (hbody : ∀ t ∈ body, t.lexeme.isEof = false)
    (hus : ∀ t ∈ us, t.lexeme.isEof = false) (hlast : last.lexeme.isEof = true)
    (hend : Parse.atEnd rest = true) (h : body ++ [last] = us ++ rest) :
    body = us := by
  induction body generalizing us with
  | nil =>
      cases us with
      | nil => rfl
      | cons u us =>
          obtain ⟨rfl, -⟩ := List.cons.inj h
          have hfalse := hus last List.mem_cons_self
          rw [hlast] at hfalse
          cases hfalse
  | cons t body ih =>
      obtain ⟨ht, hbody⟩ := List.forall_mem_cons.mp hbody
      cases us with
      | nil =>
          rw [List.nil_append] at h
          subst h
          have hfalse : t.lexeme.isEof = true := hend
          rw [ht] at hfalse
          cases hfalse
      | cons u us =>
          obtain ⟨rfl, htail⟩ := List.cons.inj h
          rw [ih hbody (List.forall_mem_cons.mp hus).2 htail]

/-- **The parser accepts exactly what the grammar derives.** Of tokens that end
with the end of the input and have no other end in them, those are parsed
without an error that the grammar derives as a program. -/
theorem parse_errors_eq_nil_iff {body : List Token} (l : Nat)
    (hbody : ∀ t ∈ body, t.lexeme.isEof = false) :
    (parse (body ++ [⟨.eof, l⟩])).errors = [] ↔ Spells
    (.rule .program) body := by
  constructor
  · intro h
    rw [Reader.parse_eof] at h
    obtain ⟨rest, ⟨us, hus, hspells⟩, hend⟩ := Reader.statements_takes h
    rw [eq_of_end hbody hspells.not_eof rfl hend hus]
    exact .rule hspells
  · intro h
    obtain ⟨p, hp, hw⟩ := h.closed Nonterminal.writes_closed
    obtain ⟨p', -, hread⟩ := hw.readsBack hp
    rw [hread.parse l]

/-- `if (x < 1) if (x < 2) y = 1; else y = 2; else y = 3;`: an `else` for each
`if`. -/
def Sample.twoElses : List Token :=
  [.word .if_, .symbol .lparen, .ident "x", .symbol .lt, .int 1,
    .symbol .rparen,
    .word .if_, .symbol .lparen, .ident "x", .symbol .lt, .int 2,
    .symbol .rparen,
    .ident "y", .symbol .assign, .int 1, .symbol .semicolon,
    .word .else_, .ident "y", .symbol .assign, .int 2, .symbol .semicolon,
    .word .else_, .ident "y", .symbol .assign, .int 3, .symbol .semicolon].map
    fun lexeme => ⟨lexeme, 1⟩

theorem parse_errors_eq_nil_iff_twoElses :
    (parse (Sample.twoElses ++ [⟨.eof, 1⟩])).errors = []
      ∧ Spells (.rule .program) Sample.twoElses := by
  have hparse : (parse (Sample.twoElses ++ [⟨.eof, 1⟩])).errors = [] := rfl
  exact ⟨hparse, (parse_errors_eq_nil_iff 1 (by decide)).mp hparse⟩

end MatrixLang
