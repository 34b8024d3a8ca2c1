import MatrixLang.Proofs.Except
import MatrixLang.Proofs.Grammar.Ebnf
import MatrixLang.Tree.Parse

/-!
# What readers accept

A reader that succeeds has taken tokens which its rule derives (`Accepts`). There
is one lemma for each reader, and each follows the text of its reader; the loops
are inductions on their bound. A reader that goes on after tokens which another
one took has a lemma that goes on after what they derive.
-/

namespace MatrixLang.Reader

open Ebnf

variable {a : Ebnf} {ts₀ ts rest : List Token} {n m : Nat}

/-- The reader takes only what the rule derives. -/
def Accepts {α : Type} (read : Reader α) (r : Ebnf) : Prop :=
  ∀ ⦃ts x rest⦄, read ts = .ok (x, rest) → Takes r ts rest

/-! ## Single tokens -/

theorem skip?_takes {s : Symbol} (h : skip? s ts = some rest) :
    Takes (.symbol s) ts rest := by
  unfold skip? at h
  split at h
  · split at h
    · rename_i hs
      subst hs
      cases h
      exact .symbol _ _ _
    · cases h
  · cases h

theorem expect_takes {s : Symbol} (h : expect s ts = .ok rest) :
    Takes (.symbol s) ts rest := by
  unfold expect at h
  split at h
  · rename_i hs
    cases h
    exact skip?_takes hs
  · cases h

theorem integer_accepts : Accepts integer (.terminal .int) := by
  intro ts k rest h
  unfold integer at h
  split at h
  · cases h
    exact .token rfl
  · cases h

theorem identifier_accepts : Accepts identifier (.terminal .ident) := by
  intro ts name rest h
  unfold identifier at h
  split at h
  · cases h
    exact .token rfl
  · cases h

theorem size_accepts : Accepts size (.rule .size) := by
  intro ts k rest h
  unfold size at h
  split at h
  · rename_i hminus
    obtain ⟨⟨k, mid⟩, hk, h⟩ := bind_eq_ok.mp h
    cases h
    exact .rule (.seq (.present (skip?_takes hminus)) (integer_accepts hk))
  · exact .rule (.seq (.absent ts) (integer_accepts h))

/-! ## Lists and levels of operators -/

theorem separated_accepts {α : Type} {item : Reader α} (hitem : Accepts item a) :
    Accepts (separated item n) (listOf a) := by
  intro ts xs rest h
  have hparts : ∃ mid, Takes a ts mid
      ∧ Takes (.many (.symbol .comma ++ a)) mid rest := by
    induction n generalizing ts xs with
    | zero => cases h
    | succ n ih =>
        obtain ⟨⟨x, mid⟩, hx, h⟩ := bind_eq_ok.mp h
        refine ⟨mid, hitem hx, ?_⟩
        simp only at h
        split at h
        · cases h
          exact .stop _
        · rename_i hcomma
          obtain ⟨⟨ys, last⟩, hys, h⟩ := bind_eq_ok.mp h
          cases h
          obtain ⟨next, hnext, hmany⟩ := ih hys
          exact .more (.seq (skip?_takes hcomma) hnext) hmany
  obtain ⟨mid, hfirst, hmany⟩ := hparts
  exact .seq hfirst hmany

/-- A level has the operators of a rule. -/
def Level.Follows (level : Level) (operators : Ebnf) : Prop :=
  ∀ s op line rest, level s = some op →
    Takes operators (⟨.symbol s, line⟩ :: rest) rest

theorem operator?_takes {level : Level} {operators : Ebnf}
    (hlevel : level.Follows operators) {op : BinaryOp}
    (h : operator? level ts = some (op, rest)) : Takes operators ts rest := by
  unfold operator? at h
  split at h
  · obtain ⟨_, hs, hpair⟩ := Option.map_eq_some_iff.mp h
    cases hpair
    exact hlevel _ _ _ _ hs
  · cases h

theorem operations_accepts {level : Level} {operators : Ebnf}
    {operand : Reader Expr} (hlevel : level.Follows operators)
    (hoperand : Accepts operand a) {left : Expr} :
    Accepts (operations level operand n left) (.many (operators ++ a)) := by
  intro ts e rest h
  induction n generalizing ts left with
  | zero => cases h
  | succ n ih =>
      unfold operations at h
      split at h
      · cases h
        exact .stop _
      · rename_i op mid hop
        obtain ⟨⟨right, next⟩, hright, h⟩ := bind_eq_ok.mp h
        have hoperator := operator?_takes hlevel hop
        exact .more (hoperator.seq (hoperand hright)) (ih h)

theorem leveled_accepts {level : Level} {operators : Ebnf}
    {operand : Reader Expr} {r : Nonterminal}
    (hr : grammar r = chain operators a) (hlevel : level.Follows operators)
    (hoperand : Accepts operand a) :
    Accepts (leveled level n operand) (.rule r) := by
  intro ts e rest h
  refine .rule ?_
  rw [hr]
  obtain ⟨⟨left, mid⟩, hleft, h⟩ := bind_eq_ok.mp h
  exact .seq (hoperand hleft) (operations_accepts hlevel hoperand h)

theorem Level.follows {level : Level} {x y : Symbol}
    (h : ∀ s, (level s).isSome = true → s = x ∨ s = y) :
    level.Follows (symbol x ||| symbol y) := by
  intro s op line rest hs
  rcases h s (by rw [hs]; rfl) with rfl | rfl
  · exact .first (.symbol _ _ _)
  · exact .second (.symbol _ _ _)

theorem expressionOf_accepts {operand : Reader Expr}
    (hoperand : Accepts operand (.rule .unary)) :
    Accepts (expressionOf n operand) (.rule .expr) := by
  have hterm3 : Accepts (leveled dotProductLevel n operand) (.rule .term3) :=
    leveled_accepts rfl (Level.follows fun s => by cases s <;> decide) hoperand
  have hterm2 : Accepts (leveled productLevel n (leveled dotProductLevel n
      operand)) (.rule .term2) :=
    leveled_accepts rfl (Level.follows fun s => by cases s <;> decide) hterm3
  have hterm1 : Accepts (leveled dotSumLevel n (leveled productLevel n
      (leveled dotProductLevel n operand))) (.rule .term1) :=
    leveled_accepts rfl (Level.follows fun s => by cases s <;> decide) hterm2
  exact leveled_accepts rfl (Level.follows fun s => by cases s <;> decide) hterm1

/-! ## Primaries -/

theorem indices_takes {name : String} {l : Nat} {mid : List Token} {p : Place}
    (hbracket : skip? .lbracket ts = some mid)
    (h : indices name mid = .ok (p, rest)) :
    Takes element (⟨.ident name, l⟩ :: ts) rest := by
  have hhead : Takes (.terminal .ident ++ symbol .lbracket)
      (⟨.ident name, l⟩ :: ts) mid :=
    .seq (.token rfl) (skip?_takes hbracket)
  obtain ⟨⟨i, next⟩, hi, h⟩ := bind_eq_ok.mp h
  have hrow := hhead.seq (integer_accepts hi)
  simp only at h
  split at h
  · obtain ⟨last, hlast, h⟩ := bind_eq_ok.mp h
    cases h
    exact .first (hrow.seq (expect_takes hlast))
  · rename_i hcomma
    obtain ⟨⟨j, last⟩, hj, h⟩ := bind_eq_ok.mp h
    obtain ⟨_, hend, h⟩ := bind_eq_ok.mp h
    cases h
    exact .second (((hrow.seq (skip?_takes hcomma)).seq (integer_accepts hj)).seq
      (expect_takes hend))

/-- The sizes of a constructor go on after its keyword. -/
theorem dims_takes {d : Dims} (ha : Takes a ts₀ ts)
    (h : dims ts = .ok (d, rest)) :
    Takes (a ++ symbol .lparen ++ .rule .size
      ++ .maybe (symbol .comma ++ .rule .size) ++ symbol .rparen) ts₀ rest := by
  obtain ⟨ts₁, hparen, h⟩ := bind_eq_ok.mp h
  obtain ⟨⟨m, ts₂⟩, hm, h⟩ := bind_eq_ok.mp h
  have hhead := (ha.seq (expect_takes hparen)).seq (size_accepts hm)
  simp only at h
  split at h
  · obtain ⟨ts₃, hend, h⟩ := bind_eq_ok.mp h
    cases h
    exact (hhead.seq (.absent ts₂)).seq (expect_takes hend)
  · rename_i hcomma
    obtain ⟨⟨n, ts₃⟩, hn, h⟩ := bind_eq_ok.mp h
    obtain ⟨ts₄, hend, h⟩ := bind_eq_ok.mp h
    cases h
    exact (hhead.seq (.present (.seq (skip?_takes hcomma) (size_accepts hn)))).seq
      (expect_takes hend)

theorem transpositions_takes {e e' : Expr}
    (h : transpositions e ts = (e', rest)) :
    Takes (.many (symbol .quote)) ts rest := by
  induction ts generalizing e with
  | nil =>
      cases h
      exact .stop []
  | cons t ts ih =>
      unfold transpositions at h
      split at h
      · rename_i heq
        cases heq
        exact .more (.symbol _ _ _) (ih h)
      · cases h
        exact .stop _

theorem constructor?_takes {k : Keyword} {f : Constructor} {l : Nat}
    (h : constructor? k = some f) :
    Takes (word .zeros ||| word .ones ||| word .eye)
      (⟨.word k, l⟩ :: rest) rest := by
  cases k <;> cases h
  · exact .alternative 2 rfl (.word _ _ _)
  · exact .alternative 0 rfl (.word _ _ _)
  · exact .alternative 1 rfl (.word _ _ _)

/-- The alternatives of a primary, each from the tokens it takes. -/
theorem primaryOf_accepts {expression : Reader Expr}
    (hexpr : Accepts expression (.rule .expr)) :
    Accepts (primaryOf n expression) (.rule .primary) := by
  intro ts e rest h
  refine .rule ?_
  unfold primaryOf at h
  split at h
  · cases h
    exact .alternative 0 rfl (.token rfl)
  · cases h
    exact .alternative 1 rfl (.token rfl)
  · cases h
    exact .alternative 2 rfl (.token rfl)
  · split at h
    · cases h
      exact .alternative 3 rfl (.token rfl)
    · rename_i hbracket
      obtain ⟨⟨p, _⟩, hp, h⟩ := bind_eq_ok.mp h
      cases h
      exact .alternative 4 rfl (indices_takes hbracket hp)
  · obtain ⟨⟨e, mid⟩, he, h⟩ := bind_eq_ok.mp h
    obtain ⟨_, hend, h⟩ := bind_eq_ok.mp h
    cases h
    exact .alternative 5 rfl
      (((Takes.symbol _ _ _).seq (hexpr he)).seq (expect_takes hend))
  · unfold bracketList at h
    split at h
    · rename_i hend
      cases h
      exact .alternative 6 rfl ((Takes.symbol _ _ _).seq (skip?_takes hend))
    · obtain ⟨⟨es, mid⟩, hes, h⟩ := bind_eq_ok.mp h
      obtain ⟨_, hend, h⟩ := bind_eq_ok.mp h
      cases h
      have hitems := separated_accepts hexpr hes
      exact .alternative 7 rfl
        (((Takes.symbol _ _ _).seq hitems).seq (expect_takes hend))
  · split at h
    · cases h
    · rename_i hf
      obtain ⟨⟨d, _⟩, hd, h⟩ := bind_eq_ok.mp h
      cases h
      exact .alternative 8 rfl (dims_takes (constructor?_takes hf) hd)
  · cases h

/-! ## Expressions -/

theorem unary_accepts : Accepts (unary n) (.rule .unary) := by
  intro ts e rest h
  induction n generalizing ts e rest with
  | zero => cases h
  | succ n ih =>
      refine .rule ?_
      unfold unary at h
      split at h
      · obtain ⟨⟨e, _⟩, he, h⟩ := bind_eq_ok.mp h
        cases h
        exact .first ((Takes.symbol _ _ _).seq (ih he))
      · obtain ⟨⟨e, mid⟩, he, h⟩ := bind_eq_ok.mp h
        have hprimary := primaryOf_accepts (expressionOf_accepts ih) he
        have hmarks := transpositions_takes (Except.ok.inj h)
        exact .second (.rule (hprimary.seq hmarks))

theorem expression_accepts : Accepts (expression n) (.rule .expr) :=
  expressionOf_accepts unary_accepts

/-! ## Statements -/

theorem relation_accepts :
    Accepts relation (symbol .eq ||| symbol .ne ||| symbol .lt ||| symbol .gt
      ||| symbol .le ||| symbol .ge) := by
  intro ts op rest h
  unfold relation at h
  split at h
  · rename_i s line mid
    have htoken := Takes.symbol s line mid
    split at h
    · rename_i hs
      cases h
      cases s <;> cases hs
      · exact .alternative 4 rfl htoken
      · exact .alternative 5 rfl htoken
      · exact .alternative 1 rfl htoken
      · exact .alternative 0 rfl htoken
      · exact .alternative 2 rfl htoken
      · exact .alternative 3 rfl htoken
    · cases h
  · cases h

theorem condition_accepts : Accepts (condition n) (.rule .condition) := by
  intro ts e rest h
  obtain ⟨⟨left, _⟩, hleft, h⟩ := bind_eq_ok.mp h
  obtain ⟨⟨op, _⟩, hop, h⟩ := bind_eq_ok.mp h
  obtain ⟨⟨right, _⟩, hright, h⟩ := bind_eq_ok.mp h
  cases h
  have hhead := (expression_accepts hleft).seq (relation_accepts hop)
  exact .rule (hhead.seq (expression_accepts hright))

/-- A condition in parentheses goes on after its keyword. -/
theorem test_takes {e : Expr} (ha : Takes a ts₀ ts)
    (h : test n ts = .ok (e, rest)) :
    Takes (a ++ symbol .lparen ++ .rule .condition ++ symbol .rparen)
      ts₀ rest := by
  obtain ⟨_, hparen, h⟩ := bind_eq_ok.mp h
  obtain ⟨⟨e, _⟩, he, h⟩ := bind_eq_ok.mp h
  obtain ⟨_, hend, h⟩ := bind_eq_ok.mp h
  cases h
  have hopen := (ha.seq (expect_takes hparen)).seq (condition_accepts he)
  exact hopen.seq (expect_takes hend)

theorem assignOp_accepts :
    Accepts assignOp (symbol .assign ||| symbol .addAssign
      ||| symbol .subAssign ||| symbol .mulAssign ||| symbol .divAssign) := by
  intro ts op rest h
  unfold assignOp at h
  split at h
  · rename_i s line mid
    have htoken := Takes.symbol s line mid
    split at h
    · rename_i hs
      cases h
      cases s <;> cases hs
      · exact .alternative 1 rfl htoken
      · exact .alternative 2 rfl htoken
      · exact .alternative 3 rfl htoken
      · exact .alternative 4 rfl htoken
      · exact .alternative 0 rfl htoken
    · cases h
  · cases h

/-- The two kinds of assignments, which start with the same token. -/
theorem assignment_takes {line : Nat} {name : String} {s : Stmt} {l : Nat}
    (h : assignment n line name ts = .ok (s, rest)) :
    Takes (.rule .instruction) (⟨.ident name, l⟩ :: ts) rest := by
  refine .rule ?_
  unfold assignment at h
  split at h
  · obtain ⟨⟨op, _⟩, hop, h⟩ := bind_eq_ok.mp h
    obtain ⟨⟨e, _⟩, he, h⟩ := bind_eq_ok.mp h
    obtain ⟨_, hend, h⟩ := bind_eq_ok.mp h
    cases h
    have hname : Takes (.terminal .ident) (⟨.ident name, l⟩ :: ts) ts :=
      .token rfl
    have hvalue := (hname.seq (assignOp_accepts hop)).seq (expression_accepts he)
    exact .alternative 4 rfl (hvalue.seq (expect_takes hend))
  · rename_i hbracket
    obtain ⟨⟨p, _⟩, hp, h⟩ := bind_eq_ok.mp h
    obtain ⟨_, hset, h⟩ := bind_eq_ok.mp h
    obtain ⟨⟨e, _⟩, he, h⟩ := bind_eq_ok.mp h
    obtain ⟨_, hend, h⟩ := bind_eq_ok.mp h
    cases h
    have hplace : Takes element (⟨.ident name, l⟩ :: ts) _ :=
      indices_takes hbracket hp
    have hvalue := (hplace.seq (expect_takes hset)).seq (expression_accepts he)
    exact .alternative 5 rfl (hvalue.seq (expect_takes hend))

/-- The header of a `for` loop goes on after its keyword. -/
theorem header_takes {x : String × Range} (ha : Takes a ts₀ ts)
    (h : header n ts = .ok (x, rest)) :
    Takes (a ++ .terminal .ident ++ symbol .assign ++ .rule .expr
      ++ symbol .colon ++ .rule .expr) ts₀ rest := by
  obtain ⟨⟨var, _⟩, hvar, h⟩ := bind_eq_ok.mp h
  obtain ⟨_, hset, h⟩ := bind_eq_ok.mp h
  obtain ⟨⟨start, _⟩, hstart, h⟩ := bind_eq_ok.mp h
  obtain ⟨_, hcolon, h⟩ := bind_eq_ok.mp h
  obtain ⟨⟨stop, _⟩, hstop, h⟩ := bind_eq_ok.mp h
  cases h
  have hname := (ha.seq (identifier_accepts hvar)).seq (expect_takes hset)
  have hfirst := (hname.seq (expression_accepts hstart)).seq (expect_takes hcolon)
  exact hfirst.seq (expression_accepts hstop)

section

variable {st : Reader Stmt} (hst : Accepts st (.rule .instruction))

include hst

theorem blockRest_takes {ss : List Stmt} (ha : Takes a ts₀ ts)
    (h : blockRest st n ts = .ok (ss, rest)) :
    Takes (a ++ .many (.rule .instruction) ++ symbol .rbrace) ts₀ rest := by
  have hparts : ∃ mid, Takes (.many (.rule .instruction)) ts mid
      ∧ Takes (symbol .rbrace) mid rest := by
    clear ha
    induction n generalizing ts ss with
    | zero => cases h
    | succ n ih =>
        unfold blockRest at h
        split at h
        · rename_i hend
          cases h
          exact ⟨ts, .stop ts, skip?_takes hend⟩
        · obtain ⟨⟨s, _⟩, hs, h⟩ := bind_eq_ok.mp h
          obtain ⟨⟨ss, _⟩, hss, h⟩ := bind_eq_ok.mp h
          cases h
          obtain ⟨mid, hmany, hend⟩ := ih hss
          exact ⟨mid, .more (hst hs) hmany, hend⟩
  obtain ⟨mid, hmany, hend⟩ := hparts
  exact (ha.seq hmany).seq hend

theorem elseBranch_accepts :
    Accepts (elseBranch st) (.maybe (word .else_ ++ .rule .instruction)) := by
  intro ts no rest h
  unfold elseBranch at h
  split at h
  · obtain ⟨⟨s, _⟩, hs, h⟩ := bind_eq_ok.mp h
    cases h
    exact .present ((Takes.word _ _ _).seq (hst hs))
  · cases h
    exact .absent _

end

/-- The alternatives of an instruction, each from its first token on. -/
theorem statement_accepts : Accepts (statement n) (.rule .instruction) := by
  intro ts s rest h
  induction n generalizing ts s rest with
  | zero => cases h
  | succ n ih =>
      unfold statement at h
      split at h
      · obtain ⟨⟨body, _⟩, hbody, h⟩ := bind_eq_ok.mp h
        cases h
        exact .rule (.alternative 0 rfl
          (blockRest_takes ih (.symbol _ _ _) hbody))
      · obtain ⟨⟨e, _⟩, he, h⟩ := bind_eq_ok.mp h
        obtain ⟨⟨yes, _⟩, hyes, h⟩ := bind_eq_ok.mp h
        obtain ⟨⟨no, _⟩, hno, h⟩ := bind_eq_ok.mp h
        cases h
        have helse := elseBranch_accepts ih hno
        exact .rule (.alternative 1 rfl
          (((test_takes (.word _ _ _) he).seq (ih hyes)).seq helse))
      · obtain ⟨⟨e, _⟩, he, h⟩ := bind_eq_ok.mp h
        obtain ⟨⟨body, _⟩, hbody, h⟩ := bind_eq_ok.mp h
        cases h
        exact .rule (.alternative 2 rfl
          ((test_takes (.word _ _ _) he).seq (ih hbody)))
      · obtain ⟨⟨⟨var, range⟩, _⟩, hheader, h⟩ := bind_eq_ok.mp h
        obtain ⟨⟨body, _⟩, hbody, h⟩ := bind_eq_ok.mp h
        cases h
        exact .rule (.alternative 3 rfl
          ((header_takes (.word _ _ _) hheader).seq (ih hbody)))
      · obtain ⟨_, hend, h⟩ := bind_eq_ok.mp h
        cases h
        exact .rule (.alternative 6 rfl
          ((Takes.word _ _ _).seq (expect_takes hend)))
      · obtain ⟨_, hend, h⟩ := bind_eq_ok.mp h
        cases h
        exact .rule (.alternative 7 rfl
          ((Takes.word _ _ _).seq (expect_takes hend)))
      · obtain ⟨⟨e, _⟩, he, h⟩ := bind_eq_ok.mp h
        obtain ⟨_, hend, h⟩ := bind_eq_ok.mp h
        cases h
        have hvalue := expression_accepts he
        exact .rule (.alternative 8 rfl
          (((Takes.word _ _ _).seq hvalue).seq (expect_takes hend)))
      · obtain ⟨⟨es, _⟩, hes, h⟩ := bind_eq_ok.mp h
        obtain ⟨_, hend, h⟩ := bind_eq_ok.mp h
        cases h
        have hvalues := separated_accepts expression_accepts hes
        exact .rule (.alternative 9 rfl
          (((Takes.word _ _ _).seq hvalues).seq (expect_takes hend)))
      · exact assignment_takes h
      · cases h

/-! ## Programs -/

/-- Without an error, statements are read up to the end of the input. -/
theorem statements_takes (h : (Parse.statements n ts).errors = []) :
    ∃ rest, Takes (.many (.rule .instruction)) ts rest
      ∧ Parse.atEnd rest = true := by
  induction n generalizing ts with
  | zero => cases h
  | succ n ih =>
      unfold Parse.statements at h
      split at h
      · rename_i hend
        exact ⟨ts, .stop ts, hend⟩
      · split at h
        · cases h
        · rename_i s mid hs
          obtain ⟨rest, hmany, hend⟩ := ih h
          exact ⟨rest, .more (statement_accepts hs) hmany, hend⟩

end MatrixLang.Reader
