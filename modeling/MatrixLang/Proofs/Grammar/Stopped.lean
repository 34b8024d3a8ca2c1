import MatrixLang.Proofs.Grammar.Accepted
import MatrixLang.Proofs.Grammar.Viable

/-!
# Where readers stop

A reader that gives no value stops at a token, and the tokens before it begin a
word of the reader's rule (`Stalls`). So a reader takes no token off that leads
nowhere. Nor does it ever run out of the bound on the nesting: with more bound
than tokens every stop is at a token.

The lemmas go along with those on what readers accept: a part that was read
takes tokens (`Takes`), and the part that stopped reaches into its own rule
(`Reaches`), which is enough, as the parts behind it can always follow.
-/

namespace MatrixLang.Reader

open Ebnf

variable {α : Type} {a : Ebnf} {ts₀ ts rest : List Token} {stop : Stop} {n m : Nat}

/-- The reading stopped at a token, and the rule goes along up to there. -/
def Stuck (r : Ebnf) (ts : List Token) (stop : Stop) : Prop :=
  ∃ rest, stop = .unexpected rest ∧ Reaches r ts rest

theorem Stuck.here (r : Ebnf) (ts : List Token) : Stuck r ts (.unexpected ts) :=
  ⟨ts, rfl, .here r ts⟩

/-- A stop inside a part is one inside the whole. -/
theorem Stuck.imp {r : Ebnf} (h : Stuck a ts stop)
    (hr : ∀ rest, Reaches a ts rest → Reaches r ts₀ rest) : Stuck r ts₀ stop := by
  obtain ⟨rest, rfl, hreach⟩ := h
  exact ⟨rest, rfl, hr rest hreach⟩

/-- On fewer than `n` tokens, the reader stops only where its rule could have
gone on. -/
def Stalls (n : Nat) (read : Reader α) (r : Ebnf) : Prop :=
  ∀ ⦃ts stop⦄, ts.length < n → read ts = .error stop → Stuck r ts stop

/-! ## Single tokens -/

theorem expect_stuck {s : Symbol} (h : expect s ts = .error stop) :
    Stuck (.symbol s) ts stop := by
  unfold expect at h
  split at h
  · cases h
  · cases h
    exact .here _ ts

theorem integer_stuck (h : integer ts = .error stop) :
    Stuck (.terminal .int) ts stop := by
  unfold integer at h
  split at h
  · cases h
  · cases h
    exact .here _ ts

theorem identifier_stuck (h : identifier ts = .error stop) :
    Stuck (.terminal .ident) ts stop := by
  unfold identifier at h
  split at h
  · cases h
  · cases h
    exact .here _ ts

/-- Reads a symbol and looks up what it stands for. -/
def tabled (table : Symbol → Option α) : Reader α
  | ⟨.symbol s, line⟩ :: ts =>
      match table s with
      | some x => .ok (x, ts)
      | none => .error (.unexpected (⟨.symbol s, line⟩ :: ts))
  | ts => .error (.unexpected ts)

theorem relation_eq_tabled : relation = tabled relation? := by
  funext ts
  fun_cases relation ts <;> simp_all [tabled]

theorem assignOp_eq_tabled : assignOp = tabled assignOp? := by
  funext ts
  fun_cases assignOp ts <;> simp_all [tabled]

theorem tabled_stuck {table : Symbol → Option α} (r : Ebnf)
    (h : tabled table ts = .error stop) : Stuck r ts stop := by
  unfold tabled at h
  split at h
  · split at h
    · cases h
    · cases h
      exact .here _ _
  · cases h
    exact .here _ _

theorem size_stuck (h : size ts = .error stop) : Stuck (.rule .size) ts stop := by
  unfold size at h
  split at h
  · rename_i hminus
    have hsign := (skip?_takes hminus).imp fun _ => Spells.present
    rcases bind_eq_error.mp h with h | ⟨⟨k, mid⟩, -, h⟩
    · exact (integer_stuck h).imp fun _ hr => .rule (hsign.reaches hr)
    · cases h
  · exact (integer_stuck h).imp fun _ hr => .rule ((Takes.absent ts).reaches hr)

/-! ## Lists and levels of operators -/

section

variable {item : Reader α} (hsolid : a.isSolid = true) (haccepts : Accepts item a)
  (hstalls : Stalls n item a)

include hsolid haccepts hstalls

theorem separated_stuck (hn : ts.length < n) (hm : ts.length < m)
    (h : separated item m ts = .error stop) : Stuck (listOf a) ts stop := by
  induction m generalizing ts with
  | zero => omega
  | succ m ih =>
      rcases bind_eq_error.mp h with h | ⟨⟨x, mid⟩, hx, h⟩
      · exact (hstalls hn h).imp fun _ => .left
      · have hfirst := haccepts hx
        have hmid := hfirst.length_lt hsolid
        simp only at h
        split at h
        · cases h
        · rename_i next hcomma
          have hskip := skip?_takes hcomma
          have hnext := hskip.length_le
          rcases bind_eq_error.mp h with h | ⟨_, -, h⟩
          · refine (ih (by omega) (by omega) h).imp fun rest hr => hfirst.reaches ?_
            -- the list after the comma is one more item and then the others
            refine (hskip.reaches hr).imp ?_
            intro us hus
            cases hus with
            | seq hc hlist =>
                cases hlist with
                | seq hitem hmany =>
                    rw [← List.append_assoc]
                    exact .more (.seq hc hitem) hmany
          · cases h

end

section

variable {operators : Ebnf} {level : Level} {operand : Reader Expr}
  (hlevel : level.Follows operators) (hsolid : a.isSolid = true)
  (haccepts : Accepts operand a) (hstalls : Stalls n operand a)

include hlevel hsolid haccepts hstalls

theorem operations_stuck {left : Expr} (hn : ts.length < n) (hm : ts.length < m)
    (h : operations level operand m left ts = .error stop) :
    Stuck (.many (operators ++ a)) ts stop := by
  induction m generalizing ts left with
  | zero => omega
  | succ m ih =>
      unfold operations at h
      split at h
      · cases h
      · rename_i op mid hop
        have hoperator := operator?_takes hlevel hop
        have hmid := hoperator.length_le
        rcases bind_eq_error.mp h with h | ⟨⟨right, next⟩, hright, h⟩
        · exact (hstalls (by omega) h).imp fun _ hr =>
            .item (hoperator.reaches hr)
        · have hoperand := haccepts hright
          have hnext := hoperand.length_lt hsolid
          exact (ih (by omega) (by omega) h).imp fun _ hr =>
            (hoperator.seq hoperand).reaches_more hr

theorem leveled_stalls {r : Nonterminal} (hr : grammar r = chain operators a) :
    Stalls n (leveled level n operand) (.rule r) := by
  intro ts stop hn h
  rcases bind_eq_error.mp h with h | ⟨⟨left, mid⟩, hleft, h⟩
  · refine (hstalls hn h).imp fun rest hreach => .rule ?_
    rw [hr]
    exact hreach.left
  · have htakes := haccepts hleft
    have hmid := htakes.length_le
    refine (operations_stuck hlevel hsolid haccepts hstalls (by omega) (by omega)
      h).imp fun rest hreach => .rule ?_
    rw [hr]
    exact htakes.reaches hreach

end

theorem expressionOf_stalls {operand : Reader Expr}
    (haccepts : Accepts operand (.rule .unary))
    (hstalls : Stalls n operand (.rule .unary)) :
    Stalls n (expressionOf n operand) (.rule .expr) := by
  have hdotProduct : dotProductLevel.Follows _ :=
    Level.follows (x := .dotMul) (y := .dotDiv) fun s => by cases s <;> decide
  have hproduct : productLevel.Follows _ :=
    Level.follows (x := .star) (y := .slash) fun s => by cases s <;> decide
  have hdotSum : dotSumLevel.Follows _ :=
    Level.follows (x := .dotAdd) (y := .dotSub) fun s => by cases s <;> decide
  have hsum : sumLevel.Follows _ :=
    Level.follows (x := .plus) (y := .minus) fun s => by cases s <;> decide
  have haccepts₃ : Accepts (leveled dotProductLevel n operand) (.rule .term3) :=
    leveled_accepts rfl hdotProduct haccepts
  have haccepts₂ : Accepts (leveled productLevel n _) (.rule .term2) :=
    leveled_accepts rfl hproduct haccepts₃
  have haccepts₁ : Accepts (leveled dotSumLevel n _) (.rule .term1) :=
    leveled_accepts rfl hdotSum haccepts₂
  have hstalls₃ : Stalls n (leveled dotProductLevel n operand) (.rule .term3) :=
    leveled_stalls hdotProduct rfl haccepts hstalls rfl
  have hstalls₂ : Stalls n (leveled productLevel n _) (.rule .term2) :=
    leveled_stalls hproduct rfl haccepts₃ hstalls₃ rfl
  have hstalls₁ : Stalls n (leveled dotSumLevel n _) (.rule .term1) :=
    leveled_stalls hdotSum rfl haccepts₂ hstalls₂ rfl
  exact leveled_stalls hsum rfl haccepts₁ hstalls₁ rfl

/-! ## Primaries -/

theorem indices_stuck {name : String} {l : Nat} {mid : List Token}
    (hbracket : skip? .lbracket ts = some mid)
    (h : indices name mid = .error stop) :
    Stuck element (⟨.ident name, l⟩ :: ts) stop := by
  have hhead : Takes (.terminal .ident ++ symbol .lbracket)
      (⟨.ident name, l⟩ :: ts) mid :=
    .seq (.token rfl) (skip?_takes hbracket)
  rcases bind_eq_error.mp h with h | ⟨⟨i, next⟩, hi, h⟩
  · exact (integer_stuck h).imp fun _ hr => (hhead.reaches hr).left.first
  · have hrow := hhead.seq (integer_accepts hi)
    simp only at h
    split at h
    · rcases bind_eq_error.mp h with h | ⟨_, -, h⟩
      · exact (expect_stuck h).imp fun _ hr => (hrow.reaches hr).first
      · cases h
    · rename_i hcomma
      have hrest := hrow.seq (skip?_takes hcomma)
      rcases bind_eq_error.mp h with h | ⟨⟨j, last⟩, hj, h⟩
      · exact (integer_stuck h).imp fun _ hr => (hrest.reaches hr).left.second
      · rcases bind_eq_error.mp h with h | ⟨_, -, h⟩
        · exact (expect_stuck h).imp fun _ hr =>
            ((hrest.seq (integer_accepts hj)).reaches hr).second
        · cases h

/-- The sizes of a constructor go on after its keyword. -/
theorem dims_stuck (ha : Takes a ts₀ ts) (h : dims ts = .error stop) :
    Stuck (a ++ symbol .lparen ++ .rule .size
      ++ .maybe (symbol .comma ++ .rule .size) ++ symbol .rparen) ts₀ stop := by
  rcases bind_eq_error.mp h with h | ⟨ts₁, hparen, h⟩
  · exact (expect_stuck h).imp fun _ hr => (ha.reaches hr).left.left.left
  have hopen := ha.seq (expect_takes hparen)
  rcases bind_eq_error.mp h with h | ⟨⟨m, ts₂⟩, hm, h⟩
  · exact (size_stuck h).imp fun _ hr => (hopen.reaches hr).left.left
  have hhead := hopen.seq (size_accepts hm)
  simp only at h
  split at h
  · rcases bind_eq_error.mp h with h | ⟨_, -, h⟩
    · exact (expect_stuck h).imp fun _ hr =>
        (hhead.seq (.absent ts₂)).reaches hr
    · cases h
  · rename_i hcomma
    have hskip := skip?_takes hcomma
    rcases bind_eq_error.mp h with h | ⟨⟨n, ts₃⟩, hn, h⟩
    · exact (size_stuck h).imp fun _ hr =>
        (hhead.reaches (hskip.reaches hr).present).left
    · have hsizes := hhead.seq (.present (hskip.seq (size_accepts hn)))
      rcases bind_eq_error.mp h with h | ⟨_, -, h⟩
      · exact (expect_stuck h).imp fun _ hr => hsizes.reaches hr
      · cases h

/-- The alternatives of a primary, each from where it can stop. -/
theorem primaryOf_stalls {expression : Reader Expr}
    (haccepts : Accepts expression (.rule .expr))
    (hstalls : Stalls n expression (.rule .expr)) :
    Stalls (n + 1) (primaryOf n expression) (.rule .primary) := by
  intro ts stop hlen h
  unfold primaryOf at h
  split at h
  · cases h
  · cases h
  · cases h
  · split at h
    · cases h
    · rename_i hbracket
      rcases bind_eq_error.mp h with h | ⟨_, -, h⟩
      · exact (indices_stuck hbracket h).imp fun _ hr =>
          .rule (.alternative 4 rfl hr)
      · cases h
  · rename_i l us
    have hopen := Takes.symbol .lparen l us
    rw [List.length_cons] at hlen
    rcases bind_eq_error.mp h with h | ⟨⟨e, mid⟩, he, h⟩
    · exact (hstalls (by omega) h).imp fun _ hr =>
        .rule (.alternative 5 rfl (hopen.reaches hr).left)
    · rcases bind_eq_error.mp h with h | ⟨_, -, h⟩
      · exact (expect_stuck h).imp fun _ hr =>
          .rule (.alternative 5 rfl ((hopen.seq (haccepts he)).reaches hr))
      · cases h
  · rename_i l us
    have hopen := Takes.symbol .lbracket l us
    rw [List.length_cons] at hlen
    unfold bracketList at h
    split at h
    · cases h
    · rcases bind_eq_error.mp h with h | ⟨⟨es, mid⟩, hes, h⟩
      · exact (separated_stuck rfl haccepts hstalls (by omega) (by omega) h).imp
          fun _ hr => .rule (.alternative 7 rfl (hopen.reaches hr).left)
      · have hitems := hopen.seq (separated_accepts haccepts hes)
        rcases bind_eq_error.mp h with h | ⟨_, -, h⟩
        · exact (expect_stuck h).imp fun _ hr =>
            .rule (.alternative 7 rfl (hitems.reaches hr))
        · cases h
  · split at h
    · cases h
      exact .here _ _
    · rename_i hf
      rcases bind_eq_error.mp h with h | ⟨_, -, h⟩
      · exact (dims_stuck (constructor?_takes hf) h).imp fun _ hr =>
          .rule (.alternative 8 rfl hr)
      · cases h
  · cases h
    exact .here _ _

/-! ## Expressions -/

theorem unary_stalls : Stalls n (unary n) (.rule .unary) := by
  intro ts stop hlen h
  induction n generalizing ts stop with
  | zero => omega
  | succ n ih =>
      unfold unary at h
      split at h
      · rename_i l us
        rw [List.length_cons] at hlen
        rcases bind_eq_error.mp h with h | ⟨_, -, h⟩
        · exact (ih (by omega) h).imp fun _ hr =>
            .rule ((Takes.symbol .minus l us).reaches hr).first
        · cases h
      · rcases bind_eq_error.mp h with h | ⟨_, -, h⟩
        · have hexpr := expressionOf_stalls (n := n) unary_accepts
            fun ts stop hlen h => ih hlen h
          exact (primaryOf_stalls (expressionOf_accepts unary_accepts) hexpr hlen
            h).imp fun _ hr => .rule (.second (.rule hr.left))
        · cases h

theorem expression_stalls : Stalls n (expression n) (.rule .expr) :=
  expressionOf_stalls unary_accepts unary_stalls

/-! ## Statements -/

theorem condition_stalls : Stalls n (condition n) (.rule .condition) := by
  intro ts stop hlen h
  rcases bind_eq_error.mp h with h | ⟨⟨left, ts₁⟩, hleft, h⟩
  · exact (expression_stalls hlen h).imp fun _ hr => .rule hr.left.left
  have htakes := expression_accepts hleft
  rcases bind_eq_error.mp h with h | ⟨⟨op, ts₂⟩, hop, h⟩
  · exact (tabled_stuck _ (relation_eq_tabled ▸ h)).imp fun _ hr =>
      .rule (htakes.reaches hr).left
  have hhead := htakes.seq (relation_accepts hop)
  have hshorter := hhead.length_le
  rcases bind_eq_error.mp h with h | ⟨_, -, h⟩
  · exact (expression_stalls (by omega) h).imp fun _ hr =>
      .rule (hhead.reaches hr)
  · cases h

/-- A condition in parentheses goes on after its keyword. -/
theorem test_stuck (ha : Takes a ts₀ ts) (hlen : ts.length < n)
    (h : test n ts = .error stop) :
    Stuck (a ++ symbol .lparen ++ .rule .condition ++ symbol .rparen)
      ts₀ stop := by
  rcases bind_eq_error.mp h with h | ⟨ts₁, hparen, h⟩
  · exact (expect_stuck h).imp fun _ hr => (ha.reaches hr).left.left
  have hopen := expect_takes hparen
  have hshorter := hopen.length_le
  rcases bind_eq_error.mp h with h | ⟨⟨e, ts₂⟩, he, h⟩
  · exact (condition_stalls (by omega) h).imp fun _ hr =>
      ((ha.seq hopen).reaches hr).left
  rcases bind_eq_error.mp h with h | ⟨_, -, h⟩
  · exact (expect_stuck h).imp fun _ hr =>
      ((ha.seq hopen).seq (condition_accepts he)).reaches hr
  · cases h

/-- An expression and a semicolon after tokens that another reader took. -/
theorem value_stuck {s : Expr → Stmt} (ha : Takes a ts₀ ts)
    (hlen : ts.length < n)
    (h : (do
      let (e, ts) ← expression n ts
      let ts ← expect .semicolon ts
      .ok (s e, ts)) = Except.error stop) :
    Stuck (a ++ .rule .expr ++ symbol .semicolon) ts₀ stop := by
  rcases bind_eq_error.mp h with h | ⟨⟨e, ts₁⟩, he, h⟩
  · exact (expression_stalls hlen h).imp fun _ hr => (ha.reaches hr).left
  rcases bind_eq_error.mp h with h | ⟨_, -, h⟩
  · exact (expect_stuck h).imp fun _ hr =>
      (ha.seq (expression_accepts he)).reaches hr
  · cases h

/-- The two kinds of assignments, which start with the same token. -/
theorem assignment_stuck {line : Nat} {name : String} {l : Nat}
    (hlen : ts.length < n) (h : assignment n line name ts = .error stop) :
    Stuck (.rule .instruction) (⟨.ident name, l⟩ :: ts) stop := by
  unfold assignment at h
  split at h
  · have hname : Takes (.terminal .ident) (⟨.ident name, l⟩ :: ts) ts :=
      .token rfl
    rcases bind_eq_error.mp h with h | ⟨⟨op, ts₁⟩, hop, h⟩
    · exact (tabled_stuck _ (assignOp_eq_tabled ▸ h)).imp fun _ hr =>
        .rule (.alternative 4 rfl (hname.reaches hr).left.left)
    · have hassign := assignOp_accepts hop
      have hshorter := hassign.length_le
      exact (value_stuck (hname.seq hassign) (by omega) h).imp fun _ hr =>
        .rule (.alternative 4 rfl hr)
  · rename_i us hbracket
    have hskip := (skip?_takes hbracket).length_le
    rcases bind_eq_error.mp h with h | ⟨⟨p, ts₁⟩, hp, h⟩
    · exact (indices_stuck hbracket h).imp fun _ hr =>
        .rule (.alternative 5 rfl hr.left.left.left)
    have hplace : Takes element (⟨.ident name, l⟩ :: ts) ts₁ :=
      indices_takes hbracket hp
    have hrest := hplace.length_lt rfl
    rw [List.length_cons] at hrest
    rcases bind_eq_error.mp h with h | ⟨ts₂, hset, h⟩
    · exact (expect_stuck h).imp fun _ hr =>
        .rule (.alternative 5 rfl (hplace.reaches hr).left.left)
    · have hassign := expect_takes hset
      have hshorter := hassign.length_lt rfl
      exact (value_stuck (hplace.seq hassign) (by omega) h).imp fun _ hr =>
        .rule (.alternative 5 rfl hr)

/-- The header of a `for` loop goes on after its keyword. -/
theorem header_stuck (ha : Takes a ts₀ ts) (hlen : ts.length < n)
    (h : header n ts = .error stop) :
    Stuck (a ++ .terminal .ident ++ symbol .assign ++ .rule .expr
      ++ symbol .colon ++ .rule .expr) ts₀ stop := by
  rcases bind_eq_error.mp h with h | ⟨⟨var, ts₁⟩, hvar, h⟩
  · exact (identifier_stuck h).imp fun _ hr =>
      (ha.reaches hr).left.left.left.left
  have hname := identifier_accepts hvar
  rcases bind_eq_error.mp h with h | ⟨ts₂, hset, h⟩
  · exact (expect_stuck h).imp fun _ hr =>
      ((ha.seq hname).reaches hr).left.left.left
  have hhead := hname.seq (expect_takes hset)
  have hlen₂ := hhead.length_le
  have hopen := (ha.seq hname).seq (expect_takes hset)
  rcases bind_eq_error.mp h with h | ⟨⟨start, ts₃⟩, hstart, h⟩
  · exact (expression_stalls (by omega) h).imp fun _ hr =>
      (hopen.reaches hr).left.left
  have hfirst := expression_accepts hstart
  have hlen₃ := hfirst.length_le
  rcases bind_eq_error.mp h with h | ⟨ts₄, hcolon, h⟩
  · exact (expect_stuck h).imp fun _ hr => ((hopen.seq hfirst).reaches hr).left
  have hlen₄ := (expect_takes hcolon).length_le
  rcases bind_eq_error.mp h with h | ⟨_, -, h⟩
  · exact (expression_stalls (by omega) h).imp fun _ hr =>
      ((hopen.seq hfirst).seq (expect_takes hcolon)).reaches hr
  · cases h

section

variable {st : Reader Stmt} (hstalls : Stalls n st (.rule .instruction))

include hstalls

theorem blockRest_stuck (haccepts : Accepts st (.rule .instruction))
    (ha : Takes a ts₀ ts) (hn : ts.length < n) (hm : ts.length < m)
    (h : blockRest st m ts = .error stop) :
    Stuck (a ++ .many (.rule .instruction) ++ symbol .rbrace) ts₀ stop := by
  -- it stops in one of the statements or, where one could start, at the brace
  have hparts : Stuck (.many (.rule .instruction)) ts stop := by
    clear ha
    induction m generalizing ts with
    | zero => omega
    | succ m ih =>
        unfold blockRest at h
        split at h
        · cases h
        · rcases bind_eq_error.mp h with h | ⟨⟨s, mid⟩, hs, h⟩
          · exact (hstalls hn h).imp fun _ => .item
          · have hfirst := haccepts hs
            have hshorter := hfirst.length_lt rfl
            rcases bind_eq_error.mp h with h | ⟨_, -, h⟩
            · exact (ih (by omega) (by omega) h).imp fun _ hr =>
                hfirst.reaches_more hr
            · cases h
  exact hparts.imp fun _ hr => (ha.reaches hr).left

theorem elseBranch_stalls :
    Stalls n (elseBranch st) (.maybe (word .else_ ++ .rule .instruction)) := by
  intro ts stop hlen h
  unfold elseBranch at h
  split at h
  · rename_i l us
    rw [List.length_cons] at hlen
    rcases bind_eq_error.mp h with h | ⟨_, -, h⟩
    · exact (hstalls (by omega) h).imp fun _ hr =>
        .present ((Takes.word .else_ l us).reaches hr)
    · cases h
  · cases h

end

/-- A keyword and the semicolon after it. -/
theorem jump_stuck {k : Keyword} {l : Nat} {s : Stmt}
    (h : (do
      let ts ← expect .semicolon ts
      .ok (s, ts)) = Except.error stop) :
    Stuck (word k ++ symbol .semicolon) (⟨.word k, l⟩ :: ts) stop := by
  rcases bind_eq_error.mp h with h | ⟨_, -, h⟩
  · exact (expect_stuck h).imp fun _ hr => (Takes.word k l ts).reaches hr
  · cases h

/-- The alternatives of an instruction, each from where it can stop. -/
theorem statement_stalls : Stalls n (statement n) (.rule .instruction) := by
  intro ts stop hlen h
  induction n generalizing ts stop with
  | zero => omega
  | succ n ih =>
      have hstalls : Stalls n (statement n) (.rule .instruction) :=
        fun _ _ hlen h => ih hlen h
      unfold statement at h
      split at h
      · rename_i l us
        rw [List.length_cons] at hlen
        rcases bind_eq_error.mp h with h | ⟨_, -, h⟩
        · exact (blockRest_stuck hstalls statement_accepts (.symbol .lbrace l us)
            (by omega) (by omega) h).imp fun _ hr =>
            .rule (.alternative 0 rfl hr)
        · cases h
      · rename_i l us
        rw [List.length_cons] at hlen
        have hif := Takes.word .if_ l us
        rcases bind_eq_error.mp h with h | ⟨⟨e, ts₁⟩, he, h⟩
        · exact (test_stuck hif (by omega) h).imp fun _ hr =>
            .rule (.alternative 1 rfl hr.left.left)
        have htest := test_takes hif he
        have hlen₁ := htest.length_lt rfl
        rw [List.length_cons] at hlen₁
        rcases bind_eq_error.mp h with h | ⟨⟨yes, ts₂⟩, hyes, h⟩
        · exact (ih (by omega) h).imp fun _ hr =>
            .rule (.alternative 1 rfl (htest.reaches hr).left)
        have hthen := statement_accepts hyes
        have hlen₂ := hthen.length_le
        rcases bind_eq_error.mp h with h | ⟨_, -, h⟩
        · exact (elseBranch_stalls hstalls (by omega) h).imp
            fun _ hr => .rule (.alternative 1 rfl ((htest.seq hthen).reaches hr))
        · cases h
      · rename_i l us
        rw [List.length_cons] at hlen
        have hwhile := Takes.word .while_ l us
        rcases bind_eq_error.mp h with h | ⟨⟨e, ts₁⟩, he, h⟩
        · exact (test_stuck hwhile (by omega) h).imp fun _ hr =>
            .rule (.alternative 2 rfl hr.left)
        have htest := test_takes hwhile he
        have hlen₁ := htest.length_lt rfl
        rw [List.length_cons] at hlen₁
        rcases bind_eq_error.mp h with h | ⟨_, -, h⟩
        · exact (ih (by omega) h).imp fun _ hr =>
            .rule (.alternative 2 rfl (htest.reaches hr))
        · cases h
      · rename_i l us
        rw [List.length_cons] at hlen
        have hfor := Takes.word .for_ l us
        rcases bind_eq_error.mp h with h | ⟨⟨⟨var, range⟩, ts₁⟩, hheader, h⟩
        · exact (header_stuck hfor (by omega) h).imp fun _ hr =>
            .rule (.alternative 3 rfl hr.left)
        have hhead := header_takes hfor hheader
        have hlen₁ := hhead.length_lt rfl
        rw [List.length_cons] at hlen₁
        rcases bind_eq_error.mp h with h | ⟨_, -, h⟩
        · exact (ih (by omega) h).imp fun _ hr =>
            .rule (.alternative 3 rfl (hhead.reaches hr))
        · cases h
      · exact (jump_stuck h).imp fun _ hr => .rule (.alternative 6 rfl hr)
      · exact (jump_stuck h).imp fun _ hr => .rule (.alternative 7 rfl hr)
      · rename_i l us
        rw [List.length_cons] at hlen
        exact (value_stuck (.word .return_ l us) (by omega) h).imp fun _ hr =>
          .rule (.alternative 8 rfl hr)
      · rename_i l us
        rw [List.length_cons] at hlen
        have hprint := Takes.word .print l us
        rcases bind_eq_error.mp h with h | ⟨⟨es, ts₁⟩, hes, h⟩
        · exact (separated_stuck rfl expression_accepts expression_stalls
            (by omega) (by omega) h).imp fun _ hr =>
            .rule (.alternative 9 rfl (hprint.reaches hr).left)
        · have hitems := hprint.seq (separated_accepts expression_accepts hes)
          rcases bind_eq_error.mp h with h | ⟨_, -, h⟩
          · exact (expect_stuck h).imp fun _ hr =>
              .rule (.alternative 9 rfl (hitems.reaches hr))
          · cases h
      · rw [List.length_cons] at hlen
        exact assignment_stuck (by omega) h
      · cases h
        exact .here _ _

end MatrixLang.Reader
