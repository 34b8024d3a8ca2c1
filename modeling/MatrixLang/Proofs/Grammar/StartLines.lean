import MatrixLang.Proofs.Grammar.Boundary
import MatrixLang.Proofs.Grammar.Located

/-!
# The lines of the trees that are read

What a reader gives is located in the tokens that it took (`Covers`). There is one
lemma for each reader, and each follows the text of its reader.

A node that starts with an operand is given the line of the operand's node, and
parentheses leave no node behind. So its tokens start there if the opening
parentheses in front are passed over (`operations_covers`), and not always at the
first of them (`parse_located_behindParen`).
-/

namespace MatrixLang.Reader

variable {α : Type} {ts rest : List Token} {n : Nat}

/-- If the reader gives something, then `P` says so of the tokens that it took. -/
def Covers (read : Reader α) (P : α → List Token → Prop) : Prop :=
  ∀ ts, Settles (fun _ => True) (fun r => ∃ us, ts = us ++ r.2 ∧ P r.1 us) (read ts)

/-! ## Single tokens -/

theorem expect_covers (s : Symbol) (ts : List Token) :
    Settles (fun _ => True) (fun rest => ∃ l, ts = ⟨.symbol s, l⟩ :: rest)
      (expect s ts) := by
  unfold expect
  split
  · exact eq_of_skip? ‹_›
  · trivial

theorem integer_covers : Covers integer fun n us => ∃ l, us = [⟨.int n, l⟩] := by
  intro ts
  unfold integer
  split
  · exact ⟨_, rfl, _, rfl⟩
  · trivial

theorem identifier_covers : Covers identifier fun x us => ∃ l, us = [⟨.ident x, l⟩] := by
  intro ts
  unfold identifier
  split
  · exact ⟨_, rfl, _, rfl⟩
  · trivial

theorem size_covers : Covers size WrittenSize := by
  intro ts
  unfold size
  split
  · rename_i hminus
    obtain ⟨l, rfl⟩ := eq_of_skip? hminus
    refine (integer_covers _).bind ?_
    rintro ⟨n, rest⟩ ⟨_, rfl, l₁, rfl⟩
    exact ⟨_, rfl, .minus⟩
  · refine (integer_covers _).mono ?_
    rintro ⟨n, rest⟩ ⟨_, rfl, l, rfl⟩
    exact ⟨_, rfl, .plain⟩

theorem indices_covers (x : String) :
    Covers (indices x) fun p us =>
      ∀ l l₁, WrittenPlace p (⟨.ident x, l⟩ :: ⟨.symbol .lbracket, l₁⟩ :: us) := by
  intro ts
  refine (integer_covers _).bind ?_
  rintro ⟨i, rest⟩ ⟨_, rfl, l₂, rfl⟩
  simp only
  split
  · refine (expect_covers _ _).bind ?_
    rintro rest ⟨l₃, rfl⟩
    exact ⟨[_, _], rfl, fun _ _ => .item⟩
  · rename_i hcomma
    obtain ⟨l₃, rfl⟩ := eq_of_skip? hcomma
    refine (integer_covers _).bind ?_
    rintro ⟨j, rest⟩ ⟨_, rfl, l₄, rfl⟩
    refine (expect_covers _ _).bind ?_
    rintro rest ⟨l₅, rfl⟩
    exact ⟨[_, _, _, _], rfl, fun _ _ => .cell⟩

theorem dims_covers :
    Covers dims fun d us => ∃ l l₁ vs, WrittenDims d vs
      ∧ us = ⟨.symbol .lparen, l⟩ :: vs ++ [⟨.symbol .rparen, l₁⟩] := by
  intro ts
  refine (expect_covers _ _).bind ?_
  rintro rest ⟨l, rfl⟩
  refine (size_covers _).bind ?_
  rintro ⟨m, rest⟩ ⟨us, rfl, hus⟩
  simp only
  split
  · refine (expect_covers _ _).bind ?_
    rintro rest ⟨l₁, rfl⟩
    exact ⟨_, by simp, l, l₁, us, .square hus, rfl⟩
  · rename_i hcomma
    obtain ⟨l₂, rfl⟩ := eq_of_skip? hcomma
    refine (size_covers _).bind ?_
    rintro ⟨n, rest⟩ ⟨vs, rfl, hvs⟩
    refine (expect_covers _ _).bind ?_
    rintro rest ⟨l₁, rfl⟩
    have hdims : WrittenDims (.rect m n) (us ++ ⟨.symbol .comma, l₂⟩ :: vs) :=
      .rect hus hvs
    exact ⟨_, by simp, l, l₁, _, hdims, rfl⟩

/-! ## Lists and levels of operators -/

/-- The tokens of an expression, with the lines that its nodes have. -/
abbrev LocatedExpr (rank : Rank) (e : Expr) (us : List Token) : Prop :=
  Located startLine? (.expr rank e) us

theorem separated_covers {item : Reader Expr} (hitem : Covers item (LocatedExpr .sum))
    (n : Nat) :
    Covers (separated item n) fun es us => Located startLine? (.items es) us := by
  induction n with
  | zero => exact fun _ => trivial
  | succ n ih =>
      intro ts
      refine (hitem ts).bind ?_
      rintro ⟨e, rest⟩ ⟨us, rfl, hus⟩
      simp only
      split
      · exact ⟨us, rfl, .one hus⟩
      · rename_i hcomma
        obtain ⟨l, rfl⟩ := eq_of_skip? hcomma
        refine (ih _).bind ?_
        rintro ⟨es, rest⟩ ⟨vs, rfl, hvs⟩
        exact ⟨us ++ ⟨.symbol .comma, l⟩ :: vs, by simp, .more hus hvs⟩

/-- The operators of a level are the symbols of one rank. -/
def Level.At (level : Level) (rank : Rank) : Prop :=
  ∀ s op, level s = some op → op.rank = rank ∧ op.symbol = s

theorem Level.At.operator? {level : Level} {rank : Rank} (hlevel : level.At rank)
    {op : BinaryOp} (h : Reader.operator? level ts = some (op, rest)) :
    op.rank = rank ∧ ∃ l, ts = ⟨.symbol op.symbol, l⟩ :: rest := by
  unfold Reader.operator? at h
  split at h
  · rename_i s l us
    obtain ⟨_, hs, hpair⟩ := Option.map_eq_some_iff.mp h
    cases hpair
    obtain ⟨hrank, hsymbol⟩ := hlevel s op hs
    exact ⟨hrank, l, by rw [hsymbol]⟩
  · cases h

/-- A node that starts with an operand has the line of the operand. -/
theorem operations_covers {level : Level} {rank : Rank} {operand : Reader Expr}
    (hlevel : level.At rank) (hoperand : Covers operand (LocatedExpr rank.tighter))
    (n : Nat) {left : Expr} {us : List Token} (hleft : LocatedExpr rank left us) :
    Covers (operations level operand n left) fun e vs => LocatedExpr rank e (us ++ vs) := by
  induction n generalizing left us with
  | zero => exact fun _ => trivial
  | succ n ih =>
      intro ts
      unfold operations
      split
      · exact ⟨[], rfl, by simpa using hleft⟩
      · rename_i op mid hop
        obtain ⟨rfl, l, rfl⟩ := hlevel.operator? hop
        refine (hoperand _).bind ?_
        rintro ⟨right, rest⟩ ⟨vs, rfl, hvs⟩
        have hnode : LocatedExpr op.rank (.binary left.line op left right)
            (us ++ ⟨.symbol op.symbol, l⟩ :: vs) :=
          .binary hleft hvs (startLine?_append hleft.line _)
        refine (ih hnode rest).mono ?_
        rintro ⟨e, rest⟩ ⟨ws, rfl, hws⟩
        exact ⟨⟨.symbol op.symbol, l⟩ :: vs ++ ws, by simp, by simpa using hws⟩

theorem leveled_covers {level : Level} {rank : Rank} {operand : Reader Expr}
    (hlevel : level.At rank) (hoperand : Covers operand (LocatedExpr rank.tighter))
    (n : Nat) : Covers (leveled level n operand) (LocatedExpr rank) := by
  intro ts
  refine (hoperand ts).bind ?_
  rintro ⟨left, rest⟩ ⟨us, rfl, hus⟩
  refine (operations_covers hlevel hoperand n (.tight hus) rest).mono ?_
  rintro ⟨e, rest⟩ ⟨vs, rfl, hvs⟩
  exact ⟨_, (List.append_assoc us vs rest).symm, hvs⟩

theorem sumLevel_at : sumLevel.At .sum := by
  intro s op h
  cases s <;> cases h <;> exact ⟨rfl, rfl⟩

theorem dotSumLevel_at : dotSumLevel.At .dotSum := by
  intro s op h
  cases s <;> cases h <;> exact ⟨rfl, rfl⟩

theorem productLevel_at : productLevel.At .product := by
  intro s op h
  cases s <;> cases h <;> exact ⟨rfl, rfl⟩

theorem dotProductLevel_at : dotProductLevel.At .dotProduct := by
  intro s op h
  cases s <;> cases h <;> exact ⟨rfl, rfl⟩

theorem expressionOf_covers {operand : Reader Expr}
    (hoperand : Covers operand (LocatedExpr .unary)) (n : Nat) :
    Covers (expressionOf n operand) (LocatedExpr .sum) := by
  have hdotProduct := leveled_covers dotProductLevel_at hoperand n
  have hproduct := leveled_covers productLevel_at hdotProduct n
  have hdotSum := leveled_covers dotSumLevel_at hproduct n
  exact leveled_covers sumLevel_at hdotSum n

/-! ## Expressions -/

/-- Marks are hung on what stands to their left. -/
theorem transpositions_covers {e : Expr} {us : List Token}
    (he : LocatedExpr .postfixed e us) (ts : List Token) :
    ∃ vs, ts = vs ++ (transpositions e ts).2
      ∧ LocatedExpr .postfixed (transpositions e ts).1 (us ++ vs) := by
  induction ts generalizing e us with
  | nil => exact ⟨[], rfl, by rwa [List.append_nil]⟩
  | cons t ts ih =>
      unfold transpositions
      split
      · rename_i l us' heq
        cases heq
        have hmark := Located.transpose (l := l) he (startLine?_append he.line _)
        obtain ⟨vs, hvs, hlocated⟩ := ih hmark
        exact ⟨_ :: vs, congrArg _ hvs, by simpa using hlocated⟩
      · exact ⟨[], rfl, by rwa [List.append_nil]⟩

theorem constructor?_keyword {k : Keyword} {f : Constructor}
    (h : constructor? k = some f) : f.keyword = k := by
  cases k <;> cases h <;> rfl

theorem primaryOf_covers {expression : Reader Expr}
    (hexpr : Covers expression (LocatedExpr .sum)) (n : Nat) :
    Covers (primaryOf n expression) (LocatedExpr .primary) := by
  intro ts
  unfold primaryOf
  split
  · exact ⟨[_], rfl, .int⟩
  · exact ⟨[_], rfl, .float⟩
  · exact ⟨[_], rfl, .str⟩
  · split
    · exact ⟨[_], rfl, .read .var⟩
    · rename_i hbracket
      obtain ⟨l₁, rfl⟩ := eq_of_skip? hbracket
      refine (indices_covers _ _).bind ?_
      rintro ⟨p, rest⟩ ⟨us, rfl, hp⟩
      exact ⟨_ :: _ :: us, rfl, .read (hp _ _)⟩
  · rename_i l _
    refine (hexpr _).bind ?_
    rintro ⟨e, rest⟩ ⟨us, rfl, hus⟩
    refine (expect_covers _ _).bind ?_
    rintro rest ⟨l₁, rfl⟩
    exact ⟨⟨.symbol .lparen, l⟩ :: us ++ [⟨.symbol .rparen, l₁⟩], by simp, .paren hus⟩
  · unfold bracketList
    split
    · rename_i hend
      obtain ⟨l₁, rfl⟩ := eq_of_skip? hend
      exact ⟨[_, _], rfl, .emptyMatrix⟩
    · refine (separated_covers hexpr n _).bind ?_
      rintro ⟨es, rest⟩ ⟨us, rfl, hus⟩
      refine (expect_covers _ _).bind ?_
      rintro rest ⟨l₁, rfl⟩
      exact ⟨_, by simp, hus.bracketed _ l₁⟩
  · split
    · trivial
    · rename_i hf
      obtain rfl := constructor?_keyword hf
      refine (dims_covers _).bind ?_
      rintro ⟨d, rest⟩ ⟨_, rfl, l₁, l₂, us, hus, rfl⟩
      exact ⟨_ :: _, rfl, .construct hus⟩
  · trivial

theorem unary_covers (n : Nat) : Covers (unary n) (LocatedExpr .unary) := by
  induction n with
  | zero => exact fun _ => trivial
  | succ n ih =>
      intro ts
      unfold unary
      split
      · refine (ih _).bind ?_
        rintro ⟨e, rest⟩ ⟨us, rfl, hus⟩
        exact ⟨_ :: us, rfl, .neg hus⟩
      · refine (primaryOf_covers (expressionOf_covers ih n) n _).bind ?_
        rintro ⟨e, rest⟩ ⟨us, rfl, hus⟩
        have hprimary : LocatedExpr (Rank.tighter .postfixed) e us := hus
        obtain ⟨vs, hvs, hmarked⟩ := transpositions_covers hprimary.tight rest
        exact ⟨us ++ vs, by rw [List.append_assoc, ← hvs], .tight hmarked⟩

theorem expression_covers (n : Nat) : Covers (expression n) (LocatedExpr .sum) :=
  expressionOf_covers (unary_covers n) n

theorem relation_covers : Covers relation fun op us => ∃ l, us = [⟨.symbol op.symbol, l⟩] := by
  intro ts
  unfold relation
  split
  · rename_i s l us
    split
    · rename_i op hop
      have hsymbol : op.symbol = s := by cases s <;> cases hop <;> rfl
      exact ⟨[_], rfl, l, by rw [hsymbol]⟩
    · trivial
  · trivial

theorem condition_covers (n : Nat) :
    Covers (condition n) fun e us => Located startLine? (.test e) us := by
  intro ts
  refine (expression_covers n _).bind ?_
  rintro ⟨left, rest⟩ ⟨us, rfl, hus⟩
  refine (relation_covers _).bind ?_
  rintro ⟨op, rest⟩ ⟨_, rfl, l, rfl⟩
  refine (expression_covers n _).bind ?_
  rintro ⟨right, rest⟩ ⟨vs, rfl, hvs⟩
  exact ⟨us ++ ⟨.symbol op.symbol, l⟩ :: vs, by simp,
    .test hus hvs (startLine?_append hus.line _)⟩

theorem test_covers (n : Nat) :
    Covers (test n) fun e us => ∃ l l₁ vs, Located startLine? (.test e) vs
      ∧ us = ⟨.symbol .lparen, l⟩ :: vs ++ [⟨.symbol .rparen, l₁⟩] := by
  intro ts
  refine (expect_covers _ _).bind ?_
  rintro rest ⟨l, rfl⟩
  refine (condition_covers n _).bind ?_
  rintro ⟨e, rest⟩ ⟨us, rfl, hus⟩
  refine (expect_covers _ _).bind ?_
  rintro rest ⟨l₁, rfl⟩
  exact ⟨_, by simp, l, l₁, us, hus, rfl⟩

/-! ## Statements -/

theorem assignOp_covers : Covers assignOp fun op us => ∃ l, us = [⟨.symbol op.symbol, l⟩] := by
  intro ts
  unfold assignOp
  split
  · rename_i s l us
    split
    · rename_i op hop
      have hsymbol : op.symbol = s := by cases s <;> cases hop <;> rfl
      exact ⟨[_], rfl, l, by rw [hsymbol]⟩
    · trivial
  · trivial

/-- The tokens of a statement, with the lines that its nodes have. -/
abbrev LocatedStmt (s : Stmt) (us : List Token) : Prop := Located startLine? (.stmt s) us

theorem assignment_covers (n l : Nat) (x : String) :
    Covers (assignment n l x) fun s us => LocatedStmt s (⟨.ident x, l⟩ :: us) := by
  intro ts
  unfold assignment
  split
  · refine (assignOp_covers _).bind ?_
    rintro ⟨op, rest⟩ ⟨_, rfl, l₁, rfl⟩
    refine (expression_covers n _).bind ?_
    rintro ⟨e, rest⟩ ⟨us, rfl, hus⟩
    refine (expect_covers _ _).bind ?_
    rintro rest ⟨l₂, rfl⟩
    exact ⟨⟨.symbol op.symbol, l₁⟩ :: us ++ [⟨.symbol .semicolon, l₂⟩], by simp,
      .assign .var hus⟩
  · rename_i hbracket
    obtain ⟨l₁, rfl⟩ := eq_of_skip? hbracket
    refine (indices_covers _ _).bind ?_
    rintro ⟨p, rest⟩ ⟨us, rfl, hp⟩
    refine (expect_covers _ _).bind ?_
    rintro rest ⟨l₂, rfl⟩
    refine (expression_covers n _).bind ?_
    rintro ⟨e, rest⟩ ⟨vs, rfl, hvs⟩
    refine (expect_covers _ _).bind ?_
    rintro rest ⟨l₃, rfl⟩
    exact ⟨⟨.symbol .lbracket, l₁⟩ :: us ++ ⟨.symbol .assign, l₂⟩ :: vs
      ++ [⟨.symbol .semicolon, l₃⟩], by simp, .assign (hp l l₁) hvs⟩

/-- The header and a body behind it make a loop. -/
theorem header_covers (n : Nat) :
    Covers (header n) fun x us => ∀ l s vs, LocatedStmt s vs →
      LocatedStmt (.count l x.1 x.2 s) (⟨.word .for_, l⟩ :: us ++ vs) := by
  intro ts
  refine (identifier_covers _).bind ?_
  rintro ⟨x, rest⟩ ⟨_, rfl, l₁, rfl⟩
  refine (expect_covers _ _).bind ?_
  rintro rest ⟨l₂, rfl⟩
  refine (expression_covers n _).bind ?_
  rintro ⟨start, rest⟩ ⟨us, rfl, hus⟩
  refine (expect_covers _ _).bind ?_
  rintro rest ⟨l₃, rfl⟩
  refine (expression_covers n _).bind ?_
  rintro ⟨stop, rest⟩ ⟨vs, rfl, hvs⟩
  refine ⟨⟨.ident x, l₁⟩ :: ⟨.symbol .assign, l₂⟩ :: us ++ ⟨.symbol .colon, l₃⟩ :: vs,
    by simp, ?_⟩
  intro l s ws hws
  exact .count hus hvs hws (startLine?_append hus.line _)

section

variable {st : Reader Stmt} (hst : Covers st LocatedStmt)

include hst

theorem blockRest_covers (n : Nat) :
    Covers (blockRest st n) fun ss us => ∃ l vs, Located startLine? (.body ss) vs
      ∧ us = vs ++ [⟨.symbol .rbrace, l⟩] := by
  induction n with
  | zero => exact fun _ => trivial
  | succ n ih =>
      intro ts
      unfold blockRest
      split
      · rename_i hend
        obtain ⟨l, rfl⟩ := eq_of_skip? hend
        exact ⟨[_], rfl, l, [], .nil, rfl⟩
      · refine (hst _).bind ?_
        rintro ⟨s, rest⟩ ⟨us, rfl, hus⟩
        refine (ih _).bind ?_
        rintro ⟨ss, rest⟩ ⟨_, rfl, l, vs, hvs, rfl⟩
        exact ⟨us ++ vs ++ [⟨.symbol .rbrace, l⟩], by simp, l, _, .cons hus hvs, rfl⟩

/-- A condition and the two branches make an `if`. -/
theorem elseBranch_covers :
    Covers (elseBranch st) fun no ws => ∀ l e l₁ us l₂ yes vs,
      Located startLine? (.test e) us → LocatedStmt yes vs →
      LocatedStmt (.branch l e yes no)
        (⟨.word .if_, l⟩ :: ⟨.symbol .lparen, l₁⟩ :: us
          ++ ⟨.symbol .rparen, l₂⟩ :: vs ++ ws) := by
  intro ts
  unfold elseBranch
  split
  · rename_i l₃ mid
    refine (hst _).bind ?_
    rintro ⟨no, rest⟩ ⟨ws, rfl, hws⟩
    refine ⟨⟨.word .else_, l₃⟩ :: ws, rfl, ?_⟩
    intro l e l₁ us l₂ yes vs hus hvs
    exact .ifThenElse hus hvs hws
  · refine ⟨[], rfl, ?_⟩
    intro l e l₁ us l₂ yes vs hus hvs
    rw [List.append_nil]
    exact .ifThen hus hvs

end

theorem jump_covers {s : Stmt} {k : Keyword} {l : Nat}
    (h : ∀ l₁, LocatedStmt s [⟨.word k, l⟩, ⟨.symbol .semicolon, l₁⟩]) (ts : List Token) :
    Settles (fun _ => True)
      (fun r => ∃ us, ⟨.word k, l⟩ :: ts = us ++ r.2 ∧ LocatedStmt r.1 us)
      (expect .semicolon ts >>= fun ts => .ok (s, ts)) := by
  refine (expect_covers _ _).bind ?_
  rintro rest ⟨l₁, rfl⟩
  exact ⟨[_, _], rfl, h l₁⟩

theorem statement_covers (n : Nat) : Covers (statement n) LocatedStmt := by
  induction n with
  | zero => exact fun _ => trivial
  | succ n ih =>
      intro ts
      unfold statement
      split
      · rename_i l _
        refine (blockRest_covers ih n _).bind ?_
        rintro ⟨ss, rest⟩ ⟨_, rfl, l₁, us, hus, rfl⟩
        exact ⟨⟨.symbol .lbrace, l⟩ :: us ++ [⟨.symbol .rbrace, l₁⟩], by simp, .block hus⟩
      · rename_i l _
        refine (test_covers n _).bind ?_
        rintro ⟨e, rest⟩ ⟨_, rfl, l₁, l₂, us, hus, rfl⟩
        refine (ih _).bind ?_
        rintro ⟨yes, rest⟩ ⟨vs, rfl, hvs⟩
        refine (elseBranch_covers ih _).bind ?_
        rintro ⟨no, rest⟩ ⟨ws, rfl, hws⟩
        exact ⟨_, by simp, hws l e l₁ us l₂ yes vs hus hvs⟩
      · rename_i l _
        refine (test_covers n _).bind ?_
        rintro ⟨e, rest⟩ ⟨_, rfl, l₁, l₂, us, hus, rfl⟩
        refine (ih _).bind ?_
        rintro ⟨s, rest⟩ ⟨vs, rfl, hvs⟩
        exact ⟨⟨.word .while_, l⟩ :: ⟨.symbol .lparen, l₁⟩ :: us
          ++ ⟨.symbol .rparen, l₂⟩ :: vs, by simp, .loop hus hvs⟩
      · rename_i l _
        refine (header_covers n _).bind ?_
        rintro ⟨⟨x, range⟩, rest⟩ ⟨us, rfl, hus⟩
        refine (ih _).bind ?_
        rintro ⟨s, rest⟩ ⟨vs, rfl, hvs⟩
        exact ⟨_, by simp, hus l s vs hvs⟩
      · exact jump_covers (fun _ => .break_) _
      · exact jump_covers (fun _ => .continue_) _
      · rename_i l _
        refine (expression_covers n _).bind ?_
        rintro ⟨e, rest⟩ ⟨us, rfl, hus⟩
        refine (expect_covers _ _).bind ?_
        rintro rest ⟨l₁, rfl⟩
        exact ⟨⟨.word .return_, l⟩ :: us ++ [⟨.symbol .semicolon, l₁⟩], by simp, .ret hus⟩
      · rename_i l _
        refine (separated_covers (expression_covers n) n _).bind ?_
        rintro ⟨es, rest⟩ ⟨us, rfl, hus⟩
        refine (expect_covers _ _).bind ?_
        rintro rest ⟨l₁, rfl⟩
        exact ⟨⟨.word .print, l⟩ :: us ++ [⟨.symbol .semicolon, l₁⟩], by simp, .print hus⟩
      · refine (assignment_covers n _ _ _).mono ?_
        rintro ⟨s, rest⟩ ⟨us, rfl, hus⟩
        exact ⟨_ :: us, rfl, hus⟩
      · trivial

/-! ## Programs -/

theorem statements_covers {n : Nat} (h : (Parse.statements n ts).errors = []) :
    ∃ us rest, ts = us ++ rest ∧ Parse.atEnd rest = true
      ∧ Located startLine? (.body (Parse.statements n ts).program) us := by
  induction n generalizing ts with
  | zero => cases h
  | succ n ih =>
      unfold Parse.statements at h ⊢
      split at h
      · rename_i hend
        rw [if_pos hend]
        exact ⟨[], ts, rfl, hend, .nil⟩
      · rename_i hgo
        rw [if_neg hgo]
        split at h
        · cases h
        · rename_i s mid hs
          obtain ⟨us, rfl, hus⟩ := (statement_covers n ts).gives hs
          obtain ⟨vs, rest, rfl, hend, hvs⟩ := ih h
          exact ⟨us ++ vs, rest, by simp, hend, .cons hus hvs⟩

end MatrixLang.Reader

namespace MatrixLang

/-- **Every node that is read has the line of the token that its tokens start with,
the opening parentheses in front of them passed over.** So it has the line of the
first of them if every opening parenthesis is on the line of the token behind it. -/
theorem parse_located (ts : List Token) (h : (parse ts).errors = []) :
    ∃ us rest, Parse.ended ts = us ++ rest ∧ Parse.atEnd rest = true
      ∧ Written (.body (parse ts).program) us
      ∧ Located startLine? (.body (parse ts).program) us
      ∧ (ParensBeside us → Located firstLine? (.body (parse ts).program) us) := by
  obtain ⟨us, rest, hts, hend, hus⟩ := Reader.statements_covers h
  refine ⟨us, rest, hts, hend, hus.written, hus, ?_⟩
  intro hparens
  refine hus.mono ?_
  intro part k hpart
  have hbeside : ParensBeside part := fun l t ht => hparens l t (ht.trans hpart)
  exact hbeside.firstLine?

/-- `x = (1) * 2;` with a new line behind the opening parenthesis. -/
def Sample.parenthesized : List Token :=
  [.ident "x", .symbol .assign, .symbol .lparen].map (fun lexeme => ⟨lexeme, 1⟩)
    ++ [.int 1, .symbol .rparen, .symbol .star, .int 2, .symbol .semicolon, .eof].map
      fun lexeme => ⟨lexeme, 2⟩

/-- The same with the new line in front of it. -/
def Sample.parensBeside : List Token :=
  [.ident "x", .symbol .assign].map (fun lexeme => ⟨lexeme, 1⟩)
    ++ [.symbol .lparen, .int 1, .symbol .rparen, .symbol .star, .int 2,
        .symbol .semicolon, .eof].map fun lexeme => ⟨lexeme, 2⟩

theorem parse_located_parenthesized :
    ((parse Sample.parenthesized).errors = []
      ∧ ∃ us rest, Parse.ended Sample.parenthesized = us ++ rest
        ∧ Parse.atEnd rest = true
        ∧ Written (.body (parse Sample.parenthesized).program) us
        ∧ Located startLine? (.body (parse Sample.parenthesized).program) us
        ∧ (ParensBeside us →
            Located firstLine? (.body (parse Sample.parenthesized).program) us))
      ∧ (parse Sample.parensBeside).errors = []
      ∧ ∃ us rest, Parse.ended Sample.parensBeside = us ++ rest
        ∧ Parse.atEnd rest = true
        ∧ ParensBeside us
        ∧ Located firstLine? (.body (parse Sample.parensBeside).program) us := by
  have hclean : (parse Sample.parenthesized).errors = [] := rfl
  have hclean' : (parse Sample.parensBeside).errors = [] := rfl
  refine ⟨⟨hclean, parse_located _ hclean⟩, hclean', ?_⟩
  obtain ⟨us, rest, hts, hend, -, -, hfirst⟩ := parse_located _ hclean'
  have hended : Parse.ended Sample.parensBeside = Sample.parensBeside := rfl
  have hparens : ParensBeside us := by
    intro l t ht
    have hall := ht.trans (hts ▸ (List.prefix_append us rest).isInfix)
    rw [hended] at hall
    simp [Sample.parensBeside, List.infix_cons_iff] at hall
    obtain ⟨rfl, rfl⟩ := hall
    rfl
  exact ⟨us, rest, hts, hend, hparens, hfirst hparens⟩

/-- The product has the line of its first factor, not of the parenthesis. -/
theorem parse_located_behindParen :
    (parse Sample.parenthesized).errors = []
      ∧ ¬ ∃ us rest, Parse.ended Sample.parenthesized = us ++ rest
        ∧ Parse.atEnd rest = true
        ∧ Located firstLine? (.body (parse Sample.parenthesized).program) us := by
  refine ⟨rfl, ?_⟩
  have hprogram : (parse Sample.parenthesized).program
      = [.assign 1 .set (.var "x") (.binary 2 .mul (.int 2 1) (.int 2 2))] := rfl
  have hended : Parse.ended Sample.parenthesized = Sample.parenthesized := rfl
  rw [hprogram, hended]
  rintro ⟨us, rest, hts, hend, h⟩
  obtain ⟨l, vs, l₁, hvs, rfl⟩ := h.assign_var
  have htail : Sample.parenthesized.drop 2 = vs ++ ⟨.symbol .semicolon, l₁⟩ :: rest := by
    simpa using congrArg (List.drop 2) hts
  rcases hvs.binary_start with hstart | ⟨ws, l₂, l₃, rfl⟩
  · cases vs with
    | nil => cases hstart
    | cons t vs =>
        obtain ⟨rfl, -⟩ := List.cons.inj htail
        cases hstart
  · have hbeside : [⟨.symbol .rparen, l₃⟩, ⟨.symbol .semicolon, l₁⟩]
        <:+: Sample.parenthesized.drop 2 :=
      ⟨⟨.symbol .lparen, l₂⟩ :: ws, rest, by simp [htail]⟩
    simp [Sample.parenthesized, List.infix_cons_iff] at hbeside

end MatrixLang
