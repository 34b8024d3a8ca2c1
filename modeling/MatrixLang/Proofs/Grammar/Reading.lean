import MatrixLang.Proofs.Except
import MatrixLang.Proofs.Grammar.Normal
import MatrixLang.Proofs.Grammar.Written
import MatrixLang.Tree.Parse

/-!
# What readers do on whole constructs

That a list of tokens *reads* as a tree says what the reader does on it in front
of any rest that may follow, with any bound above the number of tokens. There is
one such predicate for each kind of phrase, and one lemma for each way to put
phrases together.

A level of operators has read an operand and may go on: what is true in front of
every rest is that it comes to `operations` with the tree on the left
(`Reads`). So a phrase that is read can still become the left operand of a longer
one (`Reads.binary`); in front of a rest that ends it (`Ends`) it is the result
(`Reads.stop`). Transposition marks are handled in the same way.
-/

namespace MatrixLang.Reader

variable {ls : List Level} {e f : Expr} {us vs rest : List Token} {n m l : Nat}

/-! ## What may follow -/

@[simp] theorem skip?_symbol (s t : Symbol) (l : Nat) (ts : List Token) :
    skip? s (⟨.symbol t, l⟩ :: ts) = if t = s then some ts else none := rfl

theorem expect_symbol (s : Symbol) (l : Nat) (ts : List Token) :
    expect s (⟨.symbol s, l⟩ :: ts) = .ok ts := by
  simp only [expect, skip?_symbol, if_true]

/-- An expression of these levels ends before the rest. -/
structure Ends (ls : List Level) (rest : List Token) : Prop where
  operator : ∀ level ∈ ls, operator? level rest = none
  quote : skip? .quote rest = none
  bracket : skip? .lbracket rest = none

theorem Ends.tail {level : Level} (h : Ends (level :: ls) rest) :
    Ends ls rest :=
  ⟨fun k hk => h.operator k (List.mem_cons_of_mem _ hk), h.quote, h.bracket⟩

theorem Ends.symbol {s : Symbol} (hs : ∀ level ∈ ls, level s = none)
    (hquote : s ≠ .quote) (hbracket : s ≠ .lbracket) :
    Ends ls (⟨.symbol s, l⟩ :: rest) := by
  refine ⟨fun level hlevel => ?_, ?_, ?_⟩
  · simp only [operator?, hs level hlevel, Option.map_none]
  · rw [skip?_symbol, if_neg hquote]
  · rw [skip?_symbol, if_neg hbracket]

/-- Symbols that neither operate on an expression before them nor mark it. -/
def closes : Symbol → Bool
  | .rparen | .rbracket | .lbrace | .colon | .comma | .semicolon => true
  | .eq | .ne | .lt | .gt | .le | .ge => true
  | _ => false

theorem Ends.closing {s : Symbol} (h : closes s = true) :
    Ends levels (⟨.symbol s, l⟩ :: rest) := by
  refine .symbol ?_ ?_ ?_ <;> cases s <;> first | decide | cases h

/-! ## Levels of operators -/

/-- The reader of some levels, the loosest first, over unary expressions. -/
def tower (ls : List Level) (n : Nat) : Reader Expr :=
  ls.foldr (fun level operand => leveled level n operand) (unary n)

theorem expression_eq (n : Nat) : expression n = tower levels n := rfl

/-- What the reader of some levels still does when it has read `e`. -/
def resume (ls : List Level) (n m : Nat) (e : Expr) (rest : List Token) :
    Except Stop (Expr × List Token) :=
  match ls with
  | [] => .ok (e, rest)
  | level :: ls => operations level (tower ls n) m e rest

/-- The tokens read as an expression of the first of these levels. -/
def Reads (ls : List Level) (e : Expr) (us : List Token) : Prop :=
  ∀ n rest, (us ++ rest).length < n → Ends ls.tail rest →
    ∃ m, rest.length < m ∧ tower ls n (us ++ rest) = resume ls n m e rest

theorem Reads.stop (h : Reads ls e us) (hlen : (us ++ rest).length < n)
    (hends : Ends ls rest) :
    tower ls n (us ++ rest) = .ok (e, rest) := by
  cases ls with
  | nil =>
      obtain ⟨m, -, hm⟩ := h n rest hlen hends
      exact hm
  | cons level ls =>
      obtain ⟨m, hlt, hm⟩ := h n rest hlen hends.tail
      obtain ⟨m, rfl⟩ : ∃ k, m = k + 1 := ⟨m - 1, by omega⟩
      rw [hm]
      simp only [resume, operations, hends.operator level List.mem_cons_self]

/-- What reads at the tighter levels reads at the looser one too. -/
theorem Reads.loosen {level : Level} (h : Reads ls e us) :
    Reads (level :: ls) e us := by
  intro n rest hlen hends
  refine ⟨n, ?_, ?_⟩
  · rw [List.length_append] at hlen
    omega
  · show leveled level n (tower ls n) (us ++ rest) = _
    simp only [leveled, h.stop hlen hends, ok_bind, resume]

theorem Reads.binary {level : Level} {s : Symbol} {op : BinaryOp}
    (hs : level s = some op) (htight : ∀ k ∈ ls, k s = none)
    (hquote : s ≠ .quote) (hbracket : s ≠ .lbracket)
    (he : Reads (level :: ls) e us) (hf : Reads ls f vs) :
    Reads (level :: ls) (.binary e.line op e f) (us ++ ⟨.symbol s, l⟩ :: vs) := by
  intro n rest hlen hends
  have hop : Ends ls (⟨.symbol s, l⟩ :: (vs ++ rest)) :=
    .symbol htight hquote hbracket
  rw [List.append_assoc, List.cons_append] at hlen ⊢
  obtain ⟨m, hlt, hm⟩ := he n _ hlen hop
  obtain ⟨m, rfl⟩ : ∃ k, m = k + 1 := ⟨m - 1, by omega⟩
  simp only [List.length_append, List.length_cons] at hlen hlt
  refine ⟨m, by omega, ?_⟩
  have hright : tower ls n (vs ++ rest) = .ok (f, rest) :=
    hf.stop (by rw [List.length_append]; omega) hends
  rw [hm]
  simp only [resume, operations, operator?, hs, Option.map_some, hright,
    ok_bind]

/-! ## Primaries and what stands before and after them -/

/-- The tokens read as a primary. -/
def ReadsPrimary (e : Expr) (us : List Token) : Prop :=
  ∀ n rest, (us ++ rest).length ≤ n → skip? .lbracket rest = none →
    primaryOf n (expression n) (us ++ rest) = .ok (e, rest)

/-- The tokens read as a primary with transposition marks, of which more may
follow. -/
def ReadsMarked (e : Expr) (us : List Token) : Prop :=
  ∀ n rest, (us ++ rest).length ≤ n → skip? .lbracket rest = none →
    ∃ e' rest', primaryOf n (expression n) (us ++ rest) = .ok (e', rest')
      ∧ transpositions e' rest' = transpositions e rest

theorem transpositions_stop (h : skip? .quote rest = none) :
    transpositions e rest = (e, rest) := by
  unfold transpositions
  split
  · cases h
  · rfl

/-- A primary starts with no minus, so `unary` goes on to its marks. -/
theorem unary_of_primary {e' : Expr} {ts rest' : List Token}
    (h : primaryOf n (expression n) ts = .ok (e', rest')) :
    unary (n + 1) ts = .ok (transpositions e' rest') := by
  unfold unary
  split
  · cases h
  · rw [show expressionOf n (unary n) = expression n from rfl, h]
    rfl

theorem ReadsPrimary.marked (h : ReadsPrimary e us) : ReadsMarked e us := by
  intro n rest hlen hbracket
  exact ⟨e, rest, h n rest hlen hbracket, rfl⟩

theorem ReadsMarked.transpose (h : ReadsMarked e us) :
    ReadsMarked (.transpose e.line e) (us ++ [⟨.symbol .quote, l⟩]) := by
  intro n rest hlen _
  rw [List.append_assoc] at hlen ⊢
  exact h n _ hlen rfl

theorem ReadsMarked.unary (h : ReadsMarked e us) : Reads [] e us := by
  intro n rest hlen hends
  obtain ⟨n, rfl⟩ : ∃ k, n = k + 1 := ⟨n - 1, by omega⟩
  obtain ⟨e', rest', hprimary, hmarks⟩ := h n rest (by omega) hends.bracket
  refine ⟨n + 1, ?_, ?_⟩
  · rw [List.length_append] at hlen
    omega
  · show Reader.unary (n + 1) (us ++ rest) = .ok (e, rest)
    rw [unary_of_primary hprimary, hmarks, transpositions_stop hends.quote]

theorem Reads.neg (h : Reads [] e us) :
    Reads [] (.neg l e) (⟨.symbol .minus, l⟩ :: us) := by
  intro n rest hlen hends
  rw [List.cons_append, List.length_cons] at hlen
  obtain ⟨n, rfl⟩ : ∃ k, n = k + 1 := ⟨n - 1, by omega⟩
  have hoperand : Reader.unary n (us ++ rest) = .ok (e, rest) :=
    h.stop (by omega) hends
  refine ⟨n + 1, ?_, ?_⟩
  · rw [List.length_append] at hlen
    omega
  · show Reader.unary (n + 1) (⟨.symbol .minus, l⟩ :: (us ++ rest))
      = .ok (.neg l e, rest)
    unfold Reader.unary
    simp only [hoperand, ok_bind]

/-! ## Kinds of primaries -/

theorem ReadsPrimary.int {k : Int64} : ReadsPrimary (.int l k) [⟨.int k, l⟩] :=
  fun _ _ _ _ => rfl

theorem ReadsPrimary.float {x : Float} :
    ReadsPrimary (.float l x) [⟨.float x, l⟩] :=
  fun _ _ _ _ => rfl

theorem ReadsPrimary.str {s : String} : ReadsPrimary (.str l s) [⟨.str s, l⟩] :=
  fun _ _ _ _ => rfl

/-- A place is a name alone, or a name and indices in brackets. -/
theorem place_written {p : Place} (h : WrittenPlace p us) :
    (∃ name l, p = .var name ∧ us = [⟨.ident name, l⟩])
    ∨ ∃ name l l₁ vs, p ≠ .var p.name
        ∧ us = ⟨.ident name, l⟩ :: ⟨.symbol .lbracket, l₁⟩ :: vs
        ∧ ∀ rest, indices name (vs ++ rest) = .ok (p, rest) := by
  cases h with
  | var => exact .inl ⟨_, _, rfl, rfl⟩
  | item | cell => exact .inr ⟨_, _, _, _, nofun, rfl, fun _ => rfl⟩

theorem ReadsPrimary.place {p : Place} (h : WrittenPlace p us) :
    ∃ l, ReadsPrimary (.read l p) us := by
  rcases place_written h with
    ⟨name, l, rfl, rfl⟩ | ⟨name, l, l₁, vs, -, rfl, hindices⟩
  · refine ⟨l, fun n rest _ hbracket => ?_⟩
    simp only [List.cons_append, List.nil_append, primaryOf, hbracket]
  · refine ⟨l, fun n rest _ _ => ?_⟩
    simp only [List.cons_append, primaryOf, skip?_symbol, if_true, hindices,
      ok_bind]

theorem size_written {k : Int64} (h : WrittenSize k us) :
    size (us ++ rest) = .ok (k, rest) := by
  cases h <;> rfl

theorem dims_written {d : Dims} (h : WrittenDims d us) :
    dims (⟨.symbol .lparen, l⟩ :: (us ++ ⟨.symbol .rparen, m⟩ :: rest))
      = .ok (d, rest) := by
  cases h with
  | square hn =>
      simp only [dims, expect_symbol, ok_bind, size_written hn]
      rfl
  | rect hm hn =>
      rw [List.append_assoc, List.cons_append]
      simp only [dims, expect_symbol, ok_bind, size_written hm, skip?_symbol,
        if_true, size_written hn]

theorem ReadsPrimary.construct {c : Constructor} {d : Dims} {l₁ l₂ : Nat}
    (h : WrittenDims d us) :
    ReadsPrimary (.construct l c d)
      (⟨.word c.keyword, l⟩ :: ⟨.symbol .lparen, l₁⟩ :: us
        ++ [⟨.symbol .rparen, l₂⟩]) := by
  intro n rest _ _
  have hc : constructor? c.keyword = some c := by cases c <;> rfl
  rw [List.append_assoc]
  simp only [List.cons_append, List.nil_append, primaryOf, hc, dims_written h,
    ok_bind]

theorem ReadsPrimary.paren {l₁ : Nat} (h : Reads levels e us) :
    ReadsPrimary e (⟨.symbol .lparen, l⟩ :: us ++ [⟨.symbol .rparen, l₁⟩]) := by
  intro n rest hlen _
  rw [List.append_assoc] at hlen ⊢
  simp only [List.cons_append, List.nil_append, List.length_cons] at hlen ⊢
  have hinner := h.stop hlen (.closing rfl)
  simp only [primaryOf, expression_eq, hinner, ok_bind, expect_symbol]

/-! ## Lists -/

/-- The tokens read as items with commas between them. -/
def ReadsItems (es : List Expr) (us : List Token) : Prop :=
  ∀ n m rest, (us ++ rest).length < n → (us ++ rest).length < m → Ends levels rest →
    skip? .comma rest = none →
    separated (expression n) m (us ++ rest) = .ok (es, rest)

theorem ReadsItems.one (h : Reads levels e us) : ReadsItems [e] us := by
  intro n m rest hn hm hends hcomma
  obtain ⟨m, rfl⟩ : ∃ k, m = k + 1 := ⟨m - 1, by omega⟩
  have hitem : expression n (us ++ rest) = .ok (e, rest) := h.stop hn hends
  simp only [separated, hitem, ok_bind, hcomma]

theorem ReadsItems.more {es : List Expr} (he : Reads levels e us)
    (hes : ReadsItems es vs) :
    ReadsItems (e :: es) (us ++ ⟨.symbol .comma, l⟩ :: vs) := by
  intro n m rest hn hm hends hcomma
  rw [List.append_assoc, List.cons_append] at hn hm ⊢
  obtain ⟨m, rfl⟩ : ∃ k, m = k + 1 := ⟨m - 1, by omega⟩
  have hitem : expression n (us ++ ⟨.symbol .comma, l⟩ :: (vs ++ rest))
      = .ok (e, ⟨.symbol .comma, l⟩ :: (vs ++ rest)) :=
    he.stop hn (.closing rfl)
  rw [List.length_append, List.length_cons] at hn hm
  have hrest := hes n m rest (by omega) (by omega) hends hcomma
  simp only [separated, hitem, ok_bind, skip?_symbol, if_true, hrest]

theorem expression_rbracket (n : Nat) (ts : List Token)
    (r : Expr × List Token) :
    expression n (⟨.symbol .rbracket, l⟩ :: ts) ≠ .ok r := by
  have hunary : ∃ stop, Reader.unary n (⟨.symbol .rbracket, l⟩ :: ts)
      = .error stop := by
    cases n with
    | zero => exact ⟨_, rfl⟩
    | succ n => exact ⟨_, rfl⟩
  obtain ⟨stop, hstop⟩ := hunary
  simp [expression, expressionOf, levels, leveled, hstop]

/-- A list of items does not start with the bracket that ends it. -/
theorem separated_rbracket {ts : List Token} {r : List Expr × List Token}
    (h : separated (expression n) m ts = .ok r) :
    skip? .rbracket ts = none := by
  unfold skip?
  split
  · rename_i t l rest
    split
    · rename_i ht
      subst ht
      cases m with
      | zero => cases h
      | succ m =>
          simp only [separated, bind_eq_ok] at h
          obtain ⟨r, hr, -⟩ := h
          exact absurd hr (expression_rbracket n rest r)
    · rfl
  · rfl

theorem ReadsPrimary.emptyList {l₁ : Nat} :
    ReadsPrimary (.matrix l [])
      [⟨.symbol .lbracket, l⟩, ⟨.symbol .rbracket, l₁⟩] := by
  intro n rest _ _
  rfl

theorem ReadsPrimary.list {es : List Expr} {l₁ : Nat} (h : ReadsItems es us) :
    ReadsPrimary (bracketed l es)
      (⟨.symbol .lbracket, l⟩ :: us ++ [⟨.symbol .rbracket, l₁⟩]) := by
  intro n rest hlen _
  rw [List.append_assoc] at hlen ⊢
  simp only [List.cons_append, List.nil_append, List.length_cons] at hlen ⊢
  have hitems := h n n (⟨.symbol .rbracket, l₁⟩ :: rest) hlen hlen
    (.closing rfl) rfl
  simp only [primaryOf, bracketList, separated_rbracket hitems, hitems, ok_bind,
    expect_symbol]

/-! ## Conditions -/

/-- The tokens read as a condition. -/
def ReadsTest (e : Expr) (us : List Token) : Prop :=
  ∀ n rest, (us ++ rest).length < n → Ends levels rest →
    condition n (us ++ rest) = .ok (e, rest)

theorem ReadsTest.compare {op : Relation} (he : Reads levels e us)
    (hf : Reads levels f vs) :
    ReadsTest (.compare e.line op e f) (us ++ ⟨.symbol op.symbol, l⟩ :: vs) := by
  intro n rest hlen hends
  have hop : Ends levels (⟨.symbol op.symbol, l⟩ :: (vs ++ rest)) := by
    cases op <;> exact .closing rfl
  have hrelation : relation (⟨.symbol op.symbol, l⟩ :: (vs ++ rest))
      = .ok (op, vs ++ rest) := by
    cases op <;> rfl
  rw [List.append_assoc, List.cons_append] at hlen ⊢
  have hleft : expression n (us ++ ⟨.symbol op.symbol, l⟩ :: (vs ++ rest))
      = .ok (e, _) :=
    he.stop hlen hop
  rw [List.length_append, List.length_cons] at hlen
  have hright : expression n (vs ++ rest) = .ok (f, rest) :=
    hf.stop (by omega) hends
  simp only [condition, hleft, hrelation, hright, ok_bind]

theorem ReadsTest.inParens {l₁ : Nat} (h : ReadsTest e us)
    (hlen : (us ++ ⟨.symbol .rparen, l₁⟩ :: rest).length < n) :
    test n (⟨.symbol .lparen, l⟩ :: (us ++ ⟨.symbol .rparen, l₁⟩ :: rest))
      = .ok (e, rest) := by
  have hcond := h n (⟨.symbol .rparen, l₁⟩ :: rest) hlen
    (.closing rfl)
  simp only [test, expect_symbol, hcond, ok_bind]

/-! ## Statements -/

def startsElse : List Token → Bool
  | ⟨.word .else_, _⟩ :: _ => true
  | _ => false

/-- The tokens read as a statement. One that ends open would take an `else`
after it. -/
def ReadsStmt (s : Stmt) (us : List Token) : Prop :=
  ∀ n rest, (us ++ rest).length < n → (s.endsOpen = true → startsElse rest = false) →
    statement n (us ++ rest) = .ok (s, rest)

/-- A statement spends one of the bound on itself. -/
theorem ReadsStmt.of_succ {s : Stmt}
    (h : ∀ n rest, (us ++ rest).length ≤ n →
      (s.endsOpen = true → startsElse rest = false) →
      statement (n + 1) (us ++ rest) = .ok (s, rest)) :
    ReadsStmt s us := by
  intro n rest hlen helse
  obtain ⟨n, rfl⟩ : ∃ k, n = k + 1 := ⟨n - 1, by omega⟩
  exact h n rest (by omega) helse

theorem elseBranch_absent {st : Reader Stmt} (h : startsElse rest = false) :
    elseBranch st rest = .ok (none, rest) := by
  unfold elseBranch
  split
  · cases h
  · rfl

theorem ReadsStmt.assign {op : AssignOp} {p : Place} {l₁ : Nat}
    (hp : WrittenPlace p us) (hop : op = .set ∨ p = .var p.name)
    (he : Reads levels e vs) :
    ∃ line, ReadsStmt (.assign line op p e)
      (us ++ ⟨.symbol op.symbol, l⟩ :: vs ++ [⟨.symbol .semicolon, l₁⟩]) := by
  have hvalue : ∀ n rest, (vs ++ ⟨.symbol .semicolon, l₁⟩ :: rest).length < n →
      expression n (vs ++ ⟨.symbol .semicolon, l₁⟩ :: rest)
        = .ok (e, ⟨.symbol .semicolon, l₁⟩ :: rest) := by
    intro n rest hlen
    exact he.stop hlen (.closing rfl)
  rcases place_written hp with
    ⟨name, line, rfl, rfl⟩ | ⟨name, line, l₂, ws, hplace, rfl, hindices⟩
  · refine ⟨line, .of_succ ?_⟩
    intro n rest hlen _
    simp only [List.append_assoc, List.cons_append, List.nil_append,
      List.length_cons] at hlen ⊢
    have hskip : op.symbol ≠ .lbracket := by cases op <;> decide
    have hread : ∀ ts, assignOp (⟨.symbol op.symbol, l⟩ :: ts)
        = .ok (op, ts) := by
      cases op <;> exact fun _ => rfl
    simp only [statement, assignment, skip?_symbol, if_neg hskip, hread,
      ok_bind, hvalue n rest (by omega), expect_symbol]
  · obtain rfl : op = .set := hop.resolve_right hplace
    refine ⟨line, .of_succ ?_⟩
    intro n rest hlen _
    simp only [List.append_assoc, List.cons_append, List.nil_append,
      List.length_cons] at hlen ⊢
    rw [List.length_append, List.length_cons] at hlen
    simp only [AssignOp.symbol, statement, assignment, skip?_symbol, if_true,
      hindices, ok_bind, expect_symbol, hvalue n rest (by omega)]

theorem ReadsStmt.ret {l₁ : Nat} (h : Reads levels e us) :
    ReadsStmt (.ret l e)
      (⟨.word .return_, l⟩ :: us ++ [⟨.symbol .semicolon, l₁⟩]) := by
  refine .of_succ ?_
  intro n rest hlen _
  rw [List.append_assoc] at hlen ⊢
  simp only [List.cons_append, List.nil_append, List.length_cons] at hlen ⊢
  have hvalue : expression n (us ++ ⟨.symbol .semicolon, l₁⟩ :: rest)
      = .ok (e, _) :=
    h.stop (by omega) (.closing rfl)
  simp only [statement, hvalue, ok_bind, expect_symbol]

theorem ReadsStmt.print {es : List Expr} {l₁ : Nat} (h : ReadsItems es us) :
    ReadsStmt (.print l es)
      (⟨.word .print, l⟩ :: us ++ [⟨.symbol .semicolon, l₁⟩]) := by
  refine .of_succ ?_
  intro n rest hlen _
  rw [List.append_assoc] at hlen ⊢
  simp only [List.cons_append, List.nil_append, List.length_cons] at hlen ⊢
  have hitems := h n n (⟨.symbol .semicolon, l₁⟩ :: rest) (by omega) (by omega)
    (.closing rfl) rfl
  simp only [statement, hitems, ok_bind, expect_symbol]

theorem ReadsStmt.ifThen {s : Stmt} {l₁ l₂ : Nat} (he : ReadsTest e us)
    (hs : ReadsStmt s vs) :
    ReadsStmt (.branch l e s none) (⟨.word .if_, l⟩ :: ⟨.symbol .lparen, l₁⟩ :: us
      ++ ⟨.symbol .rparen, l₂⟩ :: vs) := by
  refine .of_succ ?_
  intro n rest hlen helse
  rw [List.append_assoc] at hlen ⊢
  simp only [List.cons_append, List.length_cons] at hlen ⊢
  have htest : test n (⟨.symbol .lparen, l₁⟩
      :: (us ++ ⟨.symbol .rparen, l₂⟩ :: (vs ++ rest))) = .ok (e, vs ++ rest) :=
    he.inParens (by omega)
  rw [List.length_append, List.length_cons] at hlen
  have hyes : statement n (vs ++ rest) = .ok (s, rest) :=
    hs n rest (by omega) fun _ => helse rfl
  simp only [statement, htest, ok_bind, hyes, elseBranch_absent (helse rfl)]

theorem ReadsStmt.ifThenElse {s t : Stmt} {ws : List Token} {l₁ l₂ l₃ : Nat}
    (he : ReadsTest e us) (hs : ReadsStmt s vs) (hclosed : s.endsOpen = false)
    (ht : ReadsStmt t ws) :
    ReadsStmt (.branch l e s (some t))
      (⟨.word .if_, l⟩ :: ⟨.symbol .lparen, l₁⟩ :: us ++ ⟨.symbol .rparen, l₂⟩ :: vs
        ++ ⟨.word .else_, l₃⟩ :: ws) := by
  refine .of_succ ?_
  intro n rest hlen helse
  simp only [List.append_assoc, List.cons_append, List.length_cons] at hlen ⊢
  have htest : test n (⟨.symbol .lparen, l₁⟩ :: (us ++ ⟨.symbol .rparen, l₂⟩
      :: (vs ++ ⟨.word .else_, l₃⟩ :: (ws ++ rest)))) = .ok (e, _) :=
    he.inParens (by omega)
  simp only [List.length_append, List.length_cons] at hlen
  have hyes : statement n (vs ++ ⟨.word .else_, l₃⟩ :: (ws ++ rest))
      = .ok (s, _) :=
    hs n _ (by simp only [List.length_append, List.length_cons]; omega)
      fun hopen => absurd hopen (by simp [hclosed])
  have hno : statement n (ws ++ rest) = .ok (t, rest) :=
    ht n rest (by rw [List.length_append]; omega) helse
  simp only [statement, htest, ok_bind, hyes, elseBranch, hno]

theorem ReadsStmt.loop {s : Stmt} {l₁ l₂ : Nat} (he : ReadsTest e us)
    (hs : ReadsStmt s vs) :
    ReadsStmt (.loop l e s) (⟨.word .while_, l⟩ :: ⟨.symbol .lparen, l₁⟩ :: us
      ++ ⟨.symbol .rparen, l₂⟩ :: vs) := by
  refine .of_succ ?_
  intro n rest hlen helse
  rw [List.append_assoc] at hlen ⊢
  simp only [List.cons_append, List.length_cons] at hlen ⊢
  have htest : test n (⟨.symbol .lparen, l₁⟩
      :: (us ++ ⟨.symbol .rparen, l₂⟩ :: (vs ++ rest))) = .ok (e, vs ++ rest) :=
    he.inParens (by omega)
  rw [List.length_append, List.length_cons] at hlen
  have hbody : statement n (vs ++ rest) = .ok (s, rest) :=
    hs n rest (by omega) helse
  simp only [statement, htest, ok_bind, hbody]

theorem ReadsStmt.count {x : String} {s : Stmt} {ws : List Token}
    {l₁ l₂ l₃ : Nat} (he : Reads levels e us) (hf : Reads levels f vs)
    (hs : ReadsStmt s ws) (hstart : ∀ rest, Ends levels (ws ++ rest)) :
    ReadsStmt (.count l x ⟨e.line, e, f⟩ s) (⟨.word .for_, l⟩ :: ⟨.ident x, l₁⟩
      :: ⟨.symbol .assign, l₂⟩ :: us ++ ⟨.symbol .colon, l₃⟩ :: vs ++ ws) := by
  refine .of_succ ?_
  intro n rest hlen helse
  simp only [List.append_assoc, List.cons_append, List.length_cons] at hlen ⊢
  have hfirst : expression n (us ++ ⟨.symbol .colon, l₃⟩ :: (vs ++ (ws ++ rest)))
      = .ok (e, _) :=
    he.stop (by omega) (.closing rfl)
  simp only [List.length_append, List.length_cons] at hlen
  have hlast : expression n (vs ++ (ws ++ rest)) = .ok (f, ws ++ rest) :=
    hf.stop (by simp only [List.length_append]; omega) (hstart rest)
  have hbody : statement n (ws ++ rest) = .ok (s, rest) :=
    hs n rest (by rw [List.length_append]; omega) helse
  simp only [statement, header, identifier, expect_symbol, ok_bind, hfirst,
    hlast, hbody]

theorem ReadsStmt.break_ {l₁ : Nat} :
    ReadsStmt (.break_ l) [⟨.word .break_, l⟩, ⟨.symbol .semicolon, l₁⟩] := by
  refine .of_succ ?_
  intro n rest hlen _
  rfl

theorem ReadsStmt.continue_ {l₁ : Nat} :
    ReadsStmt (.continue_ l) [⟨.word .continue_, l⟩, ⟨.symbol .semicolon, l₁⟩] := by
  refine .of_succ ?_
  intro n rest hlen _
  rfl

/-! ## Statements one after another -/

/-- The token is no `else`, and it ends no expression, block or program. -/
def startsStmt : List Token → Bool
  | ⟨.ident _, _⟩ :: _ | ⟨.symbol .lbrace, _⟩ :: _ => true
  | ⟨.word k, _⟩ :: _ => k ≠ .else_
  | _ => false

theorem startsStmt_written {s : Stmt} (h : Written (.stmt s) us) :
    startsStmt (us ++ rest) = true := by
  cases h with
  | assign hp _ => cases hp <;> rfl
  | _ => rfl

section

variable {ts : List Token} (h : startsStmt ts = true)

include h

theorem startsStmt_ends : Ends levels ts := by
  unfold startsStmt at h
  split at h
  · exact ⟨fun _ _ => rfl, rfl, rfl⟩
  · exact .closing rfl
  · exact ⟨fun _ _ => rfl, rfl, rfl⟩
  · cases h

theorem startsStmt_not_else : startsElse ts = false := by
  unfold startsElse
  split
  · cases h
  · rfl

theorem startsStmt_not_rbrace : skip? .rbrace ts = none := by
  unfold startsStmt at h
  split at h <;> first | rfl | cases h

theorem startsStmt_not_end : Parse.atEnd ts = false := by
  unfold startsStmt at h
  split at h <;> first | rfl | cases h

end

/-- The tokens read as statements, up to the brace that ends their block and up to
the end of a program. -/
structure ReadsBody (ss : List Stmt) (us : List Token) : Prop where
  block : ∀ n m l rest, (us ++ ⟨.symbol .rbrace, l⟩ :: rest).length < n →
    us.length < m → blockRest (statement n) m
      (us ++ ⟨.symbol .rbrace, l⟩ :: rest) = .ok (ss, rest)
  program : ∀ n l, us.length + 2 < n →
    Parse.statements n (us ++ [⟨.eof, l⟩]) = ⟨ss, []⟩

theorem ReadsBody.nil : ReadsBody [] [] := by
  constructor
  · intro n m l rest _ hm
    obtain ⟨m, rfl⟩ : ∃ k, m = k + 1 := ⟨m - 1, by omega⟩
    rfl
  · intro n l hn
    obtain ⟨n, rfl⟩ : ∃ k, n = k + 1 := ⟨n - 1, by omega⟩
    rfl

theorem ReadsBody.cons {s : Stmt} {ss : List Stmt} (hs : ReadsStmt s us)
    (hss : ReadsBody ss vs) (hstart : ∀ rest, startsStmt (us ++ rest) = true)
    (hnext : ∀ rest, startsElse rest = false → startsElse (vs ++ rest) = false) :
    ReadsBody (s :: ss) (us ++ vs) := by
  have hlen : 0 < us.length := by
    have hne : us ++ [] ≠ [] := fun h => by
      have := hstart []
      rw [h] at this
      cases this
    rw [List.append_nil] at hne
    exact List.length_pos_iff.mpr hne
  constructor
  · intro n m l rest hn hm
    rw [List.append_assoc] at hn ⊢
    obtain ⟨m, rfl⟩ : ∃ k, m = k + 1 := ⟨m - 1, by omega⟩
    rw [List.length_append] at hm
    have hfirst := hs n _ hn fun _ => hnext (⟨.symbol .rbrace, l⟩ :: rest) rfl
    rw [List.length_append] at hn
    have hrest := hss.block n m l rest (by omega) (by omega)
    simp only [blockRest, startsStmt_not_rbrace (hstart _), hfirst, ok_bind,
      hrest]
  · intro n l hn
    rw [List.append_assoc]
    obtain ⟨n, rfl⟩ : ∃ k, n = k + 1 := ⟨n - 1, by omega⟩
    rw [List.length_append] at hn
    have hfirst := hs n (vs ++ [⟨.eof, l⟩])
      (by simp only [List.length_append, List.length_singleton]; omega)
      fun _ => hnext [⟨.eof, l⟩] rfl
    simp only [Parse.statements, startsStmt_not_end (hstart _),
      Bool.false_eq_true, if_false, hfirst, hss.program n l (by omega)]

theorem ReadsStmt.block {ss : List Stmt} {l₁ : Nat} (h : ReadsBody ss us) :
    ReadsStmt (.block l ss)
      (⟨.symbol .lbrace, l⟩ :: us ++ [⟨.symbol .rbrace, l₁⟩]) := by
  refine .of_succ ?_
  intro n rest hlen _
  rw [List.append_assoc] at hlen ⊢
  simp only [List.cons_append, List.nil_append, List.length_cons] at hlen ⊢
  have hbody := h.block n n l₁ rest (by omega) (by
    rw [List.length_append, List.length_cons] at hlen
    omega)
  simp only [statement, hbody, ok_bind]

theorem parse_eof (us : List Token) (l : Nat) :
    parse (us ++ [⟨.eof, l⟩])
      = Parse.statements (us.length + 3) (us ++ [⟨.eof, l⟩]) := by
  have hended : Parse.ended (us ++ [⟨.eof, l⟩]) = us ++ [⟨.eof, l⟩] := by
    unfold Parse.ended
    rw [if_pos]
    simp [Lexeme.isEof]
  unfold MatrixLang.parse
  rw [hended]
  simp

/-- A program is read to the end of the input. -/
theorem ReadsBody.parse {ss : List Stmt} (h : ReadsBody ss us) (l : Nat) :
    parse (us ++ [⟨.eof, l⟩]) = ⟨ss, []⟩ := by
  rw [parse_eof]
  exact h.program _ l (by omega)

end MatrixLang.Reader
