import MatrixLang.Proofs.Grammar.Normal
import MatrixLang.Proofs.Grammar.Written
import MatrixLang.Tree.Parse

/-!
# Trees in their tokens

A tree is written as tokens with the lines that its nodes have (`Located`). It is
`Written` once more (`Located.written`), but here a node has the line of the token
that it starts with. Where a node starts with one of its operands, that may be a
parenthesis, which belongs to no node. There are two answers to where such tokens
start: at the first one (`firstLine?`), or at the first one that is no opening
parenthesis (`startLine?`), and `Located` is given one of them.

By the second answer a node that starts with an operand has the line of the
operand's node (`Located.line`). Where every opening parenthesis is on the line of
the token behind it, the answers agree in every part of the tokens, and then a tree
is located by the one if it is by the other (`Located.mono`).
-/

namespace MatrixLang

variable {start start' : List Token → Option Nat} {φ : Phrase} {rank : Rank} {e : Expr}
  {k : Nat} {ts us vs : List Token}

/-! ## Where tokens start -/

/-- The line of the first token. -/
def firstLine? (ts : List Token) : Option Nat := ts.head?.map Token.line

/-- The line of the first token that is no opening parenthesis. -/
def startLine? : List Token → Option Nat
  | [] => none
  | ⟨.symbol .lparen, _⟩ :: ts => startLine? ts
  | t :: _ => some t.line

/-! ## Trees with the lines of their tokens -/

/-- These tokens write this phrase, and every node has the line of the token that it
starts with. A node that starts with an operand has the line at which its tokens
`start`. -/
inductive Located (start : List Token → Option Nat) : Phrase → List Token → Prop
  | int {n : Int64} {l : Nat} :
      Located start (.expr .primary (.int l n)) [⟨.int n, l⟩]
  | float {x : Float} {l : Nat} :
      Located start (.expr .primary (.float l x)) [⟨.float x, l⟩]
  | str {s : String} {l : Nat} :
      Located start (.expr .primary (.str l s)) [⟨.str s, l⟩]
  | read {p : Place} {x : Lexeme} {l : Nat} {ts : List Token} :
      WrittenPlace p (⟨x, l⟩ :: ts) →
      Located start (.expr .primary (.read l p)) (⟨x, l⟩ :: ts)
  | construct {f : Constructor} {d : Dims} {l l₁ l₂ : Nat} {ts : List Token} :
      WrittenDims d ts → Located start (.expr .primary (.construct l f d))
        (⟨.word f.keyword, l⟩ :: ⟨.symbol .lparen, l₁⟩ :: ts
          ++ [⟨.symbol .rparen, l₂⟩])
  | emptyMatrix {l l₁ : Nat} :
      Located start (.expr .primary (.matrix l []))
        [⟨.symbol .lbracket, l⟩, ⟨.symbol .rbracket, l₁⟩]
  | emptyVector {l l₁ : Nat} :
      Located start (.expr .primary (.vector l []))
        [⟨.symbol .lbracket, l⟩, ⟨.symbol .rbracket, l₁⟩]
  | matrix {rows : List Expr} {l l₁ : Nat} {ts : List Token} :
      Located start (.items rows) ts →
      Located start (.expr .primary (.matrix l rows))
        (⟨.symbol .lbracket, l⟩ :: ts ++ [⟨.symbol .rbracket, l₁⟩])
  | vector {es : List Expr} {l l₁ : Nat} {ts : List Token} :
      Located start (.items es) ts →
      Located start (.expr .primary (.vector l es))
        (⟨.symbol .lbracket, l⟩ :: ts ++ [⟨.symbol .rbracket, l₁⟩])
  | paren {e : Expr} {l l₁ : Nat} {ts : List Token} :
      Located start (.expr .sum e) ts →
      Located start (.expr .primary e)
        (⟨.symbol .lparen, l⟩ :: ts ++ [⟨.symbol .rparen, l₁⟩])
  | transpose {e : Expr} {k l : Nat} {ts : List Token} :
      Located start (.expr .postfixed e) ts →
      start (ts ++ [⟨.symbol .quote, l⟩]) = some k →
      Located start (.expr .postfixed (.transpose k e)) (ts ++ [⟨.symbol .quote, l⟩])
  | neg {e : Expr} {l : Nat} {ts : List Token} :
      Located start (.expr .unary e) ts →
      Located start (.expr .unary (.neg l e)) (⟨.symbol .minus, l⟩ :: ts)
  | binary {op : BinaryOp} {e f : Expr} {k l : Nat} {us vs : List Token} :
      Located start (.expr op.rank e) us → Located start (.expr op.rank.tighter f) vs →
      start (us ++ ⟨.symbol op.symbol, l⟩ :: vs) = some k →
      Located start (.expr op.rank (.binary k op e f))
        (us ++ ⟨.symbol op.symbol, l⟩ :: vs)
  | tight {rank : Rank} {e : Expr} {ts : List Token} :
      Located start (.expr rank.tighter e) ts →
      Located start (.expr rank e) ts
  | one {e : Expr} {ts : List Token} :
      Located start (.expr .sum e) ts → Located start (.items [e]) ts
  | more {e : Expr} {es : List Expr} {l : Nat} {us vs : List Token} :
      Located start (.expr .sum e) us → Located start (.items es) vs →
      Located start (.items (e :: es)) (us ++ ⟨.symbol .comma, l⟩ :: vs)
  | test {op : Relation} {e f : Expr} {k l : Nat} {us vs : List Token} :
      Located start (.expr .sum e) us → Located start (.expr .sum f) vs →
      start (us ++ ⟨.symbol op.symbol, l⟩ :: vs) = some k →
      Located start (.test (.compare k op e f)) (us ++ ⟨.symbol op.symbol, l⟩ :: vs)
  | block {ss : List Stmt} {l l₁ : Nat} {ts : List Token} :
      Located start (.body ss) ts →
      Located start (.stmt (.block l ss))
        (⟨.symbol .lbrace, l⟩ :: ts ++ [⟨.symbol .rbrace, l₁⟩])
  | assign {op : AssignOp} {p : Place} {e : Expr} {x : Lexeme} {l l₁ l₂ : Nat}
      {us vs : List Token} :
      WrittenPlace p (⟨x, l⟩ :: us) → Located start (.expr .sum e) vs →
      Located start (.stmt (.assign l op p e))
        (⟨x, l⟩ :: us ++ ⟨.symbol op.symbol, l₁⟩ :: vs ++ [⟨.symbol .semicolon, l₂⟩])
  | ifThen {e : Expr} {s : Stmt} {l l₁ l₂ : Nat} {us vs : List Token} :
      Located start (.test e) us → Located start (.stmt s) vs →
      Located start (.stmt (.branch l e s none))
        (⟨.word .if_, l⟩ :: ⟨.symbol .lparen, l₁⟩ :: us
          ++ ⟨.symbol .rparen, l₂⟩ :: vs)
  | ifThenElse {e : Expr} {s t : Stmt} {l l₁ l₂ l₃ : Nat} {us vs ws : List Token} :
      Located start (.test e) us → Located start (.stmt s) vs →
      Located start (.stmt t) ws →
      Located start (.stmt (.branch l e s (some t)))
        (⟨.word .if_, l⟩ :: ⟨.symbol .lparen, l₁⟩ :: us
          ++ ⟨.symbol .rparen, l₂⟩ :: vs ++ ⟨.word .else_, l₃⟩ :: ws)
  | loop {e : Expr} {s : Stmt} {l l₁ l₂ : Nat} {us vs : List Token} :
      Located start (.test e) us → Located start (.stmt s) vs →
      Located start (.stmt (.loop l e s))
        (⟨.word .while_, l⟩ :: ⟨.symbol .lparen, l₁⟩ :: us
          ++ ⟨.symbol .rparen, l₂⟩ :: vs)
  | count {x : String} {e f : Expr} {s : Stmt} {k l l₁ l₂ l₃ : Nat}
      {us vs ws : List Token} :
      Located start (.expr .sum e) us → Located start (.expr .sum f) vs →
      Located start (.stmt s) ws →
      start (us ++ ⟨.symbol .colon, l₃⟩ :: vs) = some k →
      Located start (.stmt (.count l x ⟨k, e, f⟩ s))
        (⟨.word .for_, l⟩ :: ⟨.ident x, l₁⟩ :: ⟨.symbol .assign, l₂⟩ :: us
          ++ ⟨.symbol .colon, l₃⟩ :: vs ++ ws)
  | break_ {l l₁ : Nat} :
      Located start (.stmt (.break_ l)) [⟨.word .break_, l⟩, ⟨.symbol .semicolon, l₁⟩]
  | continue_ {l l₁ : Nat} :
      Located start (.stmt (.continue_ l))
        [⟨.word .continue_, l⟩, ⟨.symbol .semicolon, l₁⟩]
  | ret {e : Expr} {l l₁ : Nat} {ts : List Token} :
      Located start (.expr .sum e) ts →
      Located start (.stmt (.ret l e))
        (⟨.word .return_, l⟩ :: ts ++ [⟨.symbol .semicolon, l₁⟩])
  | print {es : List Expr} {l l₁ : Nat} {ts : List Token} :
      Located start (.items es) ts →
      Located start (.stmt (.print l es))
        (⟨.word .print, l⟩ :: ts ++ [⟨.symbol .semicolon, l₁⟩])
  | nil : Located start (.body []) []
  | cons {s : Stmt} {ss : List Stmt} {us vs : List Token} :
      Located start (.stmt s) us → Located start (.body ss) vs →
      Located start (.body (s :: ss)) (us ++ vs)

/-- The tokens write the phrase. -/
theorem Located.written (h : Located start φ ts) : Written φ ts := by
  induction h <;> constructor <;> assumption

theorem startLine?_append (h : startLine? us = some k) (vs : List Token) :
    startLine? (us ++ vs) = some k := by
  fun_induction startLine? us with
  | case1 => cases h
  | case2 l ts ih => exact ih h
  | case3 t ts ht =>
      rw [List.cons_append, startLine?, h]
      exact ht

/-- Every opening parenthesis is on the line of the token behind it. -/
def ParensBeside (ts : List Token) : Prop :=
  ∀ l t, [⟨.symbol .lparen, l⟩, t] <:+: ts → t.line = l

/-- There, tokens start with their first one. -/
theorem ParensBeside.firstLine? (hparens : ParensBeside ts) (h : startLine? ts = some k) :
    firstLine? ts = some k := by
  fun_induction startLine? ts with
  | case1 => cases h
  | case2 l ts ih =>
      have hfirst := ih (fun l t ht => hparens l t (ht.trans (List.suffix_cons _ _).isInfix)) h
      obtain ⟨t, ht, rfl⟩ := Option.map_eq_some_iff.mp hfirst
      obtain ⟨ts, rfl⟩ := List.head?_eq_some_iff.mp ht
      exact congrArg some (hparens l t ⟨[], ts, rfl⟩).symm
  | case3 t ts ht => exact h

namespace Located

/-- An expression has the line at which its tokens start, those of its parentheses not
counted. -/
theorem line (h : Located startLine? (.expr rank e) ts) : startLine? ts = some e.line := by
  generalize hφ : Phrase.expr rank e = φ at h
  induction h generalizing rank e with
  | int | float | str | emptyMatrix | emptyVector | matrix | vector | construct | neg =>
      cases hφ
      rfl
  | read hplace =>
      cases hφ
      cases hplace <;> rfl
  | paren _ ih =>
      cases hφ
      exact startLine?_append (ih rfl) _
  | transpose _ hstart =>
      cases hφ
      exact hstart
  | binary _ _ hstart =>
      cases hφ
      exact hstart
  | tight _ ih =>
      cases hφ
      exact ih rfl
  | _ => cases hφ

/-- Where a tree of two operands starts, unless it is in parentheses. -/
theorem binary_start {op : BinaryOp} {f : Expr}
    (h : Located start (.expr rank (.binary k op e f)) ts) :
    start ts = some k ∨ ∃ us l l₁,
      ts = ⟨.symbol .lparen, l⟩ :: us ++ [⟨.symbol .rparen, l₁⟩] := by
  generalize hφ : Phrase.expr rank (.binary k op e f) = φ at h
  induction h generalizing rank with
  | paren => exact .inr ⟨_, _, _, rfl⟩
  | binary _ _ hstart =>
      cases hφ
      exact .inl hstart
  | tight _ ih =>
      cases hφ
      exact ih rfl
  | _ => cases hφ

/-- The tokens of a program that only assigns to a variable. -/
theorem assign_var {op : AssignOp} {x : String}
    (h : Located start (.body [.assign k op (.var x) e]) ts) :
    ∃ l us l₁, Located start (.expr .sum e) us
      ∧ ts = ⟨.ident x, k⟩ :: ⟨.symbol op.symbol, l⟩ :: us
        ++ [⟨.symbol .semicolon, l₁⟩] := by
  cases h with
  | cons hs hnil =>
      cases hnil
      cases hs with
      | assign hplace he =>
          cases hplace
          exact ⟨_, _, _, he, List.append_nil _⟩

/-! ## Lists -/

theorem emptyRow {line : Nat} (h : Located start (.expr rank (.matrix line [])) ts) :
    Located start (.expr rank (.vector line [])) ts := by
  generalize hφ : Phrase.expr rank (.matrix line []) = φ at h
  induction h generalizing rank with
  | emptyMatrix => cases hφ; exact .emptyVector
  | matrix hitems => cases hφ; cases hitems
  | paren _ ih => cases hφ; exact .paren (ih rfl)
  | tight _ ih => cases hφ; exact .tight (ih rfl)
  | _ => cases hφ

theorem asRow (h : Located start (.expr rank e) ts) (he : e.isRowLike = true) :
    Located start (.expr rank (Reader.asRow e)) ts := by
  cases e with
  | vector line es => exact h
  | matrix line es =>
      cases es with
      | nil => exact h.emptyRow
      | cons => cases he
  | _ => cases he

theorem asRows {es : List Expr} (h : Located start (.items es) ts)
    (hrows : ∀ e ∈ es, e.isRowLike = true) :
    Located start (.items (es.map Reader.asRow)) ts := by
  induction es generalizing ts with
  | nil => cases h
  | cons e es ih =>
      obtain ⟨he, hes⟩ := List.forall_mem_cons.mp hrows
      cases h with
      | one hus => exact .one (hus.asRow he)
      | more hus hvs => exact .more (hus.asRow he) (ih hvs hes)

theorem bracketed {es : List Expr} (h : Located start (.items es) ts) (l l₁ : Nat) :
    Located start (.expr .primary (Reader.bracketed l es))
      (⟨.symbol .lbracket, l⟩ :: ts ++ [⟨.symbol .rbracket, l₁⟩]) := by
  unfold Reader.bracketed
  split
  · rename_i hrows
    exact .matrix (h.asRows (List.all_eq_true.mp hrows))
  · exact .vector h

end Located

/-! ## Other starts -/

/-- In every part of these tokens the one start is also the other. -/
def Agree (start start' : List Token → Option Nat) (ts : List Token) : Prop :=
  ∀ us k, us <:+: ts → start us = some k → start' us = some k

namespace Agree

theorem whole (h : Agree start start' ts) (hk : start ts = some k) : start' ts = some k :=
  h ts k (List.infix_refl ts) hk

theorem part (h : Agree start start' ts) (hus : us <:+: ts) : Agree start start' us :=
  fun vs k hvs => h vs k (hvs.trans hus)

theorem tail {t : Token} (h : Agree start start' (t :: ts)) : Agree start start' ts :=
  h.part (List.suffix_cons t ts).isInfix

theorem left (h : Agree start start' (us ++ vs)) : Agree start start' us :=
  h.part (List.prefix_append us vs).isInfix

theorem right (h : Agree start start' (us ++ vs)) : Agree start start' vs :=
  h.part (List.suffix_append us vs).isInfix

end Agree

theorem Located.mono (h : Located start φ ts) (hstart : Agree start start' ts) :
    Located start' φ ts := by
  induction h with
  | int => exact .int
  | float => exact .float
  | str => exact .str
  | read hplace => exact .read hplace
  | construct hdims => exact .construct hdims
  | emptyMatrix => exact .emptyMatrix
  | emptyVector => exact .emptyVector
  | matrix _ ih => exact .matrix (ih hstart.left.tail)
  | vector _ ih => exact .vector (ih hstart.left.tail)
  | paren _ ih => exact .paren (ih hstart.left.tail)
  | transpose _ hk ih => exact .transpose (ih hstart.left) (hstart.whole hk)
  | neg _ ih => exact .neg (ih hstart.tail)
  | binary _ _ hk ihe ihf =>
      exact .binary (ihe hstart.left) (ihf hstart.right.tail) (hstart.whole hk)
  | tight _ ih => exact .tight (ih hstart)
  | one _ ih => exact .one (ih hstart)
  | more _ _ ihe ihes => exact .more (ihe hstart.left) (ihes hstart.right.tail)
  | test _ _ hk ihe ihf =>
      exact .test (ihe hstart.left) (ihf hstart.right.tail) (hstart.whole hk)
  | block _ ih => exact .block (ih hstart.left.tail)
  | assign hplace _ ih => exact .assign hplace (ih hstart.left.right.tail)
  | ifThen _ _ ihe ihs =>
      exact .ifThen (ihe hstart.left.tail.tail) (ihs hstart.right.tail)
  | ifThenElse _ _ _ ihe ihs iht =>
      exact .ifThenElse (ihe hstart.left.left.tail.tail) (ihs hstart.left.right.tail)
        (iht hstart.right.tail)
  | loop _ _ ihe ihs => exact .loop (ihe hstart.left.tail.tail) (ihs hstart.right.tail)
  | count _ _ _ hk ihe ihf ihs =>
      have hrange := hstart.left.tail.tail.tail
      exact .count (ihe hrange.left) (ihf hrange.right.tail) (ihs hstart.right)
        (hrange.whole hk)
  | break_ => exact .break_
  | continue_ => exact .continue_
  | ret _ ih => exact .ret (ih hstart.left.tail)
  | print _ ih => exact .print (ih hstart.left.tail)
  | nil => exact .nil
  | cons _ _ ihs ihss => exact .cons (ihs hstart.left) (ihss hstart.right)

end MatrixLang
