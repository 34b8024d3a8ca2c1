import MatrixLang.Token.Basic

/-!
# The grammar

The grammar of the language as a table of rules (`grammar`), and the token lists
that a rule derives (`Spells`). It knows nothing of the parser and of trees, and
it is ambiguous: an `else` may belong to any open `if` before it.

Two tools go with it. `Spells.closed` is the induction over derivations: what is
closed under the rules holds of every derived token list. `Takes` tells that a
rule derives the tokens that lie between two suffixes of an input, which is how
a reader that goes through the input is followed step by step.
-/

namespace MatrixLang

/-! ## Rules -/

/-- What the grammar sees of a token. -/
inductive Terminal where
  | int | float | str | ident
  | word (keyword : Keyword)
  | symbol (symbol : Symbol)

/-- The end of the input is no terminal. -/
def Lexeme.terminal? : Lexeme → Option Terminal
  | .int _ => some .int
  | .float _ => some .float
  | .str _ => some .str
  | .ident _ => some .ident
  | .word k => some (.word k)
  | .symbol s => some (.symbol s)
  | .eof => none

inductive Nonterminal where
  | program | instruction | condition | expr | term1 | term2 | term3
  | unary | postfixed | primary | size

/-- The right side of a rule. -/
inductive Ebnf where
  | terminal (t : Terminal)
  | rule (n : Nonterminal)
  | seq (first second : Ebnf)
  | either (first second : Ebnf)
  | many (item : Ebnf)
  | maybe (item : Ebnf)

namespace Ebnf

instance : Append Ebnf := ⟨seq⟩

instance : OrOp Ebnf := ⟨either⟩

def word (k : Keyword) : Ebnf := terminal (.word k)

def symbol (s : Symbol) : Ebnf := terminal (.symbol s)

/-- One or more items with commas between them. -/
def listOf (item : Ebnf) : Ebnf := item ++ many (symbol .comma ++ item)

/-- Operands with operators between them. -/
def chain (operator operand : Ebnf) : Ebnf :=
  operand ++ many (operator ++ operand)

def element : Ebnf :=
  terminal .ident ++ symbol .lbracket ++ terminal .int ++ symbol .rbracket
  ||| terminal .ident ++ symbol .lbracket ++ terminal .int ++ symbol .comma
      ++ terminal .int ++ symbol .rbracket

/-- The grammar. -/
def grammar : Nonterminal → Ebnf
  | .program => many (rule .instruction)
  | .instruction =>
      symbol .lbrace ++ many (rule .instruction) ++ symbol .rbrace
      ||| word .if_ ++ symbol .lparen ++ rule .condition ++ symbol .rparen
          ++ rule .instruction ++ maybe (word .else_ ++ rule .instruction)
      ||| word .while_ ++ symbol .lparen ++ rule .condition ++ symbol .rparen
          ++ rule .instruction
      ||| word .for_ ++ terminal .ident ++ symbol .assign ++ rule .expr
          ++ symbol .colon ++ rule .expr ++ rule .instruction
      ||| terminal .ident
          ++ (symbol .assign ||| symbol .addAssign ||| symbol .subAssign
            ||| symbol .mulAssign ||| symbol .divAssign)
          ++ rule .expr ++ symbol .semicolon
      ||| element ++ symbol .assign ++ rule .expr ++ symbol .semicolon
      ||| word .break_ ++ symbol .semicolon
      ||| word .continue_ ++ symbol .semicolon
      ||| word .return_ ++ rule .expr ++ symbol .semicolon
      ||| word .print ++ listOf (rule .expr) ++ symbol .semicolon
  | .condition =>
      rule .expr
      ++ (symbol .eq ||| symbol .ne ||| symbol .lt ||| symbol .gt ||| symbol .le
        ||| symbol .ge)
      ++ rule .expr
  | .expr => chain (symbol .plus ||| symbol .minus) (rule .term1)
  | .term1 => chain (symbol .dotAdd ||| symbol .dotSub) (rule .term2)
  | .term2 => chain (symbol .star ||| symbol .slash) (rule .term3)
  | .term3 => chain (symbol .dotMul ||| symbol .dotDiv) (rule .unary)
  | .unary => symbol .minus ++ rule .unary ||| rule .postfixed
  | .postfixed => rule .primary ++ many (symbol .quote)
  | .primary =>
      terminal .int ||| terminal .float ||| terminal .str ||| terminal .ident
      ||| element
      ||| symbol .lparen ++ rule .expr ++ symbol .rparen
      ||| symbol .lbracket ++ symbol .rbracket
      ||| symbol .lbracket ++ listOf (rule .expr) ++ symbol .rbracket
      ||| (word .zeros ||| word .ones ||| word .eye) ++ symbol .lparen ++ rule .size
          ++ maybe (symbol .comma ++ rule .size) ++ symbol .rparen
  | .size => maybe (symbol .minus) ++ terminal .int

end Ebnf

/-! ## Derivations -/

/-- A rule derives a list of tokens. -/
inductive Spells : Ebnf → List Token → Prop
  | terminal {t : Terminal} {token : Token} :
      token.lexeme.terminal? = some t → Spells (.terminal t) [token]
  | rule {n : Nonterminal} {ts : List Token} :
      Spells (Ebnf.grammar n) ts → Spells (.rule n) ts
  | seq {a b : Ebnf} {us vs : List Token} :
      Spells a us → Spells b vs → Spells (.seq a b) (us ++ vs)
  | first {a b : Ebnf} {ts : List Token} : Spells a ts → Spells (.either a b) ts
  | second {a b : Ebnf} {ts : List Token} :
      Spells b ts → Spells (.either a b) ts
  | stop {a : Ebnf} : Spells (.many a) []
  | more {a : Ebnf} {us vs : List Token} :
      Spells a us → Spells (.many a) vs → Spells (.many a) (us ++ vs)
  | absent {a : Ebnf} : Spells (.maybe a) []
  | present {a : Ebnf} {ts : List Token} : Spells a ts → Spells (.maybe a) ts

/-- No derived token list has the end of the input in it. -/
theorem Spells.not_eof {r : Ebnf} {ts : List Token} (h : Spells r ts) :
    ∀ t ∈ ts, t.lexeme.isEof = false := by
  induction h with
  | terminal h =>
      rename_i t token
      intro u hu
      obtain rfl := List.mem_singleton.mp hu
      obtain ⟨lexeme, line⟩ := u
      cases lexeme <;> first | rfl | cases h
  | rule _ ih | first _ ih | second _ ih | present _ ih => exact ih
  | seq _ _ iha ihb | more _ _ iha ihb =>
      exact List.forall_mem_append.mpr ⟨iha, ihb⟩
  | stop | absent => exact fun t ht => absurd ht List.not_mem_nil

/-- The alternatives of a right side, in order. -/
def Ebnf.alternatives : Ebnf → List Ebnf
  | .either a b => a.alternatives ++ [b]
  | a => [a]

theorem Spells.alternative {a r : Ebnf} {ts : List Token} (h : Spells a ts)
    (ha : a ∈ r.alternatives) : Spells r ts := by
  induction r with
  | either b c ihb _ =>
      rcases List.mem_append.mp ha with hb | hc
      · exact .first (ihb hb)
      · obtain rfl := List.mem_singleton.mp hc
        exact .second h
  | _ =>
      obtain rfl := List.mem_singleton.mp ha
      exact h

/-! ## Induction over derivations -/

/-- Concatenations of members. -/
inductive Repeats (L : List Token → Prop) : List Token → Prop
  | nil : Repeats L []
  | cons {us vs : List Token} : L us → Repeats L vs → Repeats L (us ++ vs)

/-- What a right side derives if the nonterminals derive what `P` says. -/
def Ebnf.Means (P : Nonterminal → List Token → Prop) : Ebnf → List Token → Prop
  | .terminal t, ts =>
      ∃ token : Token, ts = [token] ∧ token.lexeme.terminal? = some t
  | .rule n, ts => P n ts
  | .seq a b, ts => ∃ us vs, ts = us ++ vs ∧ a.Means P us ∧ b.Means P vs
  | .either a b, ts => a.Means P ts ∨ b.Means P ts
  | .many a, ts => Repeats (a.Means P) ts
  | .maybe a, ts => ts = [] ∨ a.Means P ts

/-- What is closed under the rules holds of all derived token lists. -/
theorem Spells.closed {P : Nonterminal → List Token → Prop}
    (h : ∀ n ts, (Ebnf.grammar n).Means P ts → P n ts) {r : Ebnf}
    {ts : List Token} (hr : Spells r ts) : r.Means P ts := by
  induction hr with
  | terminal ht => exact ⟨_, rfl, ht⟩
  | rule _ ih => exact h _ _ ih
  | seq _ _ iha ihb => exact ⟨_, _, rfl, iha, ihb⟩
  | first _ ih => exact .inl ih
  | second _ ih => exact .inr ih
  | stop => exact .nil
  | more _ _ iha ihb => exact .cons iha ihb
  | absent => exact .inl rfl
  | present _ ih => exact .inr ih

/-! ## Going through an input -/

/-- A rule derives the tokens of `ts` before the suffix `rest`. -/
def Takes (r : Ebnf) (ts rest : List Token) : Prop :=
  ∃ us, ts = us ++ rest ∧ Spells r us

namespace Takes

variable {a b : Ebnf} {ts mid rest : List Token}

theorem token {t : Terminal} {token : Token}
    (h : token.lexeme.terminal? = some t) :
    Takes (.terminal t) (token :: rest) rest := ⟨[token], rfl, .terminal h⟩

theorem word (k : Keyword) (line : Nat) (rest : List Token) :
    Takes (.word k) (⟨.word k, line⟩ :: rest) rest := token rfl

theorem symbol (s : Symbol) (line : Nat) (rest : List Token) :
    Takes (.symbol s) (⟨.symbol s, line⟩ :: rest) rest := token rfl

theorem seq (ha : Takes a ts mid) (hb : Takes b mid rest) :
    Takes (a ++ b) ts rest := by
  obtain ⟨us, rfl, hus⟩ := ha
  obtain ⟨vs, rfl, hvs⟩ := hb
  exact ⟨us ++ vs, (List.append_assoc us vs rest).symm, .seq hus hvs⟩

theorem imp (ha : Takes a ts rest) (h : ∀ us, Spells a us → Spells b us) :
    Takes b ts rest := by
  obtain ⟨us, rfl, hus⟩ := ha
  exact ⟨us, rfl, h us hus⟩

theorem first (ha : Takes a ts rest) : Takes (a ||| b) ts rest :=
  ha.imp fun _ => .first

theorem second (hb : Takes b ts rest) : Takes (a ||| b) ts rest :=
  hb.imp fun _ => .second

/-- Alternatives are counted from zero. -/
theorem alternative (i : Nat) (hi : b.alternatives[i]? = some a)
    (ha : Takes a ts rest) : Takes b ts rest :=
  ha.imp fun _ h => h.alternative (List.mem_of_getElem? hi)

theorem rule {n : Nonterminal} (h : Takes (Ebnf.grammar n) ts rest) :
    Takes (.rule n) ts rest :=
  h.imp fun _ => .rule

theorem stop (rest : List Token) : Takes (.many a) rest rest := ⟨[], rfl, .stop⟩

theorem more (ha : Takes a ts mid) (hb : Takes (.many a) mid rest) :
    Takes (.many a) ts rest := by
  obtain ⟨us, rfl, hus⟩ := ha
  obtain ⟨vs, rfl, hvs⟩ := hb
  exact ⟨us ++ vs, (List.append_assoc us vs rest).symm, .more hus hvs⟩

theorem absent (rest : List Token) : Takes (.maybe a) rest rest :=
  ⟨[], rfl, .absent⟩

theorem present (ha : Takes a ts rest) : Takes (.maybe a) ts rest :=
  ha.imp fun _ => .present

end Takes

end MatrixLang
