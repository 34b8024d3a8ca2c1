import MatrixLang.Proofs.Grammar.Ebnf

/-!
# Beginnings of words

A token list is a beginning of a rule if more tokens can make it a word
(`Begins`). Every rule of the grammar has words (`Ebnf.inhabited`), so whatever
stands behind in a right side never spoils a beginning: that is what makes
`Reaches`, the counterpart of `Takes` for an input that is left in the middle of
a word, go along with the readers.

The words of most rules have at least one token (`Ebnf.isSolid`), so that an
input gets shorter when one of them is taken off.
-/

namespace MatrixLang

/-! ## Solid rules -/

/-- The shape of the rule shows that its words are not empty. -/
def Ebnf.isSolid : Ebnf → Bool
  | .terminal _ => true
  | .rule .program => false
  | .rule _ => true
  | .seq a b => a.isSolid || b.isSolid
  | .either a b => a.isSolid && b.isSolid
  | .many _ | .maybe _ => false

theorem Spells.ne_nil {r : Ebnf} {ts : List Token} (h : Spells r ts)
    (hr : r.isSolid = true) : ts ≠ [] := by
  induction h with
  | terminal => exact List.cons_ne_nil _ _
  | @rule n _ _ ih =>
      refine ih ?_
      cases n with
      | program => cases hr
      | _ => rfl
  | seq _ _ iha ihb =>
      intro hnil
      obtain ⟨hus, hvs⟩ := List.append_eq_nil_iff.mp hnil
      rcases Bool.or_eq_true_iff.mp hr with ha | hb
      · exact iha ha hus
      · exact ihb hb hvs
  | first _ ih => exact ih (Bool.and_eq_true_iff.mp hr).1
  | second _ ih => exact ih (Bool.and_eq_true_iff.mp hr).2
  | stop | more | absent | present => cases hr

theorem Takes.length_le {r : Ebnf} {ts rest : List Token} (h : Takes r ts rest) :
    rest.length ≤ ts.length := by
  obtain ⟨us, rfl, -⟩ := h
  rw [List.length_append]
  omega

theorem Takes.length_lt {r : Ebnf} {ts rest : List Token} (h : Takes r ts rest)
    (hr : r.isSolid = true) : rest.length < ts.length := by
  obtain ⟨us, rfl, hus⟩ := h
  have hpos : 0 < us.length := List.length_pos_iff.mpr (hus.ne_nil hr)
  rw [List.length_append]
  omega

/-! ## Every rule has words -/

namespace Ebnf

/-- A number is a word of every nonterminal that an expression starts with. -/
theorem spells_number (n : Nonterminal)
    (hn : n ∈ [Nonterminal.expr, .term1, .term2, .term3, .unary, .postfixed,
      .primary]) :
    Spells (rule n) [⟨.int 0, 1⟩] := by
  have hprimary : Spells (rule .primary) [⟨.int 0, 1⟩] := by
    refine .rule (Spells.alternative (.terminal (t := .int) rfl) ?_)
    exact List.mem_of_getElem? (i := 0) rfl
  have alone : ∀ {a b : Ebnf}, Spells a [⟨.int 0, 1⟩] →
      Spells (a ++ many b) [⟨.int 0, 1⟩] := fun h => .seq h .stop
  have hpostfixed : Spells (rule .postfixed) _ := .rule (alone hprimary)
  have hunary : Spells (rule .unary) _ := .rule (.second hpostfixed)
  have hterm3 : Spells (rule .term3) _ := .rule (alone hunary)
  have hterm2 : Spells (rule .term2) _ := .rule (alone hterm3)
  have hterm1 : Spells (rule .term1) _ := .rule (alone hterm2)
  have hexpr : Spells (rule .expr) _ := .rule (alone hterm1)
  cases n with
  | program | instruction | condition | size => simp at hn
  | expr => exact hexpr
  | term1 => exact hterm1
  | term2 => exact hterm2
  | term3 => exact hterm3
  | unary => exact hunary
  | postfixed => exact hpostfixed
  | primary => exact hprimary

theorem rule_inhabited (n : Nonterminal) : ∃ ts, Spells (rule n) ts := by
  have hexpr := spells_number .expr (by simp)
  cases n with
  | program => exact ⟨[], .rule .stop⟩
  | instruction =>
      have hbreak : Spells (word .break_ ++ symbol .semicolon)
          ([⟨.word .break_, 1⟩] ++ [⟨.symbol .semicolon, 1⟩]) :=
        .seq (.terminal rfl) (.terminal rfl)
      exact ⟨_, .rule (hbreak.alternative (List.mem_of_getElem? (i := 6) rfl))⟩
  | condition =>
      have hop : Spells (symbol .eq) [⟨.symbol .eq, 1⟩] := .terminal rfl
      have hops := hop.alternative (r := symbol .eq ||| symbol .ne ||| symbol .lt
        ||| symbol .gt ||| symbol .le ||| symbol .ge)
        (List.mem_of_getElem? (i := 0) rfl)
      exact ⟨_, .rule (.seq (.seq hexpr hops) hexpr)⟩
  | size => exact ⟨[⟨.int 0, 1⟩], .rule (.seq .absent (.terminal rfl))⟩
  | _ => exact ⟨_, spells_number _ (by simp)⟩

theorem terminal_inhabited (t : Terminal) : ∃ ts, Spells (terminal t) ts := by
  cases t with
  | int => exact ⟨[⟨.int 0, 1⟩], .terminal rfl⟩
  | float => exact ⟨[⟨.float 0, 1⟩], .terminal rfl⟩
  | str => exact ⟨[⟨.str "", 1⟩], .terminal rfl⟩
  | ident => exact ⟨[⟨.ident "x", 1⟩], .terminal rfl⟩
  | word k => exact ⟨[⟨.word k, 1⟩], .terminal rfl⟩
  | symbol s => exact ⟨[⟨.symbol s, 1⟩], .terminal rfl⟩

theorem inhabited (r : Ebnf) : ∃ ts, Spells r ts := by
  induction r with
  | terminal t => exact terminal_inhabited t
  | rule n => exact rule_inhabited n
  | seq a b iha ihb =>
      obtain ⟨us, hus⟩ := iha
      obtain ⟨vs, hvs⟩ := ihb
      exact ⟨us ++ vs, .seq hus hvs⟩
  | either a b iha _ =>
      obtain ⟨us, hus⟩ := iha
      exact ⟨us, .first hus⟩
  | many => exact ⟨[], .stop⟩
  | maybe => exact ⟨[], .absent⟩

end Ebnf

/-! ## Beginnings -/

/-- More tokens make these a word of the rule. -/
def Begins (r : Ebnf) (us : List Token) : Prop := ∃ vs, Spells r (us ++ vs)

theorem Begins.take {r : Ebnf} {us vs : List Token} (h : Begins r (us ++ vs)) :
    Begins r us := by
  obtain ⟨ws, hws⟩ := h
  rw [List.append_assoc] at hws
  exact ⟨vs ++ ws, hws⟩

/-- The tokens of `ts` before the suffix `rest` begin a word of the rule. -/
def Reaches (r : Ebnf) (ts rest : List Token) : Prop :=
  ∃ us, ts = us ++ rest ∧ Begins r us

namespace Reaches

variable {a b : Ebnf} {ts mid rest : List Token}

theorem here (r : Ebnf) (ts : List Token) : Reaches r ts ts := by
  obtain ⟨vs, hvs⟩ := r.inhabited
  exact ⟨[], rfl, vs, hvs⟩

theorem imp (ha : Reaches a ts rest) (h : ∀ us, Spells a us → Spells b us) :
    Reaches b ts rest := by
  obtain ⟨us, rfl, vs, hvs⟩ := ha
  exact ⟨us, rfl, vs, h _ hvs⟩

theorem rule {n : Nonterminal} (h : Reaches (Ebnf.grammar n) ts rest) :
    Reaches (.rule n) ts rest :=
  h.imp fun _ => .rule

theorem first (ha : Reaches a ts rest) : Reaches (a ||| b) ts rest :=
  ha.imp fun _ => .first

theorem second (hb : Reaches b ts rest) : Reaches (a ||| b) ts rest :=
  hb.imp fun _ => .second

/-- Alternatives are counted from zero. -/
theorem alternative (i : Nat) (hi : b.alternatives[i]? = some a)
    (ha : Reaches a ts rest) : Reaches b ts rest :=
  ha.imp fun _ h => h.alternative (List.mem_of_getElem? hi)

theorem present (ha : Reaches a ts rest) : Reaches (.maybe a) ts rest :=
  ha.imp fun _ => .present

/-- What follows in a sequence can follow. -/
theorem left (ha : Reaches a ts rest) : Reaches (a ++ b) ts rest := by
  obtain ⟨us, rfl, vs, hvs⟩ := ha
  obtain ⟨ws, hws⟩ := b.inhabited
  refine ⟨us, rfl, vs ++ ws, ?_⟩
  rw [← List.append_assoc]
  exact .seq hvs hws

/-- The first item of a list is reached into. -/
theorem item (ha : Reaches a ts rest) : Reaches (.many a) ts rest := by
  refine ha.imp ?_
  intro us hus
  have hmore : Spells (.many a) (us ++ []) := .more hus .stop
  rwa [List.append_nil] at hmore

end Reaches

namespace Takes

variable {a b : Ebnf} {ts mid rest : List Token}

theorem reaches (ha : Takes a ts mid) (hb : Reaches b mid rest) :
    Reaches (a ++ b) ts rest := by
  obtain ⟨us, rfl, hus⟩ := ha
  obtain ⟨vs, rfl, ws, hws⟩ := hb
  refine ⟨us ++ vs, (List.append_assoc us vs rest).symm, ws, ?_⟩
  rw [List.append_assoc]
  exact .seq hus hws

theorem reaches_more (ha : Takes a ts mid) (hb : Reaches (.many a) mid rest) :
    Reaches (.many a) ts rest := by
  obtain ⟨us, rfl, hus⟩ := ha
  obtain ⟨vs, rfl, ws, hws⟩ := hb
  refine ⟨us ++ vs, (List.append_assoc us vs rest).symm, ws, ?_⟩
  rw [List.append_assoc]
  exact .more hus hws

end Takes

end MatrixLang
