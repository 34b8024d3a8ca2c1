import MatrixLang.Proofs.Except
import MatrixLang.Proofs.Grammar.Reading
import MatrixLang.Proofs.Run.Visits
import MatrixLang.Proofs.Token.Placed

/-!
# The trees that are read

From tokens without negative integers every reader makes trees in normal form in
which no integer is negative either (`Expr.Produced`, `Stmt.Produced`). There is
one lemma for each reader, and it also says that the tokens that are left have no
negative integers, so that the next reader can go on (`Makes`).

Two readers look at what they were given. A bracket list decides from its items
whether they are the rows of a matrix (`bracketed_produced`). And an `else` is
never left behind a statement that it could belong to, which is why the branch
before an `else` does not end open (`MakesStmt`).

The trees are the same ones if the reading stops at a mistake later on: the
statements before it are kept as they were read (`statements_produced`).
-/

namespace MatrixLang

/-! ## The integers of a tree -/

def Place.indices : Place → List Int64
  | .var _ => []
  | .item _ i => [i]
  | .cell _ i j => [i, j]

namespace Expr

mutual

/-- The integers of an expression, literals and indices. The sizes of a
constructor are not among them, since they may have a sign. -/
def ints : Expr → List Int64
  | .int _ n => [n]
  | .float _ _ | .str _ _ | .construct _ _ _ => []
  | .read _ p => p.indices
  | .binary _ _ l r | .compare _ _ l r => l.ints ++ r.ints
  | .vector _ es | .matrix _ es => intsAll es
  | .neg _ e | .transpose _ e => e.ints

def intsAll : List Expr → List Int64
  | [] => []
  | e :: rest => e.ints ++ intsAll rest

end

theorem mem_intsAll {n : Int64} {es : List Expr} :
    n ∈ intsAll es ↔ ∃ e ∈ es, n ∈ e.ints := by
  induction es with
  | nil => simp [intsAll]
  | cons e rest ih => simp [intsAll, ih]

/-- An expression as it can be read. -/
structure Produced (e : Expr) : Prop where
  normal : e.isNormal plainRow = true
  unsigned : ∀ n ∈ e.ints, 0 ≤ n.toInt

/-- A condition as it can be read. -/
structure ProducedTest (e : Expr) : Prop where
  normal : Stmt.isNormalTest plainRow e = true
  unsigned : ∀ n ∈ e.ints, 0 ≤ n.toInt

end Expr

namespace Stmt

/-- The integers in a statement itself, without those in the statements that it
holds. -/
def ints : Stmt → List Int64
  | .assign _ _ p e => p.indices ++ e.ints
  | .branch _ test _ _ | .loop _ test _ => test.ints
  | .count _ _ r _ => r.start.ints ++ r.stop.ints
  | .ret _ e => e.ints
  | .print _ es => Expr.intsAll es
  | .block .. | .break_ _ | .continue_ _ => []

def range? : Stmt → Option Range
  | .count _ _ r _ => some r
  | _ => none

/-- What can be read besides the form: integers have no sign, and a range starts
where its first bound does. -/
structure Exact (s : Stmt) : Prop where
  unsigned : ∀ n ∈ s.ints, 0 ≤ n.toInt
  aligned : ∀ r ∈ s.range?, r.line = r.start.line

/-- A statement as it can be read. -/
structure Produced (s : Stmt) : Prop where
  normal : s.isNormal Expr.plainRow = true
  exact : ∀ part ∈ s.parts, part.Exact

end Stmt

/-! ## Expressions from their parts -/

namespace Expr.Produced

variable {e l r : Expr} {es : List Expr} {line : Nat}

theorem int {n : Int64} (h : 0 ≤ n.toInt) : (Expr.int line n).Produced where
  normal := rfl
  unsigned := by simpa [ints] using h

theorem float (line : Nat) (x : Float) : (Expr.float line x).Produced :=
  ⟨rfl, nofun⟩

theorem str (line : Nat) (s : String) : (Expr.str line s).Produced :=
  ⟨rfl, nofun⟩

theorem construct (line : Nat) (f : Constructor) (d : Dims) :
    (Expr.construct line f d).Produced :=
  ⟨rfl, nofun⟩

theorem read {p : Place} (h : ∀ i ∈ p.indices, 0 ≤ i.toInt) :
    (Expr.read line p).Produced :=
  ⟨rfl, h⟩

theorem binary (op : BinaryOp) (hl : l.Produced) (hr : r.Produced) :
    (Expr.binary line op l r).Produced where
  normal := by simp only [isNormal, hl.normal, hr.normal, Bool.and_self]
  unsigned := List.forall_mem_append.mpr ⟨hl.unsigned, hr.unsigned⟩

theorem neg (he : e.Produced) : (Expr.neg line e).Produced :=
  ⟨he.normal, he.unsigned⟩

theorem transpose (he : e.Produced) : (Expr.transpose line e).Produced :=
  ⟨he.normal, he.unsigned⟩

theorem all_unsigned (h : ∀ e ∈ es, e.Produced) :
    ∀ n ∈ intsAll es, 0 ≤ n.toInt := by
  intro n hn
  obtain ⟨e, he, hn⟩ := mem_intsAll.mp hn
  exact (h e he).unsigned n hn

theorem all_normal (h : ∀ e ∈ es, e.Produced) : areNormal plainRow es = true :=
  areNormal_iff.mpr fun e he => (h e he).normal

/-- What looks like a row in a list is one: a vector literal has an item that is
no row, and `[]` counts as the empty one. -/
theorem asRow (he : e.Produced) (hrow : e.isRowLike = true) :
    (Reader.asRow e).isRow plainRow = true ∧ (Reader.asRow e).ints = e.ints := by
  cases e with
  | vector line items =>
      have hitems := he.normal
      simp only [isNormal, Bool.and_eq_true] at hitems
      refine ⟨?_, rfl⟩
      simp only [Reader.asRow, isRow, plainRow, hitems.1, hitems.2, Bool.or_true,
        Bool.and_self]
  | matrix line rows =>
      cases rows with
      | nil => exact ⟨rfl, rfl⟩
      | cons row rest => cases hrow
  | _ => cases hrow

theorem bracketed (line : Nat) (h : ∀ e ∈ es, e.Produced) :
    (Reader.bracketed line es).Produced := by
  unfold Reader.bracketed
  split
  · rename_i hrows
    have hrow : ∀ e ∈ es, (Reader.asRow e).isRow plainRow = true
        ∧ (Reader.asRow e).ints = e.ints := fun e he =>
      (h e he).asRow (List.all_eq_true.mp hrows e he)
    constructor
    case normal =>
        refine areRows_iff.mpr fun row hmem => ?_
        obtain ⟨e, he, rfl⟩ := List.mem_map.mp hmem
        exact (hrow e he).1
    case unsigned =>
        intro n hn
        obtain ⟨row, hmem, hn⟩ := mem_intsAll.mp hn
        obtain ⟨e, he, rfl⟩ := List.mem_map.mp hmem
        rw [(hrow e he).2] at hn
        exact (h e he).unsigned n hn
  · rename_i hplain
    refine ⟨?_, all_unsigned h⟩
    have hany : anyPlain es = true := by
      rw [anyPlain_eq_not_all]
      exact (Bool.not_eq_true' _).mpr (Bool.eq_false_iff.mpr hplain)
    simp only [isNormal, hany, all_normal h, Bool.and_self]

end Expr.Produced

namespace Reader

variable {ts rest : List Token} {n : Nat}

/-! ## Single tokens -/

/-- The integers among the tokens have no sign. -/
def Unsigned (ts : List Token) : Prop :=
  ∀ t ∈ ts, ∀ k, t.lexeme = .int k → 0 ≤ k.toInt

theorem Unsigned.tail {t : Token} (h : Unsigned (t :: ts)) : Unsigned ts :=
  (List.forall_mem_cons.mp h).2

/-- From tokens without negative integers the reader makes what is wanted, and
leaves tokens of this kind. -/
def Makes {α : Type} (read : Reader α) (P : α → Prop) : Prop :=
  ∀ ts, Unsigned ts → Settles (fun _ => True) (fun r => P r.1 ∧ Unsigned r.2) (read ts)

theorem skip?_unsigned {s : Symbol} (h : skip? s ts = some rest)
    (hts : Unsigned ts) : Unsigned rest := by
  unfold skip? at h
  split at h
  · split at h
    · cases h
      exact hts.tail
    · cases h
  · cases h

theorem expect_unsigned (s : Symbol) (hts : Unsigned ts) :
    Settles (fun _ => True) Unsigned (expect s ts) := by
  unfold expect
  split
  · exact skip?_unsigned ‹_› hts
  · trivial

theorem integer_makes : Makes integer (0 ≤ ·.toInt) := by
  intro ts hts
  unfold integer
  split
  · exact ⟨hts _ List.mem_cons_self _ rfl, hts.tail⟩
  · trivial

theorem identifier_makes : Makes identifier (fun _ => True) := by
  intro ts hts
  unfold identifier
  split
  · exact ⟨trivial, hts.tail⟩
  · trivial

theorem size_makes : Makes size (fun _ => True) := by
  intro ts hts
  unfold size
  split
  · rename_i hminus
    refine (integer_makes _ (skip?_unsigned hminus hts)).bind ?_
    rintro ⟨k, ts⟩ ⟨-, hts⟩
    exact ⟨trivial, hts⟩
  · exact (integer_makes ts hts).mono fun _ h => ⟨trivial, h.2⟩

theorem indices_makes (name : String) :
    Makes (indices name) (fun p => ∀ i ∈ p.indices, 0 ≤ i.toInt) := by
  intro ts hts
  refine (integer_makes ts hts).bind ?_
  rintro ⟨i, ts⟩ ⟨hi, hts⟩
  simp only
  split
  · refine (expect_unsigned _ hts).bind fun ts hts => ⟨?_, hts⟩
    simpa [Place.indices] using hi
  · rename_i hcomma
    refine (integer_makes _ (skip?_unsigned hcomma hts)).bind ?_
    rintro ⟨j, ts⟩ ⟨hj, hts⟩
    refine (expect_unsigned _ hts).bind fun ts hts => ⟨?_, hts⟩
    simpa [Place.indices] using And.intro hi hj

theorem dims_makes : Makes dims (fun _ => True) := by
  intro ts hts
  refine (expect_unsigned _ hts).bind fun ts hts => ?_
  refine (size_makes ts hts).bind ?_
  rintro ⟨m, ts⟩ ⟨-, hts⟩
  simp only
  split
  · exact (expect_unsigned _ hts).bind fun ts hts => ⟨trivial, hts⟩
  · rename_i hcomma
    refine (size_makes _ (skip?_unsigned hcomma hts)).bind ?_
    rintro ⟨n, ts⟩ ⟨-, hts⟩
    exact (expect_unsigned _ hts).bind fun ts hts => ⟨trivial, hts⟩

/-! ## Lists and levels of operators -/

theorem separated_makes {α : Type} {item : Reader α} {P : α → Prop}
    (hitem : Makes item P) (n : Nat) :
    Makes (separated item n) (fun xs => xs ≠ [] ∧ ∀ x ∈ xs, P x) := by
  induction n with
  | zero => exact fun _ _ => trivial
  | succ n ih =>
      intro ts hts
      refine (hitem ts hts).bind ?_
      rintro ⟨x, ts⟩ ⟨hx, hts⟩
      simp only
      split
      · exact ⟨⟨List.cons_ne_nil _ _, List.forall_mem_singleton.mpr hx⟩, hts⟩
      · rename_i hcomma
        refine (ih _ (skip?_unsigned hcomma hts)).bind ?_
        rintro ⟨xs, ts⟩ ⟨⟨-, hxs⟩, hts⟩
        exact ⟨⟨List.cons_ne_nil _ _, List.forall_mem_cons.mpr ⟨hx, hxs⟩⟩, hts⟩

theorem operator?_unsigned {level : Level} {op : BinaryOp}
    (h : operator? level ts = some (op, rest)) (hts : Unsigned ts) : Unsigned rest := by
  unfold operator? at h
  split at h
  · obtain ⟨_, -, hpair⟩ := Option.map_eq_some_iff.mp h
    cases hpair
    exact hts.tail
  · cases h

theorem operations_makes (level : Level) {operand : Reader Expr}
    (hoperand : Makes operand Expr.Produced) (n : Nat) {left : Expr}
    (hleft : left.Produced) : Makes (operations level operand n left) Expr.Produced := by
  induction n generalizing left with
  | zero => exact fun _ _ => trivial
  | succ n ih =>
      intro ts hts
      unfold operations
      split
      · exact ⟨hleft, hts⟩
      · rename_i op mid hop
        refine (hoperand mid (operator?_unsigned hop hts)).bind ?_
        rintro ⟨right, ts⟩ ⟨hright, hts⟩
        exact ih (.binary op hleft hright) ts hts

theorem expressionOf_makes {unary : Reader Expr} (hunary : Makes unary Expr.Produced)
    (n : Nat) : Makes (expressionOf n unary) Expr.Produced := by
  unfold expressionOf
  generalize levels = ls
  induction ls with
  | nil => exact hunary
  | cons level ls ih =>
      intro ts hts
      refine (ih ts hts).bind ?_
      rintro ⟨left, ts⟩ ⟨hleft, hts⟩
      exact operations_makes level ih n hleft ts hts

/-! ## Expressions -/

theorem transpositions_makes {e : Expr} (he : e.Produced) (hts : Unsigned ts) :
    (transpositions e ts).1.Produced ∧ Unsigned (transpositions e ts).2 := by
  induction ts generalizing e with
  | nil => exact ⟨he, hts⟩
  | cons t ts ih =>
      unfold transpositions
      split
      · rename_i heq
        cases heq
        exact ih he.transpose hts.tail
      · exact ⟨he, hts⟩

theorem primaryOf_makes {expression : Reader Expr}
    (hexpr : Makes expression Expr.Produced) (n : Nat) :
    Makes (primaryOf n expression) Expr.Produced := by
  intro ts hts
  unfold primaryOf
  split
  · exact ⟨.int (hts _ List.mem_cons_self _ rfl), hts.tail⟩
  · exact ⟨.float _ _, hts.tail⟩
  · exact ⟨.str _ _, hts.tail⟩
  · split
    · exact ⟨.read nofun, hts.tail⟩
    · rename_i hbracket
      refine (indices_makes _ _ (skip?_unsigned hbracket hts.tail)).bind ?_
      rintro ⟨p, ts⟩ ⟨hp, hts⟩
      exact ⟨.read hp, hts⟩
  · refine (hexpr _ hts.tail).bind ?_
    rintro ⟨e, ts⟩ ⟨he, hts⟩
    exact (expect_unsigned _ hts).bind fun ts hts => ⟨he, hts⟩
  · unfold bracketList
    split
    · exact ⟨⟨rfl, nofun⟩, skip?_unsigned ‹_› hts.tail⟩
    · refine (separated_makes hexpr n _ hts.tail).bind ?_
      rintro ⟨es, ts⟩ ⟨⟨-, hes⟩, hts⟩
      exact (expect_unsigned _ hts).bind fun ts hts => ⟨.bracketed _ hes, hts⟩
  · split
    · trivial
    · refine (dims_makes _ hts.tail).bind ?_
      rintro ⟨d, ts⟩ ⟨-, hts⟩
      exact ⟨.construct _ _ d, hts⟩
  · trivial

theorem unary_makes (n : Nat) : Makes (unary n) Expr.Produced := by
  induction n with
  | zero => exact fun _ _ => trivial
  | succ n ih =>
      intro ts hts
      unfold unary
      split
      · refine (ih _ hts.tail).bind ?_
        rintro ⟨e, ts⟩ ⟨he, hts⟩
        exact ⟨he.neg, hts⟩
      · refine (primaryOf_makes (expressionOf_makes ih n) n _ hts).bind ?_
        rintro ⟨e, ts⟩ ⟨he, hts⟩
        exact transpositions_makes he hts

theorem expression_makes (n : Nat) : Makes (expression n) Expr.Produced :=
  expressionOf_makes (unary_makes n) n

theorem relation_makes : Makes relation (fun _ => True) := by
  intro ts hts
  unfold relation
  split
  · split
    · exact ⟨trivial, hts.tail⟩
    · trivial
  · trivial

theorem condition_makes (n : Nat) : Makes (condition n) Expr.ProducedTest := by
  intro ts hts
  refine (expression_makes n ts hts).bind ?_
  rintro ⟨l, ts⟩ ⟨hl, hts⟩
  refine (relation_makes ts hts).bind ?_
  rintro ⟨op, ts⟩ ⟨-, hts⟩
  refine (expression_makes n ts hts).bind ?_
  rintro ⟨r, ts⟩ ⟨hr, hts⟩
  refine ⟨⟨?_, List.forall_mem_append.mpr ⟨hl.unsigned, hr.unsigned⟩⟩, hts⟩
  simp only [Stmt.isNormalTest, hl.normal, hr.normal, Bool.and_self]

theorem test_makes (n : Nat) : Makes (test n) Expr.ProducedTest := by
  intro ts hts
  refine (expect_unsigned _ hts).bind fun ts hts => ?_
  refine (condition_makes n ts hts).bind ?_
  rintro ⟨e, ts⟩ ⟨he, hts⟩
  exact (expect_unsigned _ hts).bind fun ts hts => ⟨he, hts⟩

end Reader

/-! ## Statements from their parts -/

namespace Stmt

theorem areNormal_iff {row : List Expr → Bool} {body : List Stmt} :
    areNormal row body = true ↔ ∀ s ∈ body, s.isNormal row = true := by
  induction body with
  | nil => simp [areNormal]
  | cons s rest ih => simp [areNormal, ih]

namespace Produced

variable {line : Nat} {e : Expr} {s yes no body : Stmt}

/-- A statement that holds no others. -/
theorem single (hparts : s.parts = [s]) (hnormal : s.isNormal Expr.plainRow = true)
    (hunsigned : ∀ n ∈ s.ints, 0 ≤ n.toInt) (hrange : s.range? = none) :
    s.Produced where
  normal := hnormal
  exact := by
    rw [hparts, List.forall_mem_singleton]
    exact ⟨hunsigned, by rw [hrange]; exact nofun⟩

theorem block {ss : List Stmt} (h : ∀ s ∈ ss, s.Produced) :
    (Stmt.block line ss).Produced where
  normal := areNormal_iff.mpr fun s hs => (h s hs).normal
  exact := by
    refine List.forall_mem_cons.mpr ⟨⟨nofun, nofun⟩, fun part hpart => ?_⟩
    obtain ⟨s, hs, hpart⟩ := mem_partsAll.mp hpart
    exact (h s hs).exact part hpart

theorem assign {op : AssignOp} {p : Place} (hop : op = .set ∨ p = .var p.name)
    (hp : ∀ i ∈ p.indices, 0 ≤ i.toInt) (he : e.Produced) :
    (Stmt.assign line op p e).Produced := by
  refine single rfl ?_ (List.forall_mem_append.mpr ⟨hp, he.unsigned⟩) rfl
  simpa [isNormal, he.normal] using hop

theorem ifOnly (ht : e.ProducedTest) (hyes : yes.Produced) :
    (Stmt.branch line e yes none).Produced where
  normal := by simp only [isNormal, ht.normal, hyes.normal, Bool.and_self]
  exact := List.forall_mem_cons.mpr ⟨⟨ht.unsigned, nofun⟩, hyes.exact⟩

theorem ifElse (ht : e.ProducedTest) (hyes : yes.Produced)
    (hopen : yes.endsOpen = false) (hno : no.Produced) :
    (Stmt.branch line e yes (some no)).Produced where
  normal := by
    simp only [isNormal, ht.normal, hyes.normal, hopen, hno.normal, Bool.not_false,
      Bool.and_self]
  exact := List.forall_mem_cons.mpr ⟨⟨ht.unsigned, nofun⟩,
    List.forall_mem_append.mpr ⟨hyes.exact, hno.exact⟩⟩

theorem loop (ht : e.ProducedTest) (hbody : body.Produced) :
    (Stmt.loop line e body).Produced where
  normal := by simp only [isNormal, ht.normal, hbody.normal, Bool.and_self]
  exact := List.forall_mem_cons.mpr ⟨⟨ht.unsigned, nofun⟩, hbody.exact⟩

theorem count {var : String} {start stop : Expr} (hstart : start.Produced)
    (hstop : stop.Produced) (hbody : body.Produced) :
    (Stmt.count line var ⟨start.line, start, stop⟩ body).Produced where
  normal := by
    simp only [isNormal, hstart.normal, hstop.normal, hbody.normal, Bool.and_self]
  exact := by
    refine List.forall_mem_cons.mpr ⟨⟨?_, ?_⟩, hbody.exact⟩
    · exact List.forall_mem_append.mpr ⟨hstart.unsigned, hstop.unsigned⟩
    · rintro _ ⟨⟩
      rfl

theorem ret (he : e.Produced) : (Stmt.ret line e).Produced :=
  single rfl he.normal he.unsigned rfl

theorem print {es : List Expr} (hne : es ≠ []) (hes : ∀ e ∈ es, e.Produced) :
    (Stmt.print line es).Produced := by
  refine single rfl ?_ (Expr.Produced.all_unsigned hes) rfl
  simp [isNormal, hne, Expr.Produced.all_normal hes]

end Produced

end Stmt

namespace Reader

variable {ts rest : List Token} {n : Nat}

/-! ## Statements -/

/-- A statement was read, and the tokens that are left do not start with an `else`
that it would take. -/
structure Made (s : Stmt) (rest : List Token) : Prop where
  produced : s.Produced
  unsigned : Unsigned rest
  closed : s.endsOpen = true → startsElse rest = false

def MakesStmt (st : Reader Stmt) : Prop :=
  ∀ ts, Unsigned ts → Settles (fun _ => True) (fun r => Made r.1 r.2) (st ts)

theorem assignOp_makes : Makes assignOp (fun _ => True) := by
  intro ts hts
  unfold assignOp
  split
  · split
    · exact ⟨trivial, hts.tail⟩
    · trivial
  · trivial

theorem assignment_makes (n line : Nat) (name : String) (hts : Unsigned ts) :
    Settles (fun _ => True) (fun r => Made r.1 r.2) (assignment n line name ts) := by
  unfold assignment
  split
  · refine (assignOp_makes ts hts).bind ?_
    rintro ⟨op, ts⟩ ⟨-, hts⟩
    refine (expression_makes n ts hts).bind ?_
    rintro ⟨e, ts⟩ ⟨he, hts⟩
    refine (expect_unsigned _ hts).bind fun ts hts => ⟨?_, hts, nofun⟩
    exact .assign (.inr rfl) nofun he
  · rename_i hbracket
    refine (indices_makes name _ (skip?_unsigned hbracket hts)).bind ?_
    rintro ⟨p, ts⟩ ⟨hp, hts⟩
    refine (expect_unsigned _ hts).bind fun ts hts => ?_
    refine (expression_makes n ts hts).bind ?_
    rintro ⟨e, ts⟩ ⟨he, hts⟩
    refine (expect_unsigned _ hts).bind fun ts hts => ⟨?_, hts, nofun⟩
    exact .assign (.inl rfl) hp he

theorem header_makes (n : Nat) : Makes (header n)
    (fun h => h.2.line = h.2.start.line ∧ h.2.start.Produced
      ∧ h.2.stop.Produced) := by
  intro ts hts
  refine (identifier_makes ts hts).bind ?_
  rintro ⟨var, ts⟩ ⟨-, hts⟩
  refine (expect_unsigned _ hts).bind fun ts hts => ?_
  refine (expression_makes n ts hts).bind ?_
  rintro ⟨start, ts⟩ ⟨hstart, hts⟩
  refine (expect_unsigned _ hts).bind fun ts hts => ?_
  refine (expression_makes n ts hts).bind ?_
  rintro ⟨stop, ts⟩ ⟨hstop, hts⟩
  exact ⟨⟨rfl, hstart, hstop⟩, hts⟩

section

variable {st : Reader Stmt} (hst : MakesStmt st)

include hst

theorem blockRest_makes (n : Nat) :
    Makes (blockRest st n) (fun ss => ∀ s ∈ ss, s.Produced) := by
  induction n with
  | zero => exact fun _ _ => trivial
  | succ n ih =>
      intro ts hts
      unfold blockRest
      split
      · exact ⟨nofun, skip?_unsigned ‹_› hts⟩
      · refine (hst ts hts).bind ?_
        rintro ⟨s, ts⟩ ⟨hs, hts, -⟩
        refine (ih ts hts).bind ?_
        rintro ⟨ss, ts⟩ ⟨hss, hts⟩
        exact ⟨List.forall_mem_cons.mpr ⟨hs, hss⟩, hts⟩

/-- A branch and what follows it: an `else` belongs to it, so it is an `if` that
ends open or a whole statement. -/
theorem branch_makes (line : Nat) {test : Expr} {yes : Stmt}
    (htest : test.ProducedTest) (hyes : yes.Produced) (hts : Unsigned ts)
    (hopen : yes.endsOpen = true → startsElse ts = false) :
    Settles (fun _ => True) (fun r => Made (.branch line test yes r.1) r.2)
      (elseBranch st ts) := by
  unfold elseBranch
  split
  · refine (hst _ hts.tail).bind ?_
    rintro ⟨no, ts⟩ ⟨hno, hts, hopenNo⟩
    refine ⟨.ifElse htest hyes ?_ hno, hts, hopenNo⟩
    exact Bool.eq_false_iff.mpr fun h => by cases hopen h
  · refine ⟨.ifOnly htest hyes, hts, fun _ => ?_⟩
    unfold startsElse
    split
    · simp_all
    · rfl

end

theorem statement_makes (n : Nat) : MakesStmt (statement n) := by
  induction n with
  | zero => exact fun _ _ => trivial
  | succ n ih =>
      intro ts hts
      unfold statement
      split
      · refine (blockRest_makes ih n _ hts.tail).bind ?_
        rintro ⟨body, ts⟩ ⟨hbody, hts⟩
        exact ⟨.block hbody, hts, nofun⟩
      · rename_i line ts
        refine (test_makes n ts hts.tail).bind ?_
        rintro ⟨e, ts⟩ ⟨he, hts⟩
        refine (ih ts hts).bind ?_
        rintro ⟨yes, ts⟩ ⟨hyes, hts, hopen⟩
        exact (branch_makes ih line he hyes hts hopen).bind fun _ h => h
      · refine (test_makes n _ hts.tail).bind ?_
        rintro ⟨e, ts⟩ ⟨he, hts⟩
        refine (ih ts hts).bind ?_
        rintro ⟨body, ts⟩ ⟨hbody, hts, hopen⟩
        exact ⟨.loop he hbody, hts, hopen⟩
      · refine (header_makes n _ hts.tail).bind ?_
        rintro ⟨⟨var, line, start, stop⟩, ts⟩ ⟨⟨hline, hstart, hstop⟩, hts⟩
        obtain rfl : line = start.line := hline
        refine (ih ts hts).bind ?_
        rintro ⟨body, ts⟩ ⟨hbody, hts, hopen⟩
        exact ⟨.count hstart hstop hbody, hts, hopen⟩
      · refine (expect_unsigned _ hts.tail).bind fun ts hts => ⟨?_, hts, nofun⟩
        exact .single rfl rfl nofun rfl
      · refine (expect_unsigned _ hts.tail).bind fun ts hts => ⟨?_, hts, nofun⟩
        exact .single rfl rfl nofun rfl
      · refine (expression_makes n _ hts.tail).bind ?_
        rintro ⟨e, ts⟩ ⟨he, hts⟩
        exact (expect_unsigned _ hts).bind fun ts hts => ⟨.ret he, hts, nofun⟩
      · refine (separated_makes (expression_makes n) n _ hts.tail).bind ?_
        rintro ⟨es, ts⟩ ⟨⟨hne, hes⟩, hts⟩
        exact (expect_unsigned _ hts).bind fun ts hts => ⟨.print hne hes, hts, nofun⟩
      · exact assignment_makes n _ _ hts.tail
      · trivial

end Reader

/-! ## Programs -/

open Reader (Unsigned)

/-- The statements before a mistake are kept as they were read. -/
theorem statements_produced {ts : List Token} (h : Unsigned ts) (n : Nat) :
    ∀ s ∈ (Parse.statements n ts).program, s.Produced := by
  induction n generalizing ts with
  | zero => exact List.forall_mem_nil _
  | succ n ih =>
      unfold Parse.statements
      split
      · exact List.forall_mem_nil _
      · split
        · exact List.forall_mem_nil _
        · rename_i s rest hs
          obtain ⟨hproduced, hrest, -⟩ := (Reader.statement_makes n ts h).gives hs
          exact List.forall_mem_cons.mpr ⟨hproduced, ih hrest⟩

theorem Parse.ended_unsigned {ts : List Token} (h : Unsigned ts) :
    Unsigned (Parse.ended ts) := by
  unfold Parse.ended
  split
  · exact h
  · split
    · exact nofun
    · rename_i last hlast
      refine List.forall_mem_append.mpr ⟨h, fun t ht => ?_⟩
      obtain rfl := List.eq_of_mem_replicate ht
      exact h _ (List.mem_of_getLast? hlast)

theorem parse_unsigned {ts : List Token} (h : Unsigned ts) :
    ∀ s ∈ (parse ts).program, s.Produced :=
  statements_produced (Parse.ended_unsigned h) _

theorem Slice.reading_unsigned (slice : Slice) {k : Int64}
    (h : slice.reading = .lexeme (.int k)) : 0 ≤ k.toInt := by
  cases hcls : slice.cls with
  | int =>
      simp only [Slice.reading, hcls] at h
      split at h
      · rename_i hmax
        cases h
        rw [Int64.toInt_ofNat_of_lt]
        · omega
        · have hsize : Int64.maxValue.toInt = 9223372036854775807 := by decide
          omega
      · cases h
  | word =>
      simp only [Slice.reading, hcls] at h
      split at h <;> cases h
  | _ =>
      simp only [Slice.reading, hcls] at h
      cases h

/-- The numerals of a text have no sign. -/
theorem scan_unsigned (source : String) : Unsigned (scan source).tokens := by
  rw [scan_tokens]
  refine List.forall_mem_append.mpr ⟨fun t ht k hk => ?_, ?_⟩
  · obtain ⟨⟨slice, line⟩, -, ht⟩ := List.mem_filterMap.mp ht
    obtain ⟨l, hl, rfl⟩ := Option.map_eq_some_iff.mp ht
    obtain rfl : l = .int k := hk
    refine Slice.reading_unsigned slice ?_
    cases hreading : slice.reading with
    | lexeme l => rw [hreading] at hl; cases hl; rfl
    | nothing | problem p => rw [hreading] at hl; cases hl
  · rintro t ht k hk
    obtain rfl := List.mem_singleton.mp ht
    cases hk

end MatrixLang
