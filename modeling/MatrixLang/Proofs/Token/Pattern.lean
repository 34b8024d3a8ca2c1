import Mathlib.Computability.Language
import MatrixLang.Token.Basic

/-!
# The patterns of the scanner

What a slice of a text may look like, as a table of regular languages
(`Pattern.language`). It says nothing about how a text is cut: at one place
several patterns may match, and one of them pieces of different lengths.

The lemmas give the words of each language by the characters in them.
-/

namespace MatrixLang

open scoped Computability

/-! ## Languages -/

/-- One character of a class. -/
def oneOf (p : Char → Bool) : Language Char := {w | ∃ c, p c = true ∧ w = [c]}

def literal (cs : List Char) : Language Char := {cs}

/-- At least one word, one after another. -/
def oneOrMore (l : Language Char) : Language Char := l * l∗

def digit : Language Char := oneOf fun c => '0' ≤ c && c ≤ '9'

def letter (c : Char) : Bool :=
  ('a' ≤ c && c ≤ 'z') || ('A' ≤ c && c ≤ 'Z') || c = '_'

/-- A mantissa may be followed by an exponent, and an exponent may have a sign. -/
def exponent : Language Char :=
  oneOf (fun c => c = 'e' || c = 'E') * (1 + oneOf fun c => c = '+' || c = '-')
    * oneOrMore digit

/-- A quote and what may follow it inside of a string: any characters but a quote
and a backslash, and any character after a backslash. -/
def opened : Language Char :=
  literal ['"'] * (oneOf (fun c => c ≠ '"' && c ≠ '\\')
    + literal ['\\'] * oneOf fun _ => true)∗

inductive Pattern where
  | blank
  | comment
  | newline
  | word (k : Keyword)
  | symbol (s : Symbol)
  | float
  | int
  | string
  /-- A string without its closing quote. -/
  | openString
  | ident
deriving Repr, DecidableEq

namespace Pattern

def language : Pattern → Language Char
  | .blank => oneOrMore (oneOf fun c => [' ', '\t', '\r', '\x0c'].contains c)
  | .comment => literal ['#'] * (oneOf fun c => c ≠ '\n')∗
  | .newline => literal ['\n']
  | .word k => literal k.chars
  | .symbol s => literal s.chars
  | .float =>
      (digit∗ * literal ['.'] * oneOrMore digit
          + oneOrMore digit * literal ['.'] * digit∗) * (1 + exponent)
        + oneOrMore digit * exponent
  | .int => oneOrMore digit
  | .string => opened * literal ['"']
  | .openString => opened
  | .ident => oneOf letter * (oneOf fun c => letter c || ('0' ≤ c && c ≤ '9'))∗

end Pattern

/-! ## Words of single characters -/

variable {p q : Char → Bool} {u : List Char}

theorem append_mem_many {l : Language Char} {w : List Char} (hw : w ∈ l)
    (hu : u ∈ l∗) : w ++ u ∈ l∗ := by
  rw [← Language.one_add_self_mul_kstar_eq_kstar]
  exact .inr (Language.append_mem_mul hw hu)

theorem mem_oneOf : u ∈ oneOf p ↔ ∃ c, p c = true ∧ u = [c] := Iff.rfl

theorem mem_many_oneOf : u ∈ (oneOf p)∗ ↔ ∀ c ∈ u, p c = true := by
  rw [Language.mem_kstar]
  constructor
  · rintro ⟨ws, rfl, hws⟩ c hc
    obtain ⟨w, hw, hcw⟩ := List.mem_flatten.mp hc
    obtain ⟨d, hd, rfl⟩ := mem_oneOf.mp (hws w hw)
    rwa [List.mem_singleton.mp hcw]
  · intro hu
    refine ⟨u.map fun c => [c], (List.flatMap_singleton' u).symm, fun w hw => ?_⟩
    obtain ⟨c, hc, rfl⟩ := List.mem_map.mp hw
    exact ⟨c, hu c hc, rfl⟩

theorem mem_oneOf_many :
    u ∈ oneOf p * (oneOf q)∗
      ↔ ∃ c cs, u = c :: cs ∧ p c = true ∧ ∀ d ∈ cs, q d = true := by
  rw [Language.mem_mul]
  constructor
  · rintro ⟨_, ⟨c, hc, rfl⟩, cs, hcs, rfl⟩
    exact ⟨c, cs, rfl, hc, mem_many_oneOf.mp hcs⟩
  · rintro ⟨c, cs, rfl, hc, hcs⟩
    exact ⟨[c], ⟨c, hc, rfl⟩, cs, mem_many_oneOf.mpr hcs, rfl⟩

theorem mem_oneOrMore_oneOf :
    u ∈ oneOrMore (oneOf p) ↔ u ≠ [] ∧ ∀ c ∈ u, p c = true := by
  rw [oneOrMore, mem_oneOf_many]
  constructor
  · rintro ⟨c, cs, rfl, hc, hcs⟩
    exact ⟨List.cons_ne_nil c cs, List.forall_mem_cons.mpr ⟨hc, hcs⟩⟩
  · rintro ⟨hne, hu⟩
    obtain ⟨c, cs, rfl⟩ := List.exists_cons_of_ne_nil hne
    exact ⟨c, cs, rfl, List.forall_mem_cons.mp hu⟩

/-! ## Numbers -/

theorem digit_eq : digit = oneOf Char.isDigit := by
  have hclass : (fun c : Char => '0' ≤ c && c ≤ '9') = Char.isDigit := by
    funext c
    simp [Char.isDigit, Char.le_def]
  rw [digit, hclass]

theorem mem_int :
    u ∈ Pattern.int.language ↔ u ≠ [] ∧ ∀ c ∈ u, c.isDigit = true := by
  rw [Pattern.language, digit_eq, mem_oneOrMore_oneOf]

theorem mem_exponent :
    u ∈ exponent ↔ ∃ e sign ds, u = e :: (sign ++ ds) ∧ (e = 'e' ∨ e = 'E')
      ∧ (sign = [] ∨ sign = ['+'] ∨ sign = ['-'])
      ∧ ds ≠ [] ∧ ∀ c ∈ ds, c.isDigit = true := by
  rw [exponent, Language.mem_mul, digit_eq]
  constructor
  · rintro ⟨v, hv, ds, hds, rfl⟩
    obtain ⟨_, ⟨e, he, rfl⟩, sign, hsign, rfl⟩ := Language.mem_mul.mp hv
    refine ⟨e, sign, ds, rfl, by simpa using he, ?_, mem_oneOrMore_oneOf.mp hds⟩
    rcases (Language.mem_add _ _ _).mp hsign with h | ⟨c, hc, rfl⟩
    · exact .inl h
    · rcases Bool.or_eq_true_iff.mp hc with h | h
      · exact .inr (.inl (by rw [of_decide_eq_true h]))
      · exact .inr (.inr (by rw [of_decide_eq_true h]))
  · rintro ⟨e, sign, ds, rfl, he, hsign, hds⟩
    refine ⟨[e] ++ sign, ?_, ds, mem_oneOrMore_oneOf.mpr hds, rfl⟩
    refine Language.append_mem_mul ⟨e, by simpa using he, rfl⟩ ?_
    rw [Language.mem_add]
    rcases hsign with rfl | rfl | rfl
    · exact .inl rfl
    · exact .inr ⟨'+', rfl, rfl⟩
    · exact .inr ⟨'-', rfl, rfl⟩

/-- Digits, a fraction and an exponent that together make a float: there is a
digit before the exponent, and a point or an exponent. -/
structure FloatParts (w f x : List Char) : Prop where
  whole : ∀ c ∈ w, c.isDigit = true
  fraction : f = [] ∨ ∃ ds, f = '.' :: ds ∧ ∀ c ∈ ds, c.isDigit = true
  exponent : x = [] ∨ x ∈ exponent
  digits : w ≠ [] ∨ 1 < f.length
  float : f ≠ [] ∨ x ≠ []

theorem mem_float :
    u ∈ Pattern.float.language ↔ ∃ w f x, u = w ++ f ++ x ∧ FloatParts w f x := by
  rw [Pattern.language, digit_eq]
  constructor
  · intro h
    rcases (Language.mem_add _ _ _).mp h with h | h
    · obtain ⟨m, hm, x, hx, rfl⟩ := Language.mem_mul.mp h
      have hx : x = [] ∨ x ∈ MatrixLang.exponent :=
        (Language.mem_add _ _ _).mp hx
      rcases (Language.mem_add _ _ _).mp hm with hm | hm
      · obtain ⟨v, hv, ds, hds, rfl⟩ := Language.mem_mul.mp hm
        obtain ⟨w, hw, _, rfl, rfl⟩ := Language.mem_mul.mp hv
        obtain ⟨hne, hds⟩ := mem_oneOrMore_oneOf.mp hds
        refine ⟨w, '.' :: ds, x, by simp, mem_many_oneOf.mp hw,
          .inr ⟨ds, rfl, hds⟩, hx, .inr ?_, .inl (List.cons_ne_nil _ _)⟩
        rw [List.length_cons]
        exact Nat.succ_lt_succ (List.length_pos_iff.mpr hne)
      · obtain ⟨v, hv, ds, hds, rfl⟩ := Language.mem_mul.mp hm
        obtain ⟨w, hw, _, rfl, rfl⟩ := Language.mem_mul.mp hv
        obtain ⟨hne, hw⟩ := mem_oneOrMore_oneOf.mp hw
        exact ⟨w, '.' :: ds, x, by simp, hw, .inr ⟨ds, rfl, mem_many_oneOf.mp hds⟩,
          hx, .inl hne, .inl (List.cons_ne_nil _ _)⟩
    · obtain ⟨w, hw, x, hx, rfl⟩ := Language.mem_mul.mp h
      obtain ⟨hne, hw⟩ := mem_oneOrMore_oneOf.mp hw
      obtain ⟨e, sign, ds, rfl, -⟩ := mem_exponent.mp hx
      exact ⟨w, [], _, by simp, hw, .inl rfl, .inr hx, .inl hne,
        .inr (List.cons_ne_nil _ _)⟩
  · rintro ⟨w, f, x, rfl, hw, hf, hx, hdigits, hfloat⟩
    rw [Language.mem_add]
    rcases hf with rfl | ⟨ds, rfl, hds⟩
    · have hne : w ≠ [] := hdigits.resolve_right (by simp)
      have hx : x ∈ MatrixLang.exponent :=
        hx.resolve_left (hfloat.resolve_left (fun h => h rfl))
      right
      rw [List.append_nil]
      exact Language.append_mem_mul (mem_oneOrMore_oneOf.mpr ⟨hne, hw⟩) hx
    · left
      refine Language.append_mem_mul ?_ ((Language.mem_add _ _ _).mpr hx)
      have hsplit : w ++ '.' :: ds = w ++ ['.'] ++ ds := by simp
      rw [Language.mem_add, hsplit]
      rcases hdigits with hne | hlen
      · exact .inr (Language.append_mem_mul
          (Language.append_mem_mul (mem_oneOrMore_oneOf.mpr ⟨hne, hw⟩) rfl)
          (mem_many_oneOf.mpr hds))
      · have hne : ds ≠ [] := by
          rintro rfl
          simp at hlen
        exact .inl (Language.append_mem_mul
          (Language.append_mem_mul (mem_many_oneOf.mpr hw) rfl)
          (mem_oneOrMore_oneOf.mpr ⟨hne, hds⟩))

/-! ## Strings -/

/-- What may stand in a string. -/
inductive Quotable : List Char → Prop
  | nil : Quotable []
  | plain {c : Char} {cs : List Char} :
      c ≠ '"' → c ≠ '\\' → Quotable cs → Quotable (c :: cs)
  | escape (c : Char) {cs : List Char} :
      Quotable cs → Quotable ('\\' :: c :: cs)

theorem mem_opened : u ∈ opened ↔ ∃ body, u = '"' :: body ∧ Quotable body := by
  rw [opened, Language.mem_mul]
  constructor
  · rintro ⟨_, rfl, body, hbody, rfl⟩
    refine ⟨body, rfl, ?_⟩
    obtain ⟨ws, rfl, hws⟩ := Language.mem_kstar.mp hbody
    clear hbody
    induction ws with
    | nil => exact .nil
    | cons w ws ih =>
        obtain ⟨hw, hrest⟩ := List.forall_mem_cons.mp hws
        rcases (Language.mem_add _ _ _).mp hw with ⟨c, hc, rfl⟩ | hw
        · simp only [Bool.and_eq_true, decide_eq_true_eq] at hc
          exact .plain hc.1 hc.2 (ih hrest)
        · obtain ⟨_, rfl, _, ⟨c, -, rfl⟩, rfl⟩ := Language.mem_mul.mp hw
          exact .escape c (ih hrest)
  · rintro ⟨body, rfl, hbody⟩
    refine ⟨['"'], rfl, body, ?_, rfl⟩
    induction hbody with
    | nil => exact Language.nil_mem_kstar _
    | @plain c _ hquote hbackslash _ ih =>
        refine append_mem_many (w := [c]) (.inl ⟨c, ?_, rfl⟩) ih
        simp [hquote, hbackslash]
    | escape c _ ih =>
        refine append_mem_many (w := ['\\', c]) (.inr ?_) ih
        exact Language.append_mem_mul (a := ['\\']) rfl ⟨c, rfl, rfl⟩

end MatrixLang
