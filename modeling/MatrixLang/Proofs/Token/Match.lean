import Mathlib
import MatrixLang.Proofs.Token.Pattern
import MatrixLang.Proofs.Token.Slices

/-!
# Slices match the longest

The slice that is taken from the front of a text matches its own pattern
(`Slice.first_matches`), and whatever any pattern matches there is shorter, or it
is that slice and that pattern (`Slice.first_wins`). Only a name and a keyword
can be one and the same text.

There is one lemma of each sort for each pattern. Those for numbers and strings
go through the reading of a text that begins with a word of the pattern.
-/

namespace MatrixLang

/-- The class of the slices that match. -/
def Pattern.cls : Pattern → SliceClass
  | .blank => .blank
  | .comment => .comment
  | .newline => .newline
  | .word _ | .ident => .word
  | .symbol s => .symbol s
  | .float => .float
  | .int => .int
  | .string => .string
  | .openString => .openString

namespace Slice

variable {c : Char} {cs u v : List Char}

/-- What a slice is a match of: nothing, if it is an illegal character. -/
def pattern? (s : Slice) : Option Pattern :=
  match s.cls with
  | .blank => some .blank
  | .comment => some .comment
  | .newline => some .newline
  | .word =>
      match Keyword.ofChars? s.text with
      | some k => some (.word k)
      | none => some .ident
  | .symbol sym => some (.symbol sym)
  | .int => some .int
  | .float => some .float
  | .string => some .string
  | .openString => some .openString
  | .illegal => none

theorem cls_eq (s : Slice) : s.cls = s.pattern?.elim .illegal Pattern.cls := by
  obtain ⟨cls, text⟩ := s
  cases cls with
  | word =>
      simp only [pattern?]
      cases Keyword.ofChars? text <;> rfl
  | _ => rfl

/-- A match `u` of the pattern `p` is shorter than the slice, unless it is the
slice. -/
structure Wins (s : Slice) (p : Pattern) (u : List Char) : Prop where
  length : u.length ≤ s.text.length
  same : u.length = s.text.length →
    s.pattern? = some p ∨ p = .ident ∧ ∃ k, s.pattern? = some (.word k)

/-! ## Characters -/

theorem contains_blank (c : Char) :
    [' ', '\t', '\r', '\x0c'].contains c = isBlank c := by
  simp [isBlank, Bool.or_assoc]

theorem letter_eq (c : Char) : letter c = isWordStart c := by
  simp [letter, isWordStart, Char.isAlpha, Char.isUpper, Char.isLower,
    Char.le_def, Bool.or_comm]

theorem isWordStart_or_digit (c : Char) :
    (isWordStart c || ('0' ≤ c && c ≤ '9')) = isWordPart c := by
  have hdigit : ('0' ≤ c && c ≤ '9') = c.isDigit := by
    simp [Char.isDigit, Char.le_def]
  rw [hdigit, isWordStart, isWordPart, Char.isAlphanum, Bool.or_right_comm]

theorem isBlank_cases (h : isBlank c = true) :
    c = ' ' ∨ c = '\t' ∨ c = '\r' ∨ c = '\x0c' := by
  simpa [isBlank, or_assoc] using h

theorem not_isWordStart_of_isDigit (h : c.isDigit = true) :
    isWordStart c = false := by
  have halpha : c.isAlpha = false := by
    grind [Char.isAlpha, Char.isUpper, Char.isLower, Char.isDigit]
  have hunderscore : c ≠ '_' := by
    rintro rfl
    cases h
  simp [isWordStart, halpha, hunderscore]

/-- A run of characters at the front of a text is no longer than the longest
one. -/
theorem prefix_takeWhile {p : Char → Bool} (hu : ∀ d ∈ u, p d = true)
    (h : u <+: cs) : u <+: cs.takeWhile p := by
  obtain ⟨v, rfl⟩ := h
  rw [List.takeWhile_append_of_pos hu]
  exact List.prefix_append _ _

/-! ## What slices begin with -/

/-- A class of characters that has none with which blanks, newlines and comments
begin. -/
theorem not_layout {p : Char → Bool}
    (hp : ∀ d ∈ [' ', '\t', '\r', '\x0c', '\n', '#'], p d = false)
    (h : p c = true) : ¬isBlank c = true ∧ c ≠ '\n' ∧ c ≠ '#' := by
  have hne : ∀ d ∈ [' ', '\t', '\r', '\x0c', '\n', '#'], c ≠ d := by
    rintro d hd rfl
    rw [hp c hd] at h
    cases h
  refine ⟨fun hblank => ?_, hne _ (by simp), hne _ (by simp)⟩
  rcases isBlank_cases hblank with hc | hc | hc | hc <;>
    exact hne _ (by simp) hc

theorem first_word (h : isWordStart c = true) (cs : List Char) :
    first c cs = ⟨.word, c :: cs.takeWhile isWordPart⟩ := by
  obtain ⟨hblank, hnewline, hcomment⟩ := not_layout (by simp [isWordStart]) h
  simp only [first, if_neg hblank, if_neg hnewline, if_neg hcomment, if_pos h]

theorem startsNumber_cases (h : startsNumber c cs = true) :
    c.isDigit = true ∨ c = '.' := by
  simp only [startsNumber, Bool.or_eq_true, Bool.and_eq_true,
    decide_eq_true_eq] at h
  exact h.imp_right And.left

theorem first_number (h : startsNumber c cs = true) :
    first c cs = number (c :: cs) := by
  obtain ⟨hblank, hnewline, hcomment⟩ :=
    not_layout (p := fun d => startsNumber d cs) (by simp [startsNumber]) h
  have hword : ¬isWordStart c = true := by
    intro hword
    rcases startsNumber_cases h with hdigit | rfl
    · rw [not_isWordStart_of_isDigit hdigit] at hword
      cases hword
    · cases hword
  simp only [first, if_neg hblank, if_neg hnewline, if_neg hcomment,
    if_neg hword, if_pos h]

/-- No symbol begins like a slice of another kind. -/
theorem first_symbol {s : Symbol} (h : s.chars <+: c :: cs) :
    first c cs = match symbol? c cs with
      | some s => ⟨.symbol s, s.chars⟩
      | none => ⟨.illegal, [c]⟩ := by
  obtain ⟨rest, hrest⟩ := h
  cases s <;> (cases hrest; rfl)

/-! ## Words, blanks and comments -/

theorem mem_blank :
    u ∈ Pattern.blank.language ↔ u ≠ [] ∧ ∀ d ∈ u, isBlank d = true := by
  simp only [Pattern.language, mem_oneOrMore_oneOf, contains_blank]

theorem mem_comment :
    u ∈ Pattern.comment.language
      ↔ ∃ ds, u = '#' :: ds ∧ ∀ d ∈ ds, (d ≠ '\n' : Bool) = true := by
  rw [Pattern.language, Language.mem_mul]
  constructor
  · rintro ⟨_, rfl, ds, hds, rfl⟩
    exact ⟨ds, rfl, mem_many_oneOf.mp hds⟩
  · rintro ⟨ds, rfl, hds⟩
    exact ⟨['#'], rfl, ds, mem_many_oneOf.mpr hds, rfl⟩

theorem mem_ident :
    u ∈ Pattern.ident.language
      ↔ ∃ d ds, u = d :: ds ∧ isWordStart d = true
        ∧ ∀ d ∈ ds, isWordPart d = true := by
  simp only [Pattern.language, mem_oneOf_many, letter_eq, isWordStart_or_digit]

/-- Every keyword could be a name. -/
theorem chars_mem_ident (k : Keyword) : k.chars ∈ Pattern.ident.language := by
  refine mem_ident.mpr ?_
  cases k <;> exact ⟨_, _, rfl, rfl, List.all_eq_true.mp rfl⟩

theorem blank_wins (hu : u ∈ Pattern.blank.language) (h : u <+: c :: cs) :
    (first c cs).Wins .blank u := by
  obtain ⟨hne, hblank⟩ := mem_blank.mp hu
  obtain ⟨d, ds, rfl⟩ := List.exists_cons_of_ne_nil hne
  obtain ⟨hd, hds⟩ := List.forall_mem_cons.mp hblank
  obtain ⟨rfl, htail⟩ := List.cons_prefix_cons.mp h
  rw [first_blank hd]
  exact ⟨Nat.succ_le_succ (prefix_takeWhile hds htail).length_le, fun _ => .inl rfl⟩

theorem comment_wins (hu : u ∈ Pattern.comment.language) (h : u <+: c :: cs) :
    (first c cs).Wins .comment u := by
  obtain ⟨ds, rfl, hds⟩ := mem_comment.mp hu
  obtain ⟨rfl, htail⟩ := List.cons_prefix_cons.mp h
  rw [first_comment]
  exact ⟨Nat.succ_le_succ (prefix_takeWhile hds htail).length_le, fun _ => .inl rfl⟩

theorem newline_wins (hu : u ∈ Pattern.newline.language) (h : u <+: c :: cs) :
    (first c cs).Wins .newline u := by
  obtain rfl : u = ['\n'] := hu
  obtain ⟨rfl, -⟩ := List.cons_prefix_cons.mp h
  exact ⟨Nat.le_refl _, fun _ => .inl rfl⟩

/-- A match of the same length as the slice is the slice. -/
theorem eq_of_length (h : u <+: c :: cs)
    (hlen : u.length = (first c cs).text.length) : u = (first c cs).text := by
  rw [List.prefix_iff_eq_take.mp h, hlen,
    ← List.prefix_iff_eq_take.mp (first_front c cs)]

theorem ident_le (hu : u ∈ Pattern.ident.language) (h : u <+: c :: cs) :
    (first c cs).cls = .word ∧ u.length ≤ (first c cs).text.length := by
  obtain ⟨d, ds, rfl, hd, hds⟩ := mem_ident.mp hu
  obtain ⟨rfl, htail⟩ := List.cons_prefix_cons.mp h
  rw [first_word hd]
  exact ⟨rfl, Nat.succ_le_succ (prefix_takeWhile hds htail).length_le⟩

theorem ident_wins (hu : u ∈ Pattern.ident.language) (h : u <+: c :: cs) :
    (first c cs).Wins .ident u := by
  obtain ⟨hcls, hlen⟩ := ident_le hu h
  have hpattern : (first c cs).pattern?
      = match Keyword.ofChars? (first c cs).text with
        | some k => some (.word k)
        | none => some .ident := by
    simp only [pattern?, hcls]
  refine ⟨hlen, fun _ => ?_⟩
  rw [hpattern]
  cases Keyword.ofChars? (first c cs).text with
  | none => exact .inl rfl
  | some k => exact .inr ⟨rfl, k, rfl⟩

theorem word_wins {k : Keyword} (hu : u ∈ (Pattern.word k).language)
    (h : u <+: c :: cs) : (first c cs).Wins (.word k) u := by
  obtain rfl : u = k.chars := hu
  obtain ⟨hcls, hlen⟩ := ident_le (chars_mem_ident k) h
  refine ⟨hlen, fun hsame => .inl ?_⟩
  simp only [pattern?, hcls, ← eq_of_length h hsame, Keyword.ofChars?_chars]

/-! ## Symbols -/

theorem chars_cases (s : Symbol) :
    (∃ c, s.chars = [c]) ∨ ∃ c d, s.chars = [c, d] := by
  cases s <;> simp [Symbol.chars]

/-- Of the symbols at the front of a text, the longest one is taken. -/
theorem symbol?_longest {s : Symbol} (h : s.chars <+: c :: cs) :
    ∃ t, symbol? c cs = some t ∧ s.chars.length ≤ t.chars.length
      ∧ (s.chars.length = t.chars.length → t = s) := by
  rcases chars_cases s with ⟨d, hs⟩ | ⟨d, e, hs⟩
  · rw [hs] at h ⊢
    obtain ⟨rfl, -⟩ := List.cons_prefix_cons.mp h
    have hone : Symbol.ofChars? [d] = some s := by rw [← hs, Symbol.ofChars?_chars]
    cases cs with
    | nil => exact ⟨s, hone, by rw [hs], fun _ => rfl⟩
    | cons e cs =>
        simp only [symbol?]
        cases htwo : Symbol.ofChars? [d, e] with
        | none => exact ⟨s, hone, by rw [hs], fun _ => rfl⟩
        | some t =>
            rw [Option.some_or]
            refine ⟨t, rfl, ?_, fun hlen => ?_⟩
            · rw [Symbol.chars_ofChars? htwo]
              exact Nat.le_succ 1
            · rw [Symbol.chars_ofChars? htwo] at hlen
              cases hlen
  · rw [hs] at h ⊢
    obtain ⟨rfl, htail⟩ := List.cons_prefix_cons.mp h
    cases cs with
    | nil => cases List.prefix_nil.mp htail
    | cons _ cs =>
        obtain ⟨rfl, -⟩ := List.cons_prefix_cons.mp htail
        have htwo : Symbol.ofChars? [d, e] = some s := by
          rw [← hs, Symbol.ofChars?_chars]
        exact ⟨s, by simp only [symbol?, htwo, Option.some_or], by rw [hs],
          fun _ => rfl⟩

theorem symbol_wins {s : Symbol} (hu : u ∈ (Pattern.symbol s).language)
    (h : u <+: c :: cs) : (first c cs).Wins (.symbol s) u := by
  obtain rfl : u = s.chars := hu
  obtain ⟨t, ht, hlen, hsame⟩ := symbol?_longest h
  rw [first_symbol h, ht]
  refine ⟨hlen, fun heq => .inl ?_⟩
  rw [hsame heq]
  rfl

/-! ## Numbers -/

theorem digitRun_append (hu : ∀ d ∈ u, d.isDigit = true) (v : List Char) :
    digitRun (u ++ v) = u ++ digitRun v :=
  List.takeWhile_append_of_pos hu

theorem number_cls (cs : List Char) :
    (number cs).cls
      = if fractionRun (cs.drop (digitRun cs).length) = []
          ∧ exponentRun (cs.drop (digitRun cs
            ++ fractionRun (cs.drop (digitRun cs).length)).length) = []
        then .int else .float := by
  simp only [number]
  split <;> rfl

/-- Digits at the front, and no more of them behind. -/
theorem number_append {w : List Char} (hw : ∀ d ∈ w, d.isDigit = true)
    (hrest : digitRun v = []) :
    number (w ++ v)
      = if fractionRun v = [] ∧ exponentRun (v.drop (fractionRun v).length) = []
        then ⟨.int, w⟩
        else ⟨.float, w ++ fractionRun v
          ++ exponentRun (v.drop (fractionRun v).length)⟩ := by
  simp only [number, digitRun_append hw, hrest, List.append_nil, List.drop_left,
    List.length_append, List.drop_length_add_append]

theorem exponent_head {x : List Char} (hx : x ∈ exponent) (v : List Char) :
    digitRun (x ++ v) = [] ∧ fractionRun (x ++ v) = [] := by
  obtain ⟨e, sign, ds, rfl, rfl | rfl, -⟩ := mem_exponent.mp hx
  · exact ⟨rfl, rfl⟩
  · exact ⟨rfl, rfl⟩

/-- An exponent is read as such, with all the digits that follow. -/
theorem exponentRun_append {x : List Char} (hx : x ∈ exponent) (v : List Char) :
    x <+: exponentRun (x ++ v) := by
  obtain ⟨e, sign, ds, rfl, he, hsign, hne, hds⟩ := mem_exponent.mp hx
  have hsignRun : signRun (sign ++ (ds ++ v)) = sign := by
    rcases hsign with rfl | rfl | rfl
    · obtain ⟨d, ds, rfl⟩ := List.exists_cons_of_ne_nil hne
      have hd := (List.forall_mem_cons.mp hds).1
      unfold signRun
      split
      · rename_i heq
        cases heq
        cases hd
      · rename_i heq
        cases heq
        cases hd
      · rfl
    · rfl
    · rfl
  have hdigits : ds ++ digitRun v ≠ [] := by simp [hne]
  simp only [List.cons_append, List.append_assoc, exponentRun, if_pos he,
    hsignRun, List.drop_left, digitRun_append hds, if_neg hdigits]
  exact (List.prefix_cons_inj e).mpr
    ((List.prefix_append_right_inj sign).mpr (List.prefix_append ds _))

/-- A float at the front is read as a float that is no shorter. -/
theorem number_float {w f x : List Char} (h : FloatParts w f x) (v : List Char) :
    (number (w ++ f ++ x ++ v)).cls = .float
      ∧ (w ++ f ++ x).length ≤ (number (w ++ f ++ x ++ v)).text.length := by
  obtain ⟨hw, hf, hx, -, hfloat⟩ := h
  rw [List.append_assoc, List.append_assoc]
  rcases hf with rfl | ⟨ds, rfl, hds⟩
  -- without a fraction the exponent ends the digits, otherwise the point does
  · have hx := hx.resolve_left (hfloat.resolve_left fun h => h rfl)
    obtain ⟨hdigits, hfraction⟩ := exponent_head hx v
    have hrun := exponentRun_append hx v
    have hne : exponentRun (x ++ v) ≠ [] := by
      intro hnil
      rw [hnil] at hrun
      obtain ⟨e, sign, ds, rfl, -⟩ := mem_exponent.mp hx
      cases List.prefix_nil.mp hrun
    rw [List.nil_append, number_append hw hdigits, hfraction, List.length_nil,
      List.drop_zero, if_neg fun h => hne h.2]
    have hlen := hrun.length_le
    simp only [List.length_append, List.length_nil, true_and]
    omega
  · have hdot : digitRun ('.' :: ds ++ (x ++ v)) = [] := rfl
    have hfraction : fractionRun ('.' :: ds ++ (x ++ v))
        = '.' :: (ds ++ digitRun (x ++ v)) :=
      congrArg ('.' :: ·) (digitRun_append hds (x ++ v))
    rw [number_append hw hdot, hfraction, if_neg fun h => List.cons_ne_nil _ _ h.1]
    rcases hx with rfl | hx
    · simp only [List.length_append, List.length_cons, List.length_nil, true_and]
      omega
    · have hlen := (exponentRun_append hx v).length_le
      rw [(exponent_head hx v).1, List.append_nil, List.drop_left]
      simp only [List.length_append, List.length_cons, true_and]
      omega

theorem int_wins (hu : u ∈ Pattern.int.language) (h : u <+: c :: cs) :
    (first c cs).Wins .int u := by
  obtain ⟨hne, hdigits⟩ := mem_int.mp hu
  have hc : c.isDigit = true := by
    obtain ⟨d, ds, rfl⟩ := List.exists_cons_of_ne_nil hne
    obtain ⟨rfl, -⟩ := List.cons_prefix_cons.mp h
    exact (List.forall_mem_cons.mp hdigits).1
  have hwhole : u.length ≤ (digitRun (c :: cs)).length :=
    (prefix_takeWhile hdigits h).length_le
  rw [first_number (by rw [startsNumber, hc, Bool.true_or])]
  have htext := congrArg List.length (number_text (c :: cs))
  rw [List.length_append, List.length_append] at htext
  refine ⟨by omega, fun hsame => .inl ?_⟩
  -- nothing is left for a fraction and an exponent
  have hcls : (number (c :: cs)).cls = .int := by
    rw [number_cls, List.length_append]
    exact if_pos ⟨List.length_eq_zero_iff.mp (by omega),
      List.length_eq_zero_iff.mp (by omega)⟩
  simp only [pattern?, hcls]

theorem float_wins (hu : u ∈ Pattern.float.language) (h : u <+: c :: cs) :
    (first c cs).Wins .float u := by
  obtain ⟨w, f, x, rfl, hparts⟩ := mem_float.mp hu
  obtain ⟨v, hv⟩ := h
  have hstarts : startsNumber c cs = true := by
    cases w with
    | cons d ds =>
        cases hv
        have hd := (List.forall_mem_cons.mp hparts.whole).1
        rw [startsNumber, hd, Bool.true_or]
    | nil =>
        have hlen := hparts.digits.resolve_left fun h => h rfl
        rcases hparts.fraction with rfl | ⟨ds, rfl, hds⟩
        · cases hlen
        · obtain ⟨d, ds, rfl⟩ := List.exists_cons_of_ne_nil
            (List.ne_nil_of_length_pos (Nat.lt_of_succ_lt_succ hlen))
          cases hv
          have hd := (List.forall_mem_cons.mp hds).1
          simp [startsNumber, hd]
  obtain ⟨hcls, hlen⟩ := number_float hparts v
  rw [hv] at hcls hlen
  rw [first_number hstarts]
  exact ⟨hlen, fun _ => .inl (by simp only [pattern?, hcls])⟩

/-! ## Strings -/

/-- Reading a string goes on behind what may stand in it. -/
theorem stringRest_quotable (hu : Quotable u) (v : List Char) :
    stringRest (u ++ v) = ((stringRest v).1, u ++ (stringRest v).2) := by
  induction hu with
  | nil => rfl
  | plain hquote hbackslash _ ih =>
      rw [List.cons_append, stringRest_plain hquote hbackslash, ih]
      rfl
  | escape c _ ih =>
      rw [List.cons_append, List.cons_append, stringRest_escape, ih]
      rfl

/-- What is read of a string. -/
theorem stringRest_cases (cs : List Char) :
    (∃ body, Quotable body ∧ stringRest cs = (true, body ++ ['"']))
      ∨ ∃ body, Quotable body ∧ stringRest cs = (false, body) := by
  induction cs using string_induct with
  | nil => exact .inr ⟨[], .nil, stringRest_nil⟩
  | quote cs => exact .inl ⟨[], .nil, stringRest_quote cs⟩
  | backslash => exact .inr ⟨[], .nil, stringRest_backslash⟩
  | escape c cs ih =>
      rw [stringRest_escape]
      rcases ih with ⟨body, hbody, h⟩ | ⟨body, hbody, h⟩
      · exact .inl ⟨_, .escape c hbody, by rw [h]; rfl⟩
      · exact .inr ⟨_, .escape c hbody, by rw [h]⟩
  | plain c cs hquote hbackslash ih =>
      rw [stringRest_plain hquote hbackslash]
      rcases ih with ⟨body, hbody, h⟩ | ⟨body, hbody, h⟩
      · exact .inl ⟨_, .plain hquote hbackslash hbody, by rw [h]; rfl⟩
      · exact .inr ⟨_, .plain hquote hbackslash hbody, by rw [h]⟩

theorem mem_string :
    u ∈ Pattern.string.language
      ↔ ∃ body, u = '"' :: (body ++ ['"']) ∧ Quotable body := by
  rw [Pattern.language, Language.mem_mul]
  constructor
  · rintro ⟨v, hv, _, rfl, rfl⟩
    obtain ⟨body, rfl, hbody⟩ := mem_opened.mp hv
    exact ⟨body, rfl, hbody⟩
  · rintro ⟨body, rfl, hbody⟩
    exact ⟨'"' :: body, mem_opened.mpr ⟨body, rfl, hbody⟩, ['"'], rfl, rfl⟩

theorem string_wins (hu : u ∈ Pattern.string.language) (h : u <+: c :: cs) :
    (first c cs).Wins .string u := by
  obtain ⟨body, rfl, hbody⟩ := mem_string.mp hu
  obtain ⟨v, hv⟩ := h
  cases hv
  have hread : string (body ++ ['"'] ++ v)
      = ⟨.string, '"' :: (body ++ ['"'])⟩ := by
    rw [List.append_assoc]
    simp only [string, stringRest_quotable hbody, List.singleton_append,
      stringRest_quote, if_true]
  rw [List.append_eq, first_quote, hread]
  exact ⟨Nat.le_refl _, fun _ => .inl rfl⟩

theorem openString_wins (hu : u ∈ Pattern.openString.language)
    (h : u <+: c :: cs) : (first c cs).Wins .openString u := by
  obtain ⟨body, rfl, hbody⟩ := mem_opened.mp hu
  obtain ⟨v, hv⟩ := h
  cases hv
  have hread : string (body ++ v) = ⟨if (stringRest v).1 then .string
      else .openString, '"' :: (body ++ (stringRest v).2)⟩ := by
    simp only [string, stringRest_quotable hbody]
  rw [List.append_eq, first_quote, hread]
  refine ⟨?_, fun hsame => .inl ?_⟩
  · simp only [List.length_cons, List.length_append]
    omega
  · -- a quote behind it would make the slice longer
    rcases stringRest_cases v with ⟨rest, -, hv⟩ | ⟨rest, -, hv⟩
    · rw [hv] at hsame
      simp only [List.length_cons, List.length_append, List.length_nil] at hsame
      omega
    · rw [hv]
      rfl

/-! ## What slices match -/

theorem isDigit_digitRun (cs : List Char) : ∀ d ∈ digitRun cs, d.isDigit = true :=
  fun _ => List.mem_takeWhile_imp

theorem fractionRun_cases (cs : List Char) :
    fractionRun cs = [] ∨ ∃ ds, fractionRun cs = '.' :: ds
      ∧ ∀ d ∈ ds, d.isDigit = true := by
  unfold fractionRun
  split
  · exact .inr ⟨_, rfl, isDigit_digitRun _⟩
  · exact .inl rfl

theorem signRun_cases (cs : List Char) :
    signRun cs = [] ∨ signRun cs = ['+'] ∨ signRun cs = ['-'] := by
  unfold signRun
  split
  · exact .inr (.inl rfl)
  · exact .inr (.inr rfl)
  · exact .inl rfl

theorem exponentRun_cases (cs : List Char) :
    exponentRun cs = [] ∨ exponentRun cs ∈ exponent := by
  cases cs with
  | nil => exact .inl rfl
  | cons e cs =>
      simp only [exponentRun]
      split
      · rename_i he
        split
        · exact .inl rfl
        · rename_i hne
          exact .inr (mem_exponent.mpr ⟨e, _, _, rfl, he, signRun_cases cs, hne,
            isDigit_digitRun _⟩)
      · exact .inl rfl

theorem number_matches {p : Pattern} (h : startsNumber c cs = true)
    (hp : (number (c :: cs)).pattern? = some p) :
    (number (c :: cs)).text ∈ p.language := by
  have hne := number_ne_nil h
  have htext := number_text (c :: cs)
  rw [htext] at hne ⊢
  by_cases hint : fractionRun ((c :: cs).drop (digitRun (c :: cs)).length) = []
      ∧ exponentRun ((c :: cs).drop (digitRun (c :: cs)
        ++ fractionRun ((c :: cs).drop (digitRun (c :: cs)).length)).length) = []
  · have hcls := (number_cls (c :: cs)).trans (if_pos hint)
    simp only [pattern?, hcls, Option.some.injEq] at hp
    subst hp
    rw [hint.2, hint.1, List.append_nil, List.append_nil] at hne ⊢
    exact mem_int.mpr ⟨hne, isDigit_digitRun _⟩
  · have hcls := (number_cls (c :: cs)).trans (if_neg hint)
    simp only [pattern?, hcls, Option.some.injEq] at hp
    subst hp
    refine mem_float.mpr ⟨_, _, _, rfl, isDigit_digitRun _, fractionRun_cases _,
      exponentRun_cases _, ?_, Decidable.not_and_iff_not_or_not.mp hint⟩
    rcases digit_of_startsNumber h with hw | ⟨hw, hf⟩
    · exact .inl hw
    · rw [hw]
      exact .inr hf

theorem string_matches {p : Pattern} (hp : (string cs).pattern? = some p) :
    (string cs).text ∈ p.language := by
  rcases stringRest_cases cs with ⟨body, hbody, h⟩ | ⟨body, hbody, h⟩
  · have hread : string cs = ⟨.string, '"' :: (body ++ ['"'])⟩ := by
      simp only [string, h, if_true]
    rw [hread] at hp ⊢
    cases hp
    exact mem_string.mpr ⟨body, rfl, hbody⟩
  · have hread : string cs = ⟨.openString, '"' :: body⟩ := by
      simp only [string, h, Bool.false_eq_true, if_false]
    rw [hread] at hp ⊢
    cases hp
    exact mem_opened.mpr ⟨body, rfl, hbody⟩

/-- The first slice is a match of its pattern. -/
theorem first_matches {p : Pattern} (h : (first c cs).pattern? = some p) :
    (first c cs).text ∈ p.language := by
  revert h
  refine first_cases c cs ?_ ?_ ?_ ?_ number_matches
    (fun _ => string_matches) ?_ ?_
  · rintro hc ⟨⟩
    exact mem_blank.mpr ⟨List.cons_ne_nil _ _, List.forall_mem_cons.mpr
      ⟨hc, fun _ => List.mem_takeWhile_imp⟩⟩
  · rintro rfl ⟨⟩
    rfl
  · rintro rfl ⟨⟩
    exact mem_comment.mpr ⟨_, rfl, fun _ => List.mem_takeWhile_imp⟩
  · intro hc h
    simp only [pattern?] at h
    split at h
    · rename_i k hk
      cases h
      exact (Keyword.chars_ofChars? hk).symm
    · cases h
      exact mem_ident.mpr ⟨c, _, rfl, hc, fun _ => List.mem_takeWhile_imp⟩
  · rintro s - ⟨⟩
    rfl
  · rintro ⟨⟩

/-- Nothing longer than the first slice is matched, and of its length only by
its own pattern. -/
theorem first_wins {p : Pattern} (hu : u ∈ p.language) (h : u <+: c :: cs) :
    (first c cs).Wins p u := by
  cases p with
  | blank => exact blank_wins hu h
  | comment => exact comment_wins hu h
  | newline => exact newline_wins hu h
  | word k => exact word_wins hu h
  | symbol s => exact symbol_wins hu h
  | float => exact float_wins hu h
  | int => exact int_wins hu h
  | string => exact string_wins hu h
  | openString => exact openString_wins hu h
  | ident => exact ident_wins hu h

end Slice

end MatrixLang
