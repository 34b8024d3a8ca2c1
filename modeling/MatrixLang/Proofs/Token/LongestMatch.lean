import MatrixLang.Proofs.Token.Match
import MatrixLang.Proofs.Token.Placed

/-!
# The scanner takes the longest match

The patterns cut a text into segments: at each place the longest piece that any
of them matches, and one character where none does (`Segmented`). For every text
there is one way to do this, which is the one of the scanner
(`segmented_iff`); and the tokens and the mistakes of a scan are what the
segments stand for, in their order and on their lines (`scan_longest`).
-/

namespace MatrixLang

open Slice

/-! ## Segments -/

/-- A piece of a text: a match of a pattern, or a character where there is no
match. -/
inductive Segment where
  | matched (p : Pattern) (text : List Char)
  | illegal (c : Char)

/-- The longest match at the front of a text. Where a keyword is as long as a name
it is the keyword. -/
structure Longest (cs : List Char) (p : Pattern) (u : List Char) : Prop where
  matched : u ∈ p.language
  ne_nil : u ≠ []
  front : u <+: cs
  longest : ∀ (q : Pattern) v, v ∈ q.language → v <+: cs → v.length ≤ u.length
  keyword : p = .ident → ∀ k, u ∉ (Pattern.word k).language

/-- The text is cut into these segments by the rule of the longest match. -/
inductive Segmented : List Char → List Segment → Prop
  | nil : Segmented [] []
  | matched {p : Pattern} {u rest : List Char} {segs : List Segment} :
      Longest (u ++ rest) p u → Segmented rest segs →
      Segmented (u ++ rest) (.matched p u :: segs)
  | illegal {c : Char} {rest : List Char} {segs : List Segment} :
      (∀ (p : Pattern) v, v ∈ p.language → v <+: c :: rest → v = []) →
      Segmented rest segs → Segmented (c :: rest) (.illegal c :: segs)

namespace Pattern

/-- An integer has to fit in 64 bits. -/
def fits (u : List Char) : Bool :=
  (Decimal.ofDigits u : Int) ≤ Int64.maxValue.toInt

/-- The lexeme that a match stands for. -/
def lexeme? (u : List Char) : Pattern → Option Lexeme
  | .blank | .comment | .newline | .openString => none
  | .word k => some (.word k)
  | .symbol s => some (.symbol s)
  | .float => some (.float (floatOfNumeral u))
  | .int => if fits u then some (.int (Int64.ofNat (Decimal.ofDigits u))) else none
  | .string =>
      some (.str (String.ofList (Escape.decode (u.drop 1).dropLast)))
  | .ident => some (.ident (String.ofList u))

/-- The mistake that a match is: E0002 for a number that does not fit, E0003 for
an open string. -/
def problem? (u : List Char) : Pattern → Option Problem
  | .int => if fits u then none else some (.numberTooLarge (String.ofList u))
  | .openString => some .unterminatedString
  | _ => none

end Pattern

namespace Segment

def text : Segment → List Char
  | .matched _ u => u
  | .illegal c => [c]

def newlines (s : Segment) : Nat := s.text.count '\n'

def lexeme? : Segment → Option Lexeme
  | .matched p u => p.lexeme? u
  | .illegal _ => none

/-- What no pattern matches is E0001. -/
def problem? : Segment → Option Problem
  | .matched p u => p.problem? u
  | .illegal c => some (.illegalCharacter c)

def token? (s : Segment × Nat) : Option Token :=
  s.1.lexeme?.map fun l => ⟨l, s.2⟩

def report? (s : Segment × Nat) : Option Diagnostic :=
  s.1.problem?.map fun problem => problem.onLine s.2

end Segment

/-! ## Slices are segments -/

variable {c : Char} {cs u : List Char}

def Slice.segment (s : Slice) : Segment :=
  match s.pattern? with
  | some p => .matched p s.text
  | none => .illegal (s.text.headD '?')

theorem Slice.segment_of_some {s : Slice} {p : Pattern} (h : s.pattern? = some p) :
    s.segment = .matched p s.text := by
  simp only [Slice.segment, h]

theorem Slice.pattern?_eq_none {s : Slice} (h : s.pattern? = none) :
    s.cls = .illegal := by
  rw [cls_eq, h, Option.elim_none]

/-- An illegal slice is one character. -/
theorem Slice.first_illegal (h : (first c cs).pattern? = none) :
    (first c cs).text = [c] := by
  replace h := pattern?_eq_none h
  revert h
  refine first_cases c cs nofun (fun _ _ => rfl) nofun nofun (fun _ h => ?_)
    (fun _ h => ?_) nofun fun _ => rfl
  · rw [number_cls] at h
    split at h <;> cases h
  · simp only [string] at h
    split at h <;> cases h

/-- Where the slice is illegal, nothing matches. -/
theorem Slice.eq_nil_of_illegal {p : Pattern}
    (h : (first c cs).pattern? = none) (hu : u ∈ p.language)
    (hfront : u <+: c :: cs) : u = [] := by
  have hwins := first_wins hu hfront
  have hle := hwins.length
  have hone : (first c cs).text.length = 1 := by
    rw [first_illegal h, List.length_singleton]
  rcases Nat.eq_zero_or_pos u.length with hzero | hpos
  · exact List.length_eq_zero_iff.mp hzero
  · rcases hwins.same (by omega) with hsome | ⟨-, k, hsome⟩
    · rw [h] at hsome
      cases hsome
    · rw [h] at hsome
      cases hsome

theorem Slice.first_longest {p : Pattern} (h : (first c cs).pattern? = some p) :
    Longest (c :: cs) p (first c cs).text := by
  refine ⟨first_matches h, first_ne_nil c cs, first_front c cs,
    fun q v hv hfront => (first_wins hv hfront).length, ?_⟩
  rintro rfl k hk
  rcases (first_wins hk (first_front c cs)).same rfl with hword | ⟨hword, -⟩
  · rw [h] at hword
    cases hword
  · cases hword

/-- There is no longest match but the first slice. -/
theorem Longest.eq_first {p : Pattern} (h : Longest (c :: cs) p u) :
    u = (first c cs).text ∧ (first c cs).pattern? = some p := by
  cases hpattern : (first c cs).pattern? with
  | none => exact absurd (eq_nil_of_illegal hpattern h.matched h.front) h.ne_nil
  | some q =>
      have hwins := first_wins h.matched h.front
      have hlen : u.length = (first c cs).text.length :=
        Nat.le_antisymm hwins.length
          (h.longest q _ (first_matches hpattern) (first_front c cs))
      have htext := eq_of_length h.front hlen
      refine ⟨htext, ?_⟩
      rcases hwins.same hlen with hsame | ⟨hident, k, hword⟩
      · rw [← hpattern, hsame]
      · exact absurd (htext ▸ first_matches hword) (h.keyword hident k)

/-- A text is cut by the longest matches in one way: into its slices. -/
theorem segmented_iff {segs : List Segment} :
    Segmented cs segs ↔ segs = (slices cs).map Slice.segment := by
  constructor
  -- the rule leaves no choice at any place
  · intro h
    induction h with
    | nil => rw [slices_nil, List.map_nil]
    | @matched p u rest segs hlongest _ ih =>
        obtain ⟨c, ds, rfl⟩ := List.exists_cons_of_ne_nil hlongest.ne_nil
        rw [List.cons_append] at hlongest ⊢
        obtain ⟨htext, hpattern⟩ := hlongest.eq_first
        have hsplit : c :: (ds ++ rest) = (first c (ds ++ rest)).text ++ rest := by
          rw [← htext, List.cons_append]
        rw [slices_append_first hsplit, List.map_cons, ← ih,
          segment_of_some hpattern, ← htext]
    | @illegal c rest segs hnone _ ih =>
        have hpattern : (first c rest).pattern? = none := by
          cases hp : (first c rest).pattern? with
          | none => rfl
          | some p =>
              exact absurd (hnone p _ (first_matches hp) (first_front c rest))
                (first_ne_nil c rest)
        have htext := first_illegal hpattern
        have hsplit : c :: rest = (first c rest).text ++ rest := by
          rw [htext, List.singleton_append]
        rw [slices_append_first hsplit, List.map_cons, ← ih]
        simp only [Slice.segment, hpattern, htext, List.headD_cons]
  · rintro rfl
    induction cs using slices_induct with
    | nil =>
        rw [slices_nil]
        exact .nil
    | cons c cs rest hrest ih =>
        rw [slices_append_first hrest, List.map_cons]
        cases hpattern : (first c cs).pattern? with
        | some p =>
            rw [segment_of_some hpattern]
            have hlongest := first_longest hpattern
            rw [hrest] at hlongest ⊢
            exact .matched hlongest ih
        | none =>
            have htext := first_illegal hpattern
            have hrest' : cs = rest := by
              rw [htext] at hrest
              exact (List.cons.inj hrest).2
            subst hrest'
            have hsegment : (first c cs).segment = .illegal c := by
              simp only [Slice.segment, hpattern, htext, List.headD_cons]
            rw [hsegment]
            exact .illegal (fun p v => eq_nil_of_illegal hpattern) ih

/-- A number backs up to its last digit where an exponent lacks digits. -/
example : (slices ['1', 'e', '+', '.', '5']).map Slice.text
    = [['1'], ['e'], ['+'], ['.', '5']] := by cbv

/-! ## Scans -/

theorem Slice.reading_segment (s : Slice) :
    s.segment.lexeme? = s.reading.lexeme?
      ∧ s.segment.problem? = s.reading.problem? := by
  obtain ⟨cls, text⟩ := s
  cases cls with
  | word =>
      simp only [Slice.segment, pattern?, reading]
      cases Keyword.ofChars? text <;> exact ⟨rfl, rfl⟩
  | int =>
      simp only [Slice.segment, pattern?, reading, Segment.lexeme?, Segment.problem?,
        Pattern.lexeme?, Pattern.problem?, Pattern.fits, decide_eq_true_eq]
      split <;> exact ⟨rfl, rfl⟩
  | _ => exact ⟨rfl, rfl⟩

theorem Slice.text_segment {s : Slice} (hs : s ∈ slices cs) :
    s.segment.text = s.text := by
  induction cs using slices_induct with
  | nil =>
      rw [slices_nil] at hs
      cases hs
  | cons c cs rest hrest ih =>
      rw [slices_append_first hrest] at hs
      rcases List.mem_cons.mp hs with rfl | hs
      · cases hpattern : (first c cs).pattern? with
        | some p =>
            rw [segment_of_some hpattern]
            rfl
        | none =>
            simp only [Slice.segment, hpattern, first_illegal hpattern,
              List.headD_cons, Segment.text]
      · exact ih hs

theorem Segment.token?_segment :
    Segment.token? ∘ Prod.map Slice.segment id = Slice.token? := by
  funext p
  simp only [Function.comp_apply, Segment.token?, Slice.token?, Prod.map,
    (reading_segment p.1).1, id]

theorem Segment.report?_segment :
    Segment.report? ∘ Prod.map Slice.segment id = Slice.report? := by
  funext p
  simp only [Function.comp_apply, Segment.report?, Slice.report?, Prod.map,
    (reading_segment p.1).2, id]

/-- **The scanner takes the longest match.** The rule of the longest match cuts a
text in one way. The tokens are what the segments stand for and after them the
end of the input, the mistakes are those that segments are, each in the order of
the segments and on the line to which the newlines in front of it lead. -/
theorem scan_longest (source : String) :
    ∃ segs, (∀ segs', Segmented source.toList segs' ↔ segs' = segs)
      ∧ (scan source).tokens
        = (placed Segment.newlines 1 segs).filterMap Segment.token?
          ++ [⟨.eof, 1 + source.toList.count '\n'⟩]
      ∧ (scan source).errors
        = (placed Segment.newlines 1 segs).filterMap Segment.report? := by
  have hlines : placed Segment.newlines 1 ((slices source.toList).map Slice.segment)
      = (placed Slice.newlines 1 (slices source.toList)).map
        (Prod.map Slice.segment id) :=
    placed_map (fun s hs => by
      rw [Segment.newlines, text_segment hs, Slice.newlines]) 1
  refine ⟨(slices source.toList).map Slice.segment, fun _ => segmented_iff, ?_, ?_⟩
  · rw [scan_tokens, hlines, List.filterMap_map, Segment.token?_segment]
  · rw [scan_errors, hlines, List.filterMap_map, Segment.report?_segment]

end MatrixLang
