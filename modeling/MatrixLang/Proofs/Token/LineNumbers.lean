import MatrixLang.Proofs.Token.LongestMatch

/-!
# Line numbers

A text is counted in lines while it is cut. The counter has 32 bits; it goes up at a
newline and by the newlines in a string, and no other slice moves it
(`Scan.counted?`). That this is enough is a fact about the patterns: only strings and
newlines match a text with a newline in it (`Pattern.newline_not_mem`). So after every
slice the counter is at the line to which the text up to there leads
(`Slice.lineAfter_advance`), and by induction on the slices so is each line that is
noted in a scan (`Scan.counted?_eq`, `placed_eq_preceded`).
-/

namespace MatrixLang

open Slice

variable {c : Char} {cs u : List Char}

/-! ## Newlines in slices -/

/-- Strings may go over several lines. -/
def Pattern.breaksLines : Pattern → Bool
  | .newline | .string | .openString => true
  | _ => false

theorem newline_not_mem_digits {ds : List Char} (h : ∀ d ∈ ds, d.isDigit = true) :
    '\n' ∉ ds :=
  fun hmem => absurd (h _ hmem) (by decide)

theorem newline_not_mem_exponent (h : u ∈ exponent) : '\n' ∉ u := by
  obtain ⟨e, sign, ds, rfl, he, hsign, -, hds⟩ := mem_exponent.mp h
  have hdigits := newline_not_mem_digits hds
  rcases he with rfl | rfl <;> rcases hsign with rfl | rfl | rfl <;> simpa using hdigits

theorem FloatParts.newline_not_mem {w f x : List Char} (h : FloatParts w f x) :
    '\n' ∉ w ++ f ++ x := by
  have hfraction : '\n' ∉ f := by
    rcases h.fraction with rfl | ⟨ds, rfl, hds⟩
    · exact List.not_mem_nil
    · exact List.not_mem_cons_of_ne_of_not_mem (by decide) (newline_not_mem_digits hds)
  have hexponent : '\n' ∉ x := by
    rcases h.exponent with rfl | hx
    · exact List.not_mem_nil
    · exact newline_not_mem_exponent hx
  simp only [List.mem_append, not_or]
  exact ⟨⟨newline_not_mem_digits h.whole, hfraction⟩, hexponent⟩

theorem Pattern.newline_not_mem {p : Pattern} (hu : u ∈ p.language)
    (h : p.breaksLines = false) : '\n' ∉ u := by
  cases p with
  | newline | string | openString => cases h
  | blank => exact fun hmem => absurd ((mem_blank.mp hu).2 _ hmem) (by decide)
  | comment =>
      obtain ⟨ds, rfl, hds⟩ := mem_comment.mp hu
      exact List.not_mem_cons_of_ne_of_not_mem (by decide)
        fun hmem => absurd (hds _ hmem) (by decide)
  | word k =>
      obtain rfl : u = k.chars := hu
      cases k <;> decide
  | symbol s =>
      obtain rfl : u = s.chars := hu
      cases s <;> decide
  | float =>
      obtain ⟨w, f, x, rfl, hparts⟩ := mem_float.mp hu
      exact hparts.newline_not_mem
  | int => exact newline_not_mem_digits (mem_int.mp hu).2
  | ident =>
      obtain ⟨d, ds, rfl, hd, hds⟩ := mem_ident.mp hu
      refine List.not_mem_cons_of_ne_of_not_mem ?_ fun hmem => absurd (hds _ hmem) (by decide)
      rintro rfl
      cases hd

/-- By how much a slice moves the counter of lines. -/
def Slice.advance (s : Slice) : Nat :=
  match s.cls with
  | .newline => 1
  | .string | .openString => s.text.count '\n'
  | _ => 0

/-- A slice moves the counter by the newlines in it. -/
theorem Slice.first_advance (c : Char) (cs : List Char) :
    (first c cs).advance = (first c cs).newlines := by
  have hcls := cls_eq (first c cs)
  cases hp : (first c cs).pattern? with
  | none =>
      have hc : '\n' ≠ c := by
        rintro rfl
        rw [first_newline] at hp
        cases hp
      rw [hp, Option.elim_none] at hcls
      simp only [advance, hcls, newlines, first_illegal hp, List.count_singleton]
      simpa using hc.symm
  | some p =>
      have htext := first_matches hp
      rw [hp, Option.elim_some] at hcls
      cases p with
      | newline =>
          have hone : (first c cs).text = ['\n'] := htext
          simp only [advance, hcls, Pattern.cls, newlines, hone, List.count_singleton_self]
      | string | openString => simp only [advance, hcls, Pattern.cls, newlines]
      | _ =>
          have hnone := List.count_eq_zero.mpr (Pattern.newline_not_mem htext rfl)
          simp only [advance, hcls, Pattern.cls, newlines, hnone]

theorem advance_slices {s : Slice} (hs : s ∈ slices cs) : s.advance = s.newlines := by
  induction cs using slices_induct with
  | nil =>
      rw [slices_nil] at hs
      cases hs
  | cons c cs rest hrest ih =>
      rw [slices_append_first hrest] at hs
      rcases List.mem_cons.mp hs with rfl | hs
      · exact first_advance c cs
      · exact ih hs

/-! ## The counter -/

/-- The line to which a text leads. -/
def lineAfter (before : List Char) : Nat := 1 + before.count '\n'

/-- The slices of a text, each with the text in front of it. -/
def preceded (before : List Char) : List Slice → List (Slice × List Char)
  | [] => []
  | s :: rest => (s, before) :: preceded (before ++ s.text) rest

/-- Moves a counter of 32 bits. If it is too small for the lines, there is no result. -/
def moved? (line : UInt32) (k : Nat) : Option UInt32 :=
  let k := min k (UInt32.size - 1)
  if line.toNat + k < UInt32.size then some (line + .ofNat k) else none

/-- The scan of slices with a counter that each of them moves in its own way. -/
def Scan.counted? (line : UInt32) : List Slice → Option Scan
  | [] => some ⟨[⟨.eof, line.toNat⟩], []⟩
  | s :: rest => do
      let next ← moved? line s.advance
      let scan ← counted? next rest
      some (before s.reading line.toNat scan)

theorem moved?_eq {line : UInt32} {k : Nat} (h : line.toNat + k < UInt32.size) :
    ∃ next, moved? line k = some next ∧ next.toNat = line.toNat + k := by
  have hmin : min k (UInt32.size - 1) = k := Nat.min_eq_left (by omega)
  refine ⟨line + .ofNat k, ?_, ?_⟩
  · simp only [moved?, hmin, if_pos h]
  · have hk : (UInt32.ofNat k).toNat = k := UInt32.toNat_ofNat_of_lt' (by omega)
    rw [UInt32.toNat_add, hk]
    exact Nat.mod_eq_of_lt h

/-- With few enough lines, the counter goes where the newlines lead. -/
theorem Scan.counted?_eq {line : UInt32} {ss : List Slice}
    (hadvance : ∀ s ∈ ss, s.advance = s.newlines)
    (h : line.toNat + (ss.map newlines).sum < UInt32.size) :
    counted? line ss = some (ofSlices line.toNat ss) := by
  induction ss generalizing line with
  | nil => rfl
  | cons s ss ih =>
      obtain ⟨hs, hrest⟩ := List.forall_mem_cons.mp hadvance
      rw [List.map_cons, List.sum_cons] at h
      have hmoved : line.toNat + s.newlines < UInt32.size := by omega
      obtain ⟨next, hnext, hline⟩ := moved?_eq hmoved
      rw [counted?, hs, hnext, Option.bind_eq_bind, Option.bind_some, ih hrest (by omega), hline]
      rfl

/-! ## The lines in front of a slice -/

theorem lineAfter_append (before text : List Char) :
    lineAfter (before ++ text) = lineAfter before + text.count '\n' := by
  rw [lineAfter, lineAfter, List.count_append, Nat.add_assoc]

/-- In front of a slice are the slices before it. -/
theorem mem_preceded {s : Slice} {front before : List Char} {ss : List Slice} :
    (s, before) ∈ preceded front ss
      ↔ ∃ fore aft, ss = fore ++ s :: aft ∧ before = front ++ fore.flatMap text := by
  constructor
  · intro hp
    induction ss generalizing front with
    | nil => cases hp
    | cons r ss ih =>
        rcases List.mem_cons.mp hp with heq | hp
        · cases heq
          exact ⟨[], ss, rfl, (List.append_nil before).symm⟩
        · obtain ⟨fore, aft, rfl, hbefore⟩ := ih hp
          refine ⟨r :: fore, aft, rfl, ?_⟩
          rw [hbefore, List.flatMap_cons, List.append_assoc]
  · rintro ⟨fore, aft, rfl, rfl⟩
    induction fore generalizing front with
    | nil =>
        rw [List.flatMap_nil, List.append_nil]
        exact List.mem_cons_self
    | cons r fore ih =>
        rw [List.flatMap_cons, ← List.append_assoc]
        exact List.mem_cons_of_mem _ ih

theorem placed_eq_preceded (before : List Char) (ss : List Slice) :
    placed Slice.newlines (lineAfter before) ss
      = (preceded before ss).map (Prod.map id lineAfter) := by
  induction ss generalizing before with
  | nil => rfl
  | cons s ss ih =>
      rw [placed, preceded, List.map_cons, ← ih, lineAfter_append]
      rfl

/-- After a slice the counter is at the line to which the text up to there leads. -/
theorem Slice.lineAfter_advance {s : Slice} {before : List Char}
    (hp : (s, before) ∈ preceded [] (slices cs)) :
    before ++ s.text <+: cs
      ∧ lineAfter before + s.advance = lineAfter (before ++ s.text) := by
  obtain ⟨fore, aft, hslices, hbefore⟩ := mem_preceded.mp hp
  have hmem : s ∈ slices cs := by
    rw [hslices]
    exact List.mem_append_right fore List.mem_cons_self
  refine ⟨⟨aft.flatMap text, ?_⟩, ?_⟩
  · rw [← slices_texts cs, hslices, List.flatMap_append, List.flatMap_cons, hbefore,
      List.nil_append, List.append_assoc]
  · rw [advance_slices hmem, lineAfter_append]
    rfl

/-- Lines do not go down along pieces of a text. -/
theorem pairwise_placed {α : Type} (newlines : α → Nat) (line : Nat) (as : List α) :
    (placed newlines line as).Pairwise (fun p q => p.2 ≤ q.2)
      ∧ ∀ p ∈ placed newlines line as, line ≤ p.2
        ∧ p.2 ≤ line + (as.map newlines).sum := by
  induction as generalizing line with
  | nil => exact ⟨.nil, nofun⟩
  | cons a as ih =>
      obtain ⟨hsorted, hbound⟩ := ih (line + newlines a)
      have hrest : ∀ p ∈ placed newlines (line + newlines a) as,
          line ≤ p.2 ∧ p.2 ≤ line + (newlines a + (as.map newlines).sum) := fun p hp => by
        have := hbound p hp
        omega
      rw [placed, List.map_cons, List.sum_cons]
      refine ⟨List.pairwise_cons.mpr ⟨fun p hp => (hrest p hp).1, hsorted⟩, ?_⟩
      refine List.forall_mem_cons.mpr ⟨⟨Nat.le_refl line, Nat.le_add_right line _⟩, hrest⟩

theorem Slice.line_token? {p : Slice × Nat} {t : Token} (h : token? p = some t) :
    t.line = p.2 := by
  obtain ⟨l, -, rfl⟩ := Option.map_eq_some_iff.mp h
  rfl

theorem Slice.line_report? {p : Slice × Nat} {d : Diagnostic} (h : report? p = some d) :
    d.line = p.2 := by
  obtain ⟨problem, -, rfl⟩ := Option.map_eq_some_iff.mp h
  rfl

/-- What slices give is on the line to which the text in front of them leads. -/
theorem scan_tokens_eq (source : String) :
    (scan source).tokens
      = (preceded [] (slices source.toList)).filterMap
          (fun (s, before) => s.reading.lexeme?.map fun l => ⟨l, lineAfter before⟩)
        ++ [⟨.eof, lineAfter source.toList⟩] := by
  rw [scan_tokens]
  change (placed Slice.newlines (lineAfter []) _).filterMap _ ++ _ = _
  rw [placed_eq_preceded, List.filterMap_map]
  rfl

theorem scan_errors_eq (source : String) :
    (scan source).errors
      = (preceded [] (slices source.toList)).filterMap
          (fun (s, before) => s.reading.problem?.map (·.onLine (lineAfter before))) := by
  rw [scan_errors]
  change (placed Slice.newlines (lineAfter []) _).filterMap _ = _
  rw [placed_eq_preceded, List.filterMap_map]
  rfl

/-- In a text with fewer newlines than the largest number of 32 bits, a counter of 32 bits
gives the same scan. -/
theorem counted?_scan {source : String} (h : source.toList.count '\n' < UInt32.size - 1) :
    Scan.counted? 1 (slices source.toList) = some (scan source) := by
  refine Scan.counted?_eq (fun _ => advance_slices) ?_
  rw [newlines_slices, UInt32.toNat_one]
  omega

/-- **The lines of a scan are exact.** In a text with fewer newlines than the largest
number of 32 bits, the counter does not overflow and every slice leaves it at the line
to which the text up to the end of the slice leads. What a slice gives, token or
mistake, is on the line to which the text in front of the slice leads; the end of the
input is on the line to which the whole text leads. So lines do not go down along the
tokens, nor along the mistakes. -/
theorem scan_lines {source : String}
    (h : source.toList.count '\n' < UInt32.size - 1) :
    Scan.counted? 1 (slices source.toList) = some (scan source)
      ∧ (∀ s before, (s, before) ∈ preceded [] (slices source.toList) →
        before ++ s.text <+: source.toList
          ∧ lineAfter before + s.advance = lineAfter (before ++ s.text))
      ∧ (scan source).tokens
        = (preceded [] (slices source.toList)).filterMap
            (fun (s, before) => s.reading.lexeme?.map fun l => ⟨l, lineAfter before⟩)
          ++ [⟨.eof, lineAfter source.toList⟩]
      ∧ (scan source).errors
        = (preceded [] (slices source.toList)).filterMap
            (fun (s, before) => s.reading.problem?.map (·.onLine (lineAfter before)))
      ∧ (scan source).tokens.Pairwise (fun s t => s.line ≤ t.line)
      ∧ (scan source).errors.Pairwise (fun d e => d.line ≤ e.line) := by
  obtain ⟨hsorted, hbound⟩ := pairwise_placed Slice.newlines 1 (slices source.toList)
  rw [newlines_slices] at hbound
  refine ⟨counted?_scan h, fun _ _ => lineAfter_advance, scan_tokens_eq source,
    scan_errors_eq source, ?_, ?_⟩
  · rw [scan_tokens, List.pairwise_append, List.pairwise_filterMap]
    refine ⟨hsorted.imp fun hle s hs t ht => ?_, List.pairwise_singleton _ _, ?_⟩
    · rw [line_token? hs, line_token? ht]
      exact hle
    · intro s hs t ht
      obtain ⟨p, hp, hs⟩ := List.mem_filterMap.mp hs
      rw [List.mem_singleton.mp ht, line_token? hs]
      exact (hbound p hp).2
  · rw [scan_errors, List.pairwise_filterMap]
    refine hsorted.imp fun hle d hd e he => ?_
    rw [line_report? hd, line_report? he]
    exact hle

/-- A string over three lines with an escaped newline, a comment with a quote, a
rejected number, an illegal character and an open string. -/
def manyLines : String := "x = \"a\n\\\n\" # b\"\n99999999999999999999 $\n\"y\n"

theorem scan_lines_many :
    manyLines.toList.count '\n' < UInt32.size - 1
      ∧ Scan.counted? 1 (slices manyLines.toList) = some (scan manyLines)
      ∧ (scan manyLines).tokens.map Token.line = [1, 1, 1, 6]
      ∧ (scan manyLines).errors.map Diagnostic.line = [4, 4, 5] := by
  have hfew : manyLines.toList.count '\n' < UInt32.size - 1 := by decide +kernel
  obtain ⟨hcounted, -, htokens, herrors, -, -⟩ := scan_lines hfew
  refine ⟨hfew, hcounted, ?_, ?_⟩
  · rw [htokens]
    decide +kernel
  · rw [herrors]
    decide +kernel

end MatrixLang
