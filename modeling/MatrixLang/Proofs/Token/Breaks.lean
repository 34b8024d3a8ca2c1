import MatrixLang.Proofs.Token.Slices

/-!
# Where slices end

A newline ends every slice but an open string, and a space ends words, numbers,
symbols and closed strings (`SliceClass.endsAt`). What ends a slice is not looked
into: the front of a text is read as if the text ended there
(`Slice.first_append_break`). By induction on the slices the text in front of a
newline or a space is cut as if it stood alone (`slices_append_break`).
-/

namespace MatrixLang

open Slice

variable {c d : Char} {cs : List Char}

/-- A newline or a space that a slice of this class does not run over. -/
def SliceClass.endsAt (d : Char) : SliceClass → Bool
  | .openString => false
  | .blank | .comment => d = '\n'
  | _ => d = '\n' || d = ' '

theorem SliceClass.endsAt_cases {cls : SliceClass} (h : cls.endsAt d = true) :
    d = '\n' ∨ d = ' ' := by
  cases cls <;> simp_all [endsAt]

theorem SliceClass.endsAt_newline {cls : SliceClass} (h : cls ≠ .openString) :
    cls.endsAt '\n' = true := by
  cases cls with
  | openString => exact absurd rfl h
  | _ => rfl

namespace Slice

/-! ## Runs of characters -/

theorem takeWhile_append_break {p : Char → Bool} (hp : p d = false)
    (cs b : List Char) : (cs ++ d :: b).takeWhile p = cs.takeWhile p := by
  induction cs with
  | nil => exact List.takeWhile_cons_of_neg (Bool.eq_false_iff.mp hp)
  | cons c cs ih =>
      rw [List.cons_append, List.takeWhile_cons, List.takeWhile_cons, ih]

/-! ## Numbers -/

variable (hd : d = '\n' ∨ d = ' ')

include hd

theorem digitRun_append_break (cs b : List Char) :
    digitRun (cs ++ d :: b) = digitRun cs := by
  rcases hd with rfl | rfl <;> exact takeWhile_append_break rfl cs b

theorem fractionRun_append_break (cs b : List Char) :
    fractionRun (cs ++ d :: b) = fractionRun cs := by
  cases cs with
  | nil => rcases hd with rfl | rfl <;> rfl
  | cons c cs =>
      by_cases hc : c = '.'
      · subst hc
        exact congrArg ('.' :: ·) (digitRun_append_break hd cs b)
      · simp [fractionRun, hc]

theorem signRun_append_break (cs b : List Char) :
    signRun (cs ++ d :: b) = signRun cs := by
  cases cs with
  | nil => rcases hd with rfl | rfl <;> rfl
  | cons c cs =>
      unfold signRun
      split <;> simp_all

omit hd in
/-- A prefix of the first part is all that was taken off. -/
theorem drop_append_break {us : List Char} (h : us <+: cs) (b : List Char) :
    (cs ++ d :: b).drop us.length = cs.drop us.length ++ d :: b :=
  List.drop_append_of_le_length h.length_le

theorem exponentRun_append_break (cs b : List Char) :
    exponentRun (cs ++ d :: b) = exponentRun cs := by
  cases cs with
  | nil => rcases hd with rfl | rfl <;> rfl
  | cons e cs =>
      simp only [List.cons_append, exponentRun, signRun_append_break hd,
        drop_append_break (signRun_front cs), digitRun_append_break hd]

theorem number_append_break (cs b : List Char) :
    number (cs ++ d :: b) = number cs := by
  have hwhole : digitRun cs <+: cs := List.takeWhile_prefix _
  have hmantissa := prefix_append_drop hwhole (fractionRun_front _)
  simp only [number, digitRun_append_break hd, drop_append_break hwhole,
    fractionRun_append_break hd, drop_append_break hmantissa,
    exponentRun_append_break hd]

theorem startsNumber_append_break (c : Char) (cs b : List Char) :
    startsNumber c (cs ++ d :: b) = startsNumber c cs := by
  cases cs with
  | nil => rcases hd with rfl | rfl <;> rfl
  | cons => rfl

/-! ## Strings and symbols -/

omit hd in
/-- A string that is closed ends there, whatever follows. -/
theorem stringRest_append (h : (stringRest cs).1 = true) (b : List Char) :
    stringRest (cs ++ b) = stringRest cs := by
  induction cs using string_induct with
  | nil | backslash => simp at h
  | quote cs => simp
  | escape c cs ih =>
      rw [stringRest_escape] at h
      simp only [List.cons_append, stringRest_escape, ih h]
  | plain c cs hquote hbackslash ih =>
      rw [stringRest_plain hquote hbackslash] at h
      simp only [List.cons_append, stringRest_plain hquote hbackslash, ih h]

theorem symbol?_append_break (c : Char) (cs b : List Char) :
    symbol? c (cs ++ d :: b) = symbol? c cs := by
  cases cs with
  | nil =>
      have hnone : Symbol.ofChars? [c, d] = none := by
        refine List.find?_eq_none.mpr fun s _ => ?_
        rcases hd with rfl | rfl <;> cases s <;> simp [Symbol.chars]
      simp only [List.nil_append, symbol?, hnone, Option.none_or]
  | cons => rfl

omit hd in
theorem string_append (h : (string cs).cls ≠ .openString) (b : List Char) :
    string (cs ++ b) = string cs := by
  have hclosed : (stringRest cs).1 = true :=
    Decidable.byContradiction fun hopen => h (if_neg hopen)
  simp only [string, stringRest_append hclosed]

/-! ## Slices -/

omit hd in
theorem first_append_break (h : (first c cs).cls.endsAt d = true)
    (b : List Char) : first c (cs ++ d :: b) = first c cs := by
  have hd := SliceClass.endsAt_cases h
  by_cases hblank : isBlank c = true
  · rw [first_blank hblank] at h ⊢
    obtain rfl : d = '\n' := of_decide_eq_true h
    rw [first_blank hblank, takeWhile_append_break rfl]
  by_cases hcomment : c = '#'
  · subst hcomment
    rw [first_comment] at h ⊢
    obtain rfl : d = '\n' := of_decide_eq_true h
    rw [first_comment, takeWhile_append_break rfl]
  by_cases hquote : c = '"'
  · subst hquote
    rw [first_quote] at h ⊢
    rw [first_quote, string_append fun hopen => by rw [hopen] at h; cases h]
  -- words, numbers and symbols have no character that ends a slice
  have hword : (cs ++ d :: b).takeWhile isWordPart = cs.takeWhile isWordPart := by
    rcases hd with rfl | rfl <;> exact takeWhile_append_break rfl cs b
  have hnumber := number_append_break hd (c :: cs) b
  rw [List.cons_append] at hnumber
  simp only [first, if_neg hblank, if_neg hcomment, if_neg hquote, hword, hnumber,
    startsNumber_append_break hd, symbol?_append_break hd]

end Slice

/-- A text in front of a newline or a space that ends its slices is cut as if it
stood alone. -/
theorem slices_append_break {a : List Char}
    (h : ∀ s ∈ slices a, s.cls.endsAt d = true) (b : List Char) :
    slices (a ++ d :: b) = slices a ++ slices (d :: b) := by
  induction a using slices_induct with
  | nil => rw [List.nil_append, slices_nil, List.nil_append]
  | cons c cs rest hrest ih =>
      rw [slices_append_first hrest] at h ⊢
      obtain ⟨hfirst, htail⟩ := List.forall_mem_cons.mp h
      have hsame := first_append_break hfirst b
      have hsplit : c :: (cs ++ d :: b)
          = (first c (cs ++ d :: b)).text ++ (rest ++ d :: b) := by
        rw [hsame, ← List.append_assoc, ← hrest, List.cons_append]
      rw [List.cons_append, slices_append_first hsplit, hsame, ih htail,
        List.cons_append]

end MatrixLang
