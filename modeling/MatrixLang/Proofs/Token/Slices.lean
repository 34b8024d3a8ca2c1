import MatrixLang.Token.Slice

/-!
# The slices of a text

A slice is not empty and stands at the front of the text that it is taken from
(`Slice.first_front`). So the text is the slice and a shorter rest, of which the
other slices are taken (`slices_append_first`): this is the recursion that facts
about all slices of a text go along, as in `slices_texts`.
-/

namespace MatrixLang

open Slice

/-! ## Fixed texts -/

theorem Keyword.chars_ofChars? {cs : List Char} {k : Keyword}
    (h : ofChars? cs = some k) : k.chars = cs := by
  unfold ofChars? at h
  simpa using List.find?_some h

theorem Symbol.chars_ofChars? {cs : List Char} {s : Symbol}
    (h : ofChars? cs = some s) : s.chars = cs := by
  unfold ofChars? at h
  simpa using List.find?_some h

theorem Symbol.chars_ne_nil (s : Symbol) : s.chars ≠ [] := by
  cases s <;> exact List.cons_ne_nil _ _

/-! ## Prefixes -/

/-- What stands at the front of the rest makes a longer prefix. -/
theorem prefix_append_drop {us vs cs : List Char} (hus : us <+: cs)
    (hvs : vs <+: cs.drop us.length) : us ++ vs <+: cs := by
  obtain ⟨rest, rfl⟩ := hus
  rw [List.drop_left] at hvs
  exact (List.prefix_append_right_inj us).mpr hvs

namespace Slice

variable {c : Char} {cs : List Char}

theorem fractionRun_front (cs : List Char) : fractionRun cs <+: cs := by
  unfold fractionRun
  split
  · exact (List.prefix_cons_inj _).mpr (List.takeWhile_prefix _)
  · exact List.nil_prefix

theorem signRun_front (cs : List Char) : signRun cs <+: cs := by
  unfold signRun
  split
  · exact ⟨_, rfl⟩
  · exact ⟨_, rfl⟩
  · exact List.nil_prefix

theorem exponentRun_front (cs : List Char) : exponentRun cs <+: cs := by
  cases cs with
  | nil => exact List.nil_prefix
  | cons e cs =>
      simp only [exponentRun]
      split
      · split
        · exact List.nil_prefix
        · exact (List.prefix_cons_inj e).mpr
            (prefix_append_drop (signRun_front cs) (List.takeWhile_prefix _))
      · exact List.nil_prefix

/-- A number is its digits, its fraction and its exponent. -/
theorem number_text (cs : List Char) :
    (number cs).text = digitRun cs ++ fractionRun (cs.drop (digitRun cs).length)
      ++ exponentRun (cs.drop (digitRun cs
        ++ fractionRun (cs.drop (digitRun cs).length)).length) := by
  simp only [number]
  split
  · rename_i h
    rw [h.2, List.append_nil, h.1, List.append_nil]
  · rfl

theorem number_front (cs : List Char) : (number cs).text <+: cs := by
  rw [number_text]
  exact prefix_append_drop
    (prefix_append_drop (List.takeWhile_prefix _) (fractionRun_front _))
    (exponentRun_front _)

/-- There is a digit in a number, before its exponent. -/
theorem digit_of_startsNumber (h : startsNumber c cs = true) :
    digitRun (c :: cs) ≠ [] ∨ digitRun (c :: cs) = []
      ∧ 1 < (fractionRun (c :: cs)).length := by
  cases hc : c.isDigit with
  | true =>
      left
      rw [digitRun, List.takeWhile_cons_of_pos hc]
      exact List.cons_ne_nil _ _
  | false =>
      right
      simp only [startsNumber, hc, Bool.false_or, Bool.and_eq_true,
        decide_eq_true_eq] at h
      obtain ⟨rfl, h⟩ := h
      cases cs with
      | nil => cases h
      | cons d cs =>
          have hd : d.isDigit = true := h
          refine ⟨rfl, ?_⟩
          simp only [fractionRun, digitRun, List.takeWhile_cons_of_pos hd,
            List.length_cons]
          omega

theorem number_ne_nil (h : startsNumber c cs = true) :
    (number (c :: cs)).text ≠ [] := by
  rw [number_text]
  rcases digit_of_startsNumber h with hw | ⟨hw, hf⟩
  · exact List.append_ne_nil_of_left_ne_nil
      (List.append_ne_nil_of_left_ne_nil hw _) _
  · rw [hw]
    refine List.append_ne_nil_of_left_ne_nil
      (List.append_ne_nil_of_right_ne_nil _ ?_) _
    exact List.ne_nil_of_length_pos (Nat.lt_trans Nat.one_pos hf)

/-! ## Strings -/

@[simp] theorem stringRest_nil : stringRest [] = (false, []) := by
  rw [stringRest]

@[simp] theorem stringRest_quote (cs : List Char) :
    stringRest ('"' :: cs) = (true, ['"']) := by
  rw [stringRest.eq_def]
  split
  · simp_all
  · rename_i heq
    cases heq
    exact if_pos rfl
  · simp_all

@[simp] theorem stringRest_backslash : stringRest ['\\'] = (false, []) := by
  rw [stringRest.eq_def]
  rfl

@[simp] theorem stringRest_escape (c : Char) (cs : List Char) :
    stringRest ('\\' :: c :: cs)
      = ((stringRest cs).1, '\\' :: c :: (stringRest cs).2) := by
  rw [stringRest]

theorem stringRest_plain (hquote : c ≠ '"') (hbackslash : c ≠ '\\')
    (cs : List Char) :
    stringRest (c :: cs) = ((stringRest cs).1, c :: (stringRest cs).2) := by
  rw [stringRest.eq_def]
  split <;> simp_all

/-- The ways in which the rest of a string may begin. -/
@[elab_as_elim]
theorem string_induct {motive : List Char → Prop} (nil : motive [])
    (quote : ∀ cs, motive ('"' :: cs)) (backslash : motive ['\\'])
    (escape : ∀ c cs, motive cs → motive ('\\' :: c :: cs))
    (plain : ∀ c cs, c ≠ '"' → c ≠ '\\' → motive cs → motive (c :: cs))
    (cs : List Char) : motive cs := by
  induction cs using stringRest.induct with
  | case1 c cs _ _ _ ih => exact escape c cs ih
  | case2 cs => exact quote cs
  | case3 cs hlast =>
      cases cs with
      | nil => exact backslash
      | cons c cs => exact (hlast c cs rfl rfl).elim
  | case4 c cs _ hquote hbackslash _ _ _ ih =>
      exact plain c cs hquote hbackslash ih
  | case5 => exact nil

theorem stringRest_front (cs : List Char) : (stringRest cs).2 <+: cs := by
  induction cs using string_induct with
  | nil => exact List.nil_prefix
  | quote cs =>
      rw [stringRest_quote]
      exact ⟨cs, rfl⟩
  | backslash =>
      rw [stringRest_backslash]
      exact List.nil_prefix
  | escape c cs ih =>
      rw [stringRest_escape]
      exact (List.prefix_cons_inj _).mpr ((List.prefix_cons_inj _).mpr ih)
  | plain c cs hquote hbackslash ih =>
      rw [stringRest_plain hquote hbackslash]
      exact (List.prefix_cons_inj _).mpr ih

/-! ## Symbols -/

theorem symbol?_front {s : Symbol} (h : symbol? c cs = some s) :
    s.chars <+: c :: cs := by
  unfold symbol? at h
  split at h
  · rename_i d cs
    rcases Option.or_eq_some_iff.mp h with h | ⟨-, h⟩
    · rw [Symbol.chars_ofChars? h]
      exact ⟨cs, rfl⟩
    · rw [Symbol.chars_ofChars? h]
      exact ⟨d :: cs, rfl⟩
  · exact ⟨[], by rw [Symbol.chars_ofChars? h, List.append_nil]⟩

/-! ## The first slice -/

/-- The kinds of slices, by the characters that they begin with. -/
@[elab_as_elim]
theorem first_cases {motive : Slice → Prop} (c : Char) (cs : List Char)
    (blank : isBlank c = true → motive ⟨.blank, c :: cs.takeWhile isBlank⟩)
    (newline : c = '\n' → motive ⟨.newline, [c]⟩)
    (comment : c = '#' → motive ⟨.comment, c :: cs.takeWhile (· ≠ '\n')⟩)
    (word : isWordStart c = true →
      motive ⟨.word, c :: cs.takeWhile isWordPart⟩)
    (number : startsNumber c cs = true → motive (number (c :: cs)))
    (string : c = '"' → motive (string cs))
    (symbol : ∀ s, symbol? c cs = some s → motive ⟨.symbol s, s.chars⟩)
    (illegal : motive ⟨.illegal, [c]⟩) : motive (first c cs) := by
  unfold first
  split
  · rename_i h
    exact blank h
  split
  · rename_i h
    exact newline h
  split
  · rename_i h
    exact comment h
  split
  · rename_i h
    exact word h
  split
  · rename_i h
    exact number h
  split
  · rename_i h
    exact string h
  split
  · rename_i s h
    exact symbol s h
  · exact illegal

theorem first_blank (h : isBlank c = true) (cs : List Char) :
    first c cs = ⟨.blank, c :: cs.takeWhile isBlank⟩ := if_pos h

theorem first_comment (cs : List Char) :
    first '#' cs = ⟨.comment, '#' :: cs.takeWhile (· ≠ '\n')⟩ := rfl

theorem first_newline (cs : List Char) : first '\n' cs = ⟨.newline, ['\n']⟩ := rfl

theorem first_quote (cs : List Char) : first '"' cs = string cs := rfl

theorem first_front (c : Char) (cs : List Char) :
    (first c cs).text <+: c :: cs := by
  have run : ∀ p : Char → Bool, c :: cs.takeWhile p <+: c :: cs := fun p =>
    (List.prefix_cons_inj c).mpr (List.takeWhile_prefix p)
  refine first_cases c cs (fun _ => run _) (fun _ => ⟨cs, rfl⟩) (fun _ => run _)
    (fun _ => run _) (fun _ => number_front _) ?_ (fun s hs => symbol?_front hs)
    ⟨cs, rfl⟩
  rintro rfl
  exact (List.prefix_cons_inj _).mpr (stringRest_front cs)

theorem first_ne_nil (c : Char) (cs : List Char) : (first c cs).text ≠ [] := by
  have cons : ∀ ds : List Char, c :: ds ≠ [] := List.cons_ne_nil c
  refine first_cases c cs (fun _ => cons _) (fun _ => cons _) (fun _ => cons _)
    (fun _ => cons _) (fun h => number_ne_nil h) ?_ (fun s _ => s.chars_ne_nil)
    (cons _)
  rintro rfl
  exact List.cons_ne_nil _ _

theorem first_head (c : Char) (cs : List Char) : ∃ us, (first c cs).text = c :: us := by
  obtain ⟨d, us, hus⟩ := List.exists_cons_of_ne_nil (first_ne_nil c cs)
  have hfront := first_front c cs
  rw [hus] at hfront
  exact ⟨us, hus.trans (by rw [(List.cons_prefix_cons.mp hfront).1])⟩

end Slice

/-! ## All slices -/

@[simp] theorem slices_nil : slices [] = [] := by rw [slices]

theorem slices_cons (c : Char) (cs : List Char) :
    slices (c :: cs)
      = first c cs :: slices ((c :: cs).drop (first c cs).text.length) := by
  have hpos : 0 < (first c cs).text.length :=
    List.length_pos_iff.mpr (first_ne_nil c cs)
  rw [slices]
  obtain ⟨n, hn⟩ : ∃ n, (first c cs).text.length = n + 1 :=
    ⟨(first c cs).text.length - 1, by omega⟩
  simp only [hn, Nat.add_sub_cancel, List.drop_succ_cons]

/-- The text is its first slice and what the other slices are taken from. -/
theorem slices_append_first {c : Char} {cs rest : List Char}
    (h : c :: cs = (first c cs).text ++ rest) :
    slices (c :: cs) = first c cs :: slices rest := by
  rw [slices_cons, h, List.drop_left]

@[elab_as_elim]
theorem slices_induct {motive : List Char → Prop} (nil : motive [])
    (cons : ∀ c cs rest, c :: cs = (first c cs).text ++ rest → motive rest →
      motive (c :: cs)) (cs : List Char) : motive cs := by
  induction hn : cs.length using Nat.strongRecOn generalizing cs with
  | ind n ih =>
      cases cs with
      | nil => exact nil
      | cons c cs =>
          obtain ⟨rest, hrest⟩ := first_front c cs
          have hpos : 0 < (first c cs).text.length :=
            List.length_pos_iff.mpr (first_ne_nil c cs)
          have hlen := congrArg List.length hrest
          rw [List.length_append] at hlen
          exact cons c cs rest hrest.symm (ih rest.length (by omega) rest rfl)

/-- Nothing of a text is left out of its slices. -/
theorem slices_texts (cs : List Char) : (slices cs).flatMap Slice.text = cs := by
  induction cs using slices_induct with
  | nil => rw [slices_nil, List.flatMap_nil]
  | cons c cs rest hrest ih =>
      rw [slices_append_first hrest, List.flatMap_cons, ih, ← hrest]

end MatrixLang
