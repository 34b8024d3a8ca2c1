import MatrixLang.Proofs.Decimal
import MatrixLang.Proofs.Double
import MatrixLang.Proofs.Token.Spelling

/-!
# Written floats are scanned as floats

What is written for a decimal shows a point or an exponent, so that it is a word of
the pattern of floats and of no other (`Decimal.numeral_mem_float`): digits alone would
be an integer. The text of a negative float has a minus in front of that, which is a
symbol by itself, since no symbol goes on with a digit. So the text of every finite
float is one float token, behind a minus if the sign of the float is set
(`scan_floatText`).
-/

namespace MatrixLang

open Slice

/-! ## Numerals -/

namespace Decimal

theorem exponentText_mem_exponent (e : Int) : exponentText e ∈ MatrixLang.exponent := by
  obtain ⟨sign, ds, htext, hsign, hds, hlength⟩ := exponentText_parts e
  refine mem_exponent.mpr ⟨'e', [sign], ds, htext, .inl rfl, ?_, ?_, hds⟩
  · rcases hsign with rfl | rfl
    · exact .inr (.inl rfl)
    · exact .inr (.inr rfl)
  · exact List.ne_nil_of_length_pos (by omega)

/-- Digits around a point are a float. -/
theorem Pointed.mem_pattern {text whole fraction : List Char}
    (h : Pointed text whole fraction) : text ∈ Pattern.float.language := by
  refine mem_float.mpr ⟨whole, '.' :: fraction, [], ?_, ?_⟩
  · rw [h.text, List.append_nil]
  · exact ⟨h.whole, .inr ⟨fraction, rfl, h.fraction⟩, .inl rfl, .inl h.whole_ne_nil,
      .inl (List.cons_ne_nil _ _)⟩

theorem positional_mem_float (d : Decimal) : d.positional ∈ Pattern.float.language := by
  have hdigits : AreDigits d.digits := areDigits_digitsOf _
  rw [positional]
  split
  · have hpoint : Pointed (d.digits ++ List.replicate d.exponent.toNat '0' ++ ['.', '0'])
        (d.digits ++ List.replicate d.exponent.toNat '0') ['0'] :=
      ⟨rfl, List.append_ne_nil_of_left_ne_nil (digitsOf_ne_nil _) _,
        hdigits.append (areDigits_zeros _), areDigits_zeros 1⟩
    exact hpoint.mem_pattern
  · obtain ⟨whole, fraction, hpoint, -⟩ := pointed_parts hdigits (-d.exponent).toNat
    exact hpoint.mem_pattern

theorem withExponent_mem_float (d : Decimal) :
    d.withExponent ∈ Pattern.float.language := by
  have hdigits : AreDigits d.digits := areDigits_digitsOf _
  have hexponent := exponentText_mem_exponent d.leading
  rw [withExponent]
  split
  · rename_i first second rest hds
    rw [hds] at hdigits
    obtain ⟨hfirst, hrest⟩ := List.forall_mem_cons.mp hdigits
    refine mem_float.mpr ⟨[first], '.' :: second :: rest, _, rfl, ?_⟩
    exact ⟨List.forall_mem_singleton.mpr hfirst, .inr ⟨_, rfl, hrest⟩, .inr hexponent,
      .inl (List.cons_ne_nil _ _), .inl (List.cons_ne_nil _ _)⟩
  · refine mem_float.mpr ⟨d.digits, [], exponentText d.leading, by rw [List.append_nil], ?_⟩
    exact ⟨hdigits, .inl rfl, .inr hexponent, .inl (digitsOf_ne_nil _),
      .inr (List.cons_ne_nil _ _)⟩

/-- A decimal is written as a float, in either form. -/
theorem numeral_mem_float (d : Decimal) : d.numeral ∈ Pattern.float.language := by
  rw [numeral]
  split
  · exact d.positional_mem_float
  · exact d.withExponent_mem_float

end Decimal

/-! ## Signs -/

/-- A float begins with a digit or with a point. -/
theorem Pattern.float_head {u : List Char} (h : u ∈ Pattern.float.language) :
    ∃ c cs, u = c :: cs ∧ (c.isDigit = true ∨ c = '.') := by
  obtain ⟨w, f, x, rfl, hparts⟩ := mem_float.mp h
  cases w with
  | cons c w => exact ⟨c, _, rfl, .inl (hparts.whole c List.mem_cons_self)⟩
  | nil =>
      rcases hparts.fraction with rfl | ⟨ds, rfl, -⟩
      · exact absurd hparts.digits (by simp)
      · exact ⟨'.', _, rfl, .inr rfl⟩

/-- A minus in front of a float is a slice by itself. -/
theorem slices_minus {u : List Char} (h : u ∈ Pattern.float.language) :
    slices ('-' :: u) = ⟨.symbol .minus, ['-']⟩ :: slices u := by
  obtain ⟨c, cs, rfl, hc⟩ := Pattern.float_head h
  have hlonger : Symbol.ofChars? ['-', c] = none := by
    refine Option.eq_none_iff_forall_ne_some.mpr fun s hs => ?_
    have hchars := Symbol.chars_ofChars? hs
    cases s <;> cases hchars
    -- the only one is `-=`
    rcases hc with hc | hc <;> cases hc
  have hfirst : first '-' (c :: cs) = ⟨.symbol .minus, ['-']⟩ := by
    have hprefix : Symbol.minus.chars <+: '-' :: c :: cs := ⟨c :: cs, rfl⟩
    rw [first_symbol hprefix, symbol?, hlonger]
    rfl
  have hsplit : '-' :: c :: cs = (first '-' (c :: cs)).text ++ c :: cs := by rw [hfirst]; rfl
  rw [slices_append_first hsplit, hfirst]

/-! ## Scans -/

theorem scanChars_float {u : List Char} (h : u ∈ Pattern.float.language) (line : Nat) :
    scanChars line u = ⟨[⟨.float (floatOfNumeral u), line⟩, ⟨.eof, line⟩], []⟩ := by
  obtain ⟨c, cs, rfl⟩ := List.exists_cons_of_ne_nil (Pattern.ne_nil h)
  have hlines : (c :: cs).count '\n' = 0 :=
    List.count_eq_zero.mpr (Pattern.newline_not_mem (p := .float) h rfl)
  rw [scanChars, slices_of_mem h]
  simp only [Scan.ofSlices, Pattern.cls, reading, newlines, hlines, Scan.before, Nat.add_zero]

/-- **Printed floats scan as floats.** The text of a finite float has no mistake in it
and is one float, with a minus before it exactly if the sign of the float is set. -/
theorem scan_floatText {x : Float} (hx : x.isFinite = true) :
    ∃ y, scan (floatText x)
      = ⟨(if Double.signWeight ≤ x.toBits.toNat then [⟨.symbol .minus, 1⟩] else [])
          ++ [⟨.float y, 1⟩, ⟨.eof, 1⟩], []⟩ := by
  obtain ⟨m, q, hdouble⟩ := Double.ofFloat_of_isFinite hx
  have hfloat := (Decimal.shortest m q).numeral_mem_float
  refine ⟨floatOfNumeral (Decimal.shortest m q).numeral, ?_⟩
  rw [scan, floatText, String.toList_ofList, hdouble, Double.numeral, signed]
  by_cases hsign : Double.signWeight ≤ x.toBits.toNat
  · rw [if_pos hsign, if_pos (decide_eq_true hsign), scanChars_first (slices_minus hfloat) 1,
      scanChars_float hfloat]
    rfl
  · rw [if_neg hsign, if_neg (by simpa using hsign), scanChars_float hfloat]
    rfl

/-- Below zero and as near to it as can be: `-5e-324`, a mantissa without a point. -/
theorem scan_floatText_least :
    (Float.ofBits 0x8000000000000001).isFinite = true
      ∧ ∃ y, scan (floatText (Float.ofBits 0x8000000000000001))
        = ⟨[⟨.symbol .minus, 1⟩, ⟨.float y, 1⟩, ⟨.eof, 1⟩], []⟩ := by
  have hfinite : (Float.ofBits 0x8000000000000001).isFinite = true := by decide +kernel
  have hsign : Double.signWeight ≤ (Float.ofBits 0x8000000000000001).toBits.toNat := by
    decide +kernel
  obtain ⟨y, hscan⟩ := scan_floatText hfinite
  rw [if_pos hsign] at hscan
  exact ⟨hfinite, y, hscan⟩

end MatrixLang
