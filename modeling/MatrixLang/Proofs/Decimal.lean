import MatrixLang.Decimal.Places
import MatrixLang.NumberText

/-!
# The parts of a decimal's text

What the text of a number is made of, whatever the number: digits, digits with a
point among them (`Decimal.pointed_parts`), and an exponent with its sign
(`Decimal.exponentText_parts`). What reads such a text or lines several of them up
goes by these parts alone.
-/

namespace MatrixLang.Decimal

/-- These characters are digits. -/
def AreDigits (ds : List Char) : Prop := ∀ c ∈ ds, c.isDigit = true

variable {ds : List Char}

theorem AreDigits.append {es : List Char} (hds : AreDigits ds) (hes : AreDigits es) :
    AreDigits (ds ++ es) :=
  List.forall_mem_append.mpr ⟨hds, hes⟩

theorem areDigits_zeros (n : Nat) : AreDigits (List.replicate n '0') := by
  intro c hc
  rw [List.eq_of_mem_replicate hc]
  rfl

theorem AreDigits.leftpad (hds : AreDigits ds) (n : Nat) : AreDigits (ds.leftpad n '0') :=
  (areDigits_zeros _).append hds

theorem areDigits_digitsOf (n : Nat) : AreDigits (digitsOf n) :=
  fun _ hc => Nat.isDigit_of_mem_toDigits (by decide) (by decide) hc

theorem digitsOf_ne_nil (n : Nat) : digitsOf n ≠ [] := Nat.toDigits_ne_nil

/-- A text of digits around a point. -/
structure Pointed (text whole fraction : List Char) : Prop where
  text : text = whole ++ '.' :: fraction
  whole_ne_nil : whole ≠ []
  whole : AreDigits whole
  fraction : AreDigits fraction

/-- The point stands before the last places, and digits stand before the point. -/
theorem pointed_parts (hds : AreDigits ds) (places : Nat) :
    ∃ whole fraction, Pointed (pointed ds places) whole fraction
      ∧ fraction.length = places := by
  have hpadded := hds.leftpad (places + 1)
  have hlength : places < (ds.leftpad (places + 1) '0').length := by
    rw [List.length_leftpad]
    omega
  refine ⟨_, _, ⟨rfl, ?_, ?_, ?_⟩, ?_⟩
  · refine List.ne_nil_of_length_pos ?_
    rw [List.length_take]
    omega
  · exact fun c hc => hpadded c (List.mem_of_mem_take hc)
  · exact fun c hc => hpadded c (List.mem_of_mem_drop hc)
  · rw [List.length_drop]
    omega

/-- An exponent is a sign and at least two digits. -/
theorem exponentText_parts (e : Int) :
    ∃ sign ds, exponentText e = 'e' :: sign :: ds ∧ (sign = '+' ∨ sign = '-')
      ∧ AreDigits ds ∧ 2 ≤ ds.length := by
  refine ⟨_, _, rfl, ?_, (areDigits_digitsOf _).leftpad 2, ?_⟩
  · split
    · exact .inr rfl
    · exact .inl rfl
  · rw [List.length_leftpad]
    exact Nat.le_max_left _ _

end MatrixLang.Decimal
