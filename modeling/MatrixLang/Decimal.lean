/-!
# Decimal numbers

A decimal is a coefficient and a power of ten. This module holds what a text
needs of it: its digits, its leading exponent, the rounding of a quotient to a
whole number with a half going to the even neighbour, and the way back from
digits to a number.
-/

namespace MatrixLang

/-- The number `coefficient · 10 ^ exponent`. -/
structure Decimal where
  coefficient : Nat
  exponent : Int
deriving Repr, DecidableEq

namespace Decimal

/-! ## Digits -/

def digitsOf (n : Nat) : List Char := Nat.toDigits 10 n

def signedDigits (n : Int) : List Char :=
  if n < 0 then '-' :: digitsOf n.natAbs else digitsOf n.natAbs

def ofDigits (digits : List Char) : Nat :=
  digits.foldl (fun n c => 10 * n + (c.toNat - '0'.toNat)) 0

def digits (d : Decimal) : List Char := digitsOf d.coefficient

/-- The power of ten of the first digit. -/
def leading (d : Decimal) : Int := d.exponent + (d.digits.length - 1 : Nat)

/-! ## Rounding -/

/-- The whole number nearest to `num / den`; a half goes to the even one. -/
def roundHalfEven (num den : Nat) : Nat :=
  let below := num / den
  let rest := 2 * (num % den)
  if rest < den then below
  else if den < rest then below + 1
  else if below % 2 = 0 then below else below + 1

/-! ## Text -/

/-- Digits with a point before the last `places` of them, and at least one
digit before the point. -/
def pointed (digits : List Char) (places : Nat) : List Char :=
  let padded := digits.leftpad (places + 1) '0'
  padded.take (padded.length - places) ++ '.' :: padded.drop (padded.length - places)

/-- An exponent: its sign is always written, and at least two digits are. -/
def exponentText (e : Int) : List Char :=
  'e' :: (if e < 0 then '-' else '+') :: (digitsOf e.natAbs).leftpad 2 '0'

end Decimal

end MatrixLang
