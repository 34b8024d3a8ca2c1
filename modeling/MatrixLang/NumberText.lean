import MatrixLang.Decimal.Shortest

/-!
# The text of a float

## Writing

A float is written with the fewest digits that read back as it. The writing is
positional, and shows a point, when the first digit stands for a power of ten
from `10 ^ -4` to `10 ^ 15`; otherwise there is a mantissa and a signed
exponent of at least two digits: `0.1`, `2.0`, `1e+20`, `1.5e-07`. The same
text is used for printed values, for tokens and for the outline of a tree.

## Reading

A numeral is digits, possibly a point and digits, possibly an exponent. It is
read as the double nearest to the number it writes.
-/

namespace MatrixLang

namespace Decimal

/-- Positional writing: a whole number shows `.0`. -/
def positional (d : Decimal) : List Char :=
  if 0 ≤ d.exponent then d.digits ++ List.replicate d.exponent.toNat '0' ++ ['.', '0']
  else pointed d.digits (-d.exponent).toNat

/-- Mantissa and exponent: the mantissa shows a point only before digits. -/
def withExponent (d : Decimal) : List Char :=
  match d.digits with
  | first :: second :: rest =>
      first :: '.' :: second :: rest ++ exponentText d.leading
  | mantissa => mantissa ++ exponentText d.leading

def isPositional (d : Decimal) : Bool := -4 ≤ d.leading && d.leading < 16

def numeral (d : Decimal) : List Char :=
  if d.isPositional then d.positional else d.withExponent

end Decimal

def signed (negative : Bool) (text : List Char) : List Char :=
  if negative then '-' :: text else text

def Double.numeral : Double → List Char
  | .nan => ['n', 'a', 'n']
  | .infinite negative => signed negative ['i', 'n', 'f']
  | .finite negative m q => signed negative (Decimal.shortest m q).numeral

def floatText (x : Float) : String := String.ofList (Double.ofFloat x).numeral

/-! ## From text to float -/

def signedOfDigits : List Char → Int
  | '-' :: ds => -(Decimal.ofDigits ds : Int)
  | '+' :: ds => Decimal.ofDigits ds
  | ds => Decimal.ofDigits ds

def Decimal.ofNumeral (cs : List Char) : Decimal :=
  let mantissa := cs.takeWhile fun c => c ≠ 'e' ∧ c ≠ 'E'
  let whole := mantissa.takeWhile (· ≠ '.')
  let fraction := mantissa.drop (whole.length + 1)
  let exponent := signedOfDigits (cs.drop (mantissa.length + 1))
  ⟨ofDigits (whole ++ fraction), exponent - fraction.length⟩

def Decimal.toFloat (d : Decimal) : Float :=
  Float.ofScientific d.coefficient (decide (d.exponent < 0)) d.exponent.natAbs

def floatOfNumeral (cs : List Char) : Float := (Decimal.ofNumeral cs).toFloat

end MatrixLang
