/-!
# Doubles, taken apart

A `Float` is a bit pattern; what the language prints and what it cuts off are
facts about the number behind it. `Double.ofFloat` reads the pattern once: a
sign, and a natural significand times a power of two. Everything that turns a
double into text, or into an integer, is then exact arithmetic on these parts,
and no statement about it has to mention a floating-point operation.
-/

namespace MatrixLang

/-- The number behind a double: `finite s m q` is `± m · 2 ^ q`, negative when
`s` holds. Zero keeps its sign. -/
inductive Double where
  | nan
  | infinite (negative : Bool)
  | finite (negative : Bool) (significand : Nat) (exponent : Int)
deriving Repr, DecidableEq

namespace Double

/-- The least exponent of a double; the subnormal ones have it too. -/
def minExponent : Int := -1074

/-- The weight of the sign in a 64-bit pattern, `2 ^ 63`. -/
def signWeight : Nat := 0x8000000000000000

/-- The weight of the lowest bit of the exponent in a 64-bit pattern, `2 ^ 52`.
The significand of a normal double begins with this bit, which is not stored. -/
def hiddenBit : Nat := 0x10000000000000

def exponentField (bits : Nat) : Nat := bits / hiddenBit % 2048

def ofBits (bits : Nat) : Double :=
  let negative := decide (signWeight ≤ bits)
  let biased := exponentField bits
  let fraction := bits % hiddenBit
  if biased = 2047 then
    if fraction = 0 then .infinite negative else .nan
  else if biased = 0 then .finite negative fraction minExponent
  else .finite negative (hiddenBit + fraction) (biased - 1075)

def ofFloat (x : Float) : Double := ofBits x.toBits.toNat

/-- A whole number as near as it can be to the value on its side of zero; an
infinity lies outside every bound, and a NaN counts as zero. -/
def truncated (bound : Nat) : Double → Int
  | .nan => 0
  | .infinite negative => if negative then -(bound : Int) else bound
  | .finite negative m q =>
      let whole := m * Nat.pow 2 q.toNat / Nat.pow 2 (-q).toNat
      if negative then -(whole : Int) else whole

end Double

/-! ## Between doubles and 64-bit numbers -/

def saturated (n : Int) : Int64 :=
  if n < Int64.minValue.toInt then Int64.minValue
  else if Int64.maxValue.toInt < n then Int64.maxValue
  else Int64.ofInt n

/-- The whole part of a double as a 64-bit number: values out of reach end at
the nearest bound, and a NaN gives zero. -/
def wholeNumber (x : Float) : Int64 :=
  saturated ((Double.ofFloat x).truncated (2 * Double.signWeight))

def nearestDouble (n : Int64) : Float := Float.ofInt n.toInt

/-- The double without its fraction: the bits below the binary point are
cleared, so that sign, infinities and NaN stay as they are. -/
def wholePart (x : Float) : Float :=
  let bits := x.toBits.toNat
  let biased := Double.exponentField bits
  if biased < 1023 then
    Float.ofBits (UInt64.ofNat (bits / Double.signWeight * Double.signWeight))
  else if 1075 ≤ biased then x
  else
    let unit := Nat.pow 2 (1075 - biased)
    Float.ofBits (UInt64.ofNat (bits / unit * unit))

end MatrixLang
