import MatrixLang.Decimal.Shortest

/-!
# A fixed number of places

The value of a double is rounded, exactly, to a given number of digits after
the point: of the number itself (`fixed`), or of its mantissa (`scientific`).
A half goes to the even neighbour.
-/

namespace MatrixLang.Decimal

/-- The nearest multiple of `10 ^ p` to `m · 2 ^ q`, counted in units of it. -/
def nearest (m : Nat) (q p : Int) : Nat :=
  roundHalfEven (m * Nat.pow 2 q.toNat * Nat.pow 10 (-p).toNat)
    (Nat.pow 2 (-q).toNat * Nat.pow 10 p.toNat)

def reaches (m : Nat) (q p : Int) : Bool :=
  Nat.pow 2 (-q).toNat * Nat.pow 10 p.toNat ≤ m * Nat.pow 2 q.toNat * Nat.pow 10 (-p).toNat

/-- The first of `p`, `p - 1`, … whose power of ten the value reaches. -/
def firstReached (m : Nat) (q : Int) : Nat → Int → Int
  | 0, p => p
  | steps + 1, p => if reaches m q p then p else firstReached m q steps (p - 1)

def leadingExponent (m : Nat) (q : Int) : Int :=
  if m = 0 then 0 else firstReached m q 8 (leadingBound m q)

def fixed (places : Nat) (m : Nat) (q : Int) : List Char :=
  pointed (digitsOf (nearest m q (-places))) places

/-- Mantissa, with `places` digits after the point, and exponent of
`m · 2 ^ q`. A mantissa that rounds up to ten is one of the next exponent. -/
def scientific (places : Nat) (m : Nat) (q : Int) : List Char × Int :=
  let e := leadingExponent m q
  let n := nearest m q (e - places)
  if Nat.pow 10 (places + 1) ≤ n then (pointed (digitsOf (n / 10)) places, e + 1)
  else (pointed (digitsOf n) places, e)

end MatrixLang.Decimal
