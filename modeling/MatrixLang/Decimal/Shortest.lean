import MatrixLang.Double
import MatrixLang.Decimal

/-!
# The shortest decimal that reads back

Every real near enough to a double is read as that double. The reals that are
form an interval around it, which holds its ends when the significand is even.
`shortest` walks down the grids of multiples of `10 ^ p` and stops at the first
grid with a point inside; of two points inside it takes the nearer one, and the
upper one when they are equally near.

If a grid has a point inside at all, then one of the two grid points around the
double itself is inside, so looking at these two is enough.
-/

namespace MatrixLang.Decimal

/-- The grid points around a double that read back as it: `below` is the last
one not above the value, and both are counted in units of the grid. -/
structure GridHit where
  below : Nat
  lowerReads : Bool
  upperReads : Bool
  /-- The upper neighbour is at least as near as the lower one. -/
  upperNearer : Bool

/-- Looks at the multiples of `10 ^ p` around `m · 2 ^ q`. All quantities are
multiplied up to natural numbers: the value is `4 m` quarter units, and the
interval reaches half a unit up and half a unit down, a quarter only where the
doubles below lie twice as close. -/
def gridHit (m : Nat) (q p : Int) : GridHit :=
  let scale := Nat.pow 2 (q - 2).toNat * Nat.pow 10 (-p).toNat
  let grid := Nat.pow 2 (2 - q).toNat * Nat.pow 10 p.toNat
  let value := 4 * m * scale
  let reachDown :=
    if m = Double.hiddenBit ∧ Double.minExponent < q then scale else 2 * scale
  let low := value - reachDown
  let high := value + 2 * scale
  let below := value / grid
  let reads (n : Nat) : Bool :=
    if m % 2 = 0 then low ≤ n * grid && n * grid ≤ high
    else low < n * grid && n * grid < high
  { below := below
    lowerReads := reads below
    upperReads := reads (below + 1)
    upperNearer := (2 * below + 1) * grid ≤ 2 * value }

def GridHit.pick (hit : GridHit) : Option Nat :=
  if hit.lowerReads && hit.upperReads then
    some (if hit.upperNearer then hit.below + 1 else hit.below)
  else if hit.lowerReads then some hit.below
  else if hit.upperReads then some (hit.below + 1)
  else none

def exact (m : Nat) (q : Int) : Decimal :=
  if 0 ≤ q then ⟨m * Nat.pow 2 q.toNat, 0⟩ else ⟨m * Nat.pow 5 (-q).toNat, q⟩

/-- The first of the grids `10 ^ p`, `10 ^ (p - 1)`, … with a point that reads
back; after `steps` grids the exact value stands in. -/
def firstHit (m : Nat) (q : Int) : Nat → Int → Decimal
  | 0, _ => exact m q
  | steps + 1, p =>
      match (gridHit m q p).pick with
      | some n => ⟨n, p⟩
      | none => firstHit m q steps (p - 1)

/-- A power of ten that is not below the leading one of `m · 2 ^ q`:
`log10 2` lies below `30103 / 100000`. -/
def leadingBound (m : Nat) (q : Int) : Int :=
  (m.log2 + 1 + q) * 30103 / 100000 + 1

/-- The decimal with the fewest digits that reads back as `m · 2 ^ q`, and the
nearest of those. Seventeen digits always suffice; the first grids tried lie
above the value. -/
def shortest (m : Nat) (q : Int) : Decimal :=
  if m = 0 then ⟨0, 0⟩ else firstHit m q 24 (leadingBound m q)

end MatrixLang.Decimal
