import Mathlib
import MatrixLang.Double

/-!
# Whole parts

The whole part of a double is made by clearing bits of its pattern. The pattern of a
number is the one that it is made from (`Double.toBits_ofBits`), so that what is cleared
is the fraction: the bits from the exponent on are the same, and those of the significand
are divided by the weight of the point (`Double.truncated_cleared`). So the number that
an integer tensor gives for what it stores is the whole part of what was written
(`wholeNumber_wholePart`).

A float that the runtime calls finite is read as a number, with the sign of its pattern
(`Double.ofFloat_of_isFinite`).
-/

namespace MatrixLang

namespace Double

open Float.Model (UnpackedFloat)
open Float.Model.UnpackedFloat (isNaNBits unpackExponent)

/-! ## Patterns -/

theorem toNat_unpackExponent (b : BitVec 64) :
    (@unpackExponent .binary64 b).toNat = exponentField b.toNat := by
  have hshift : (@unpackExponent .binary64 b).toNat = b.toNat >>> 52 % 2048 := rfl
  rw [hshift, Nat.shiftRight_eq_div_pow]
  rfl

theorem isNaNBits_eq_false {b : BitVec 64} (h : exponentField b.toNat ≠ 2047) :
    @isNaNBits .binary64 b = false := by
  rw [← toNat_unpackExponent] at h
  refine decide_eq_false fun hnan => h ?_
  rw [hnan.1]
  rfl

/-- A pattern that is none of a NaN or an infinity is the pattern of its double. -/
theorem toBits_ofBits {b : UInt64} (h : exponentField b.toNat ≠ 2047) :
    (Float.ofBits b).toBits = b := by
  have hpack := @UnpackedFloat.pack_unpack .binary64 b.toBitVec (by decide)
  rw [isNaNBits_eq_false h] at hpack
  exact UInt64.toBitVec_inj.mp hpack

theorem ofFloat_ofBits {n : Nat} (hn : n < 2 ^ 64) (h : exponentField n ≠ 2047) :
    ofFloat (Float.ofBits (.ofNat n)) = ofBits n := by
  have hpattern : (UInt64.ofNat n).toNat = n := UInt64.toNat_ofNat_of_lt' hn
  rw [ofFloat, toBits_ofBits (by rwa [hpattern]), hpattern]

/-! ## Finite floats -/

/-- A finite float does not have all bits in its exponent. -/
theorem exponentField_of_isFinite {x : Float} (h : x.isFinite = true) :
    exponentField x.toBits.toNat ≠ 2047 := by
  intro hfield
  have hexponent : @unpackExponent .binary64 x.toBits.toBitVec = -1#11 :=
    BitVec.eq_of_toNat_eq ((toNat_unpackExponent _).trans hfield)
  have hunpack : (UnpackedFloat.unpack .binary64 x.toBits.toBitVec).isFinite = true := h
  rw [UnpackedFloat.unpack, if_pos hexponent] at hunpack
  split at hunpack <;> cases hunpack

/-- The number behind a finite float is negative if the sign of its pattern is set. -/
theorem ofFloat_of_isFinite {x : Float} (h : x.isFinite = true) :
    ∃ m q, ofFloat x = .finite (decide (signWeight ≤ x.toBits.toNat)) m q := by
  rw [ofFloat, ofBits]
  simp only [if_neg (exponentField_of_isFinite h)]
  split <;> exact ⟨_, _, rfl⟩

/-! ## Whole parts -/

/-- With some of its lowest bits cleared a pattern has the same sign and exponent, and
the fraction without them. -/
theorem cleared_fields {unit scale : Nat} (n : Nat) (hunit : unit * scale = hiddenBit) :
    n / unit * unit / hiddenBit = n / hiddenBit
      ∧ n / unit * unit % hiddenBit = n % hiddenBit / unit * unit := by
  have hpos : 0 < unit := Nat.pos_of_mul_pos_right (by rw [hunit]; decide)
  have hsplit : n / unit = scale * (n / hiddenBit) + n % hiddenBit / unit := by
    calc n / unit = (unit * (scale * (n / hiddenBit)) + n % hiddenBit) / unit := by
          rw [← Nat.mul_assoc, hunit, Nat.div_add_mod]
      _ = scale * (n / hiddenBit) + n % hiddenBit / unit := Nat.mul_add_div hpos _ _
  have hfraction : n % hiddenBit / unit * unit < hiddenBit :=
    Nat.lt_of_le_of_lt (Nat.div_mul_le_self _ _) (Nat.mod_lt n (by decide))
  have hn : n / unit * unit = hiddenBit * (n / hiddenBit) + n % hiddenBit / unit * unit := by
    rw [hsplit, Nat.add_mul, Nat.mul_comm, ← Nat.mul_assoc, hunit]
  rw [hn, Nat.mul_add_div (by decide), Nat.mul_add_mod, Nat.div_eq_of_lt hfraction,
    Nat.mod_eq_of_lt hfraction, Nat.add_zero]
  exact ⟨rfl, rfl⟩

/-- The sign is above the fraction. -/
theorem signWeight_le_iff (n : Nat) : signWeight ≤ n ↔ 2048 ≤ n / hiddenBit := by
  rw [Nat.le_div_iff_mul_le (by decide)]
  rfl

/-- Nothing is left of a double whose bits all stand below the point. -/
theorem truncated_small {n : Nat} (h : exponentField n < 1023) (bound : Nat) :
    (ofBits n).truncated bound = 0 := by
  have hfraction : n % hiddenBit < hiddenBit := Nat.mod_lt n (by decide)
  have hzero : ∀ {negative : Bool} {m k : Nat} {q : Int}, q.toNat = 0 → (-q).toNat = k →
      53 ≤ k → m < 2 ^ 53 → (Double.finite negative m q).truncated bound = 0 := by
    intro negative m k q hq hk hfew hm
    have hlt : m < 2 ^ k := Nat.lt_of_lt_of_le hm (Nat.pow_le_pow_right (by decide) hfew)
    have hwhole : m * Nat.pow 2 q.toNat / Nat.pow 2 (-q).toNat = 0 := by
      rw [hq, hk]
      exact Nat.div_eq_of_lt (by simpa using hlt)
    simp only [truncated, hwhole]
    split <;> rfl
  have hhidden : hiddenBit = 2 ^ 52 := rfl
  simp only [ofBits]
  rw [if_neg (by omega)]
  split
  · exact hzero (k := 1074) rfl rfl (by decide) (by omega)
  · exact hzero (k := 1075 - exponentField n) (by omega) (by omega) (by omega) (by omega)

section Cleared

variable {n : Nat} (hlow : 1023 ≤ exponentField n) (hhigh : exponentField n < 1075)

include hlow hhigh

/-- The point of such a double stands within its fraction. -/
theorem point_in_fraction :
    2 ^ (1075 - exponentField n) * 2 ^ (exponentField n - 1023) = hiddenBit := by
  rw [← Nat.pow_add]
  exact congrArg (2 ^ ·) (show _ = 52 by omega)

theorem exponentField_cleared :
    exponentField (n / 2 ^ (1075 - exponentField n) * 2 ^ (1075 - exponentField n))
      = exponentField n :=
  congrArg (· % 2048) (cleared_fields n (point_in_fraction hlow hhigh)).1

/-- The bits that are cleared stand below the point. -/
theorem truncated_cleared (bound : Nat) :
    (ofBits (n / 2 ^ (1075 - exponentField n) * 2 ^ (1075 - exponentField n))).truncated bound
      = (ofBits n).truncated bound := by
  have hunit := point_in_fraction hlow hhigh
  have hexponent := exponentField_cleared hlow hhigh
  have hpos : 0 < 2 ^ (1075 - exponentField n) := Nat.two_pow_pos _
  generalize hu : 2 ^ (1075 - exponentField n) = unit at hunit hexponent hpos ⊢
  obtain ⟨hfields, hfraction⟩ := cleared_fields n hunit
  have hwhole : (hiddenBit + n % hiddenBit / unit * unit) / unit
      = (hiddenBit + n % hiddenBit) / unit := by
    rw [← hunit, Nat.mul_add_div hpos, Nat.mul_add_div hpos, Nat.mul_div_cancel _ hpos]
  simp only [ofBits, signWeight_le_iff, hfields, hexponent, hfraction]
  rw [if_neg (by omega), if_neg (by omega), if_neg (by omega), if_neg (by omega)]
  have hq : ((exponentField n : Int) - 1075).toNat = 0 := by omega
  have hk : (-((exponentField n : Int) - 1075)).toNat = 1075 - exponentField n := by omega
  simp only [truncated, hq, hk, Nat.pow_eq, hu, Nat.pow_zero, Nat.mul_one, hwhole]

end Cleared

/-- A zero is what is left where all bits but the sign are cleared. -/
theorem exponentField_sign (n : Nat) : exponentField (n / signWeight * signWeight) = 0 := by
  have hfields : n / signWeight * signWeight / hiddenBit = n / signWeight * 2048 := by
    rw [show signWeight = 2048 * hiddenBit from rfl, ← Nat.mul_assoc]
    exact Nat.mul_div_cancel _ (by decide)
  rw [exponentField, hfields, Nat.mul_mod_left]

end Double

/-- The number of a double is that of its whole part. -/
theorem wholeNumber_wholePart (x : Float) : wholeNumber (wholePart x) = wholeNumber x := by
  refine congrArg saturated ?_
  have hlt : x.toBits.toNat < 2 ^ 64 := UInt64.toNat_lt _
  have hcleared : ∀ unit : Nat, x.toBits.toNat / unit * unit < 2 ^ 64 := fun unit =>
    Nat.lt_of_le_of_lt (Nat.div_mul_le_self _ unit) hlt
  generalize 2 * Double.signWeight = bound
  simp only [wholePart]
  split
  · rename_i hsmall
    have hzero := Double.exponentField_sign x.toBits.toNat
    rw [Double.ofFloat_ofBits (hcleared _) (by omega), Double.truncated_small (by omega),
      Double.ofFloat, Double.truncated_small hsmall]
  · split
    · rfl
    · have hlow : 1023 ≤ Double.exponentField x.toBits.toNat := by omega
      have hhigh : Double.exponentField x.toBits.toNat < 1075 := by omega
      have hfield := Double.exponentField_cleared hlow hhigh
      simp only [Nat.pow_eq]
      rw [Double.ofFloat_ofBits (hcleared _) (by omega), Double.truncated_cleared hlow hhigh,
        Double.ofFloat]

end MatrixLang
