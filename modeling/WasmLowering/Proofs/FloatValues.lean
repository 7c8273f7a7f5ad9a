import Mathlib
import WasmLowering.Ssa.Line

/-!
# Values of floats

A bit pattern of a binary format is split into a sign, an exponent field and a fraction field. It
stands for an exact rational number, for an infinity, or for no number at all. Comparisons of floats
are comparisons of these numbers.

Two facts about the numbers that a format has are proved: whole numbers with few significant bits
have the bit patterns that `FloatFormat.ofInt` gives, and from `2 ^ fractionBits` on there are no
numbers but whole ones.

## Key results

- `FloatFormat.number`: the number that a bit pattern stands for
- `FloatFormat.number_ofInt`: the bit patterns of whole numbers
- `FloatFormat.exists_int_of_le_abs`: large numbers are whole
- `FloatPredicate.holds`: comparisons of floats
-/

namespace WasmLowering.Ssa

namespace FloatFormat

variable (f : FloatFormat) (pattern : Nat)

/-! ## Fields -/

/-- The fraction field. -/
def fraction : Nat :=
  pattern % 2 ^ f.fractionBits

/-- The exponent field. -/
def exponent : Nat :=
  pattern / 2 ^ f.fractionBits % 2 ^ f.exponentBits

/-- Whether the sign bit is set. -/
def isNegative : Bool :=
  pattern / 2 ^ (f.exponentBits + f.fractionBits) % 2 = 1

/-- The fraction with the leading bit, which is implicit unless the exponent field is zero. -/
def significand : Nat :=
  f.fraction pattern + if f.exponent pattern = 0 then 0 else 2 ^ f.fractionBits

/-- The exponent that belongs to the last bit of the fraction. The exponent field zero stands for
    the same exponent as the field one. -/
def unitExponent : Int :=
  (max (f.exponent pattern) 1 : Nat) - f.bias - f.fractionBits

/-- The absolute value of a finite number. -/
def magnitude : ℚ :=
  f.significand pattern * 2 ^ f.unitExponent pattern

/-- The value of a finite number. -/
def finiteValue : ℚ :=
  if f.isNegative pattern then -f.magnitude pattern else f.magnitude pattern

/-- The number that a bit pattern stands for. The last exponent is that of the infinities, and of
    the patterns that are no number. -/
def number : Option (WithBotTop ℚ) :=
  if f.exponent pattern + 1 < 2 ^ f.exponentBits then some (f.finiteValue pattern)
  else if f.fraction pattern = 0 then some (if f.isNegative pattern then ⊥ else ⊤)
  else none

/-! ## Whole numbers -/

section Fields

variable {f} {e c : Nat} (negative : Bool) (he : e < 2 ^ f.exponentBits)
  (hc : c < 2 ^ f.fractionBits)

/-- The bit pattern with these fields. -/
def pack (f : FloatFormat) (negative : Bool) (e c : Nat) : Nat :=
  negative.toNat * 2 ^ (f.exponentBits + f.fractionBits) + e * 2 ^ f.fractionBits + c

/-- The fields of a bit pattern are the digits of a number. -/
private theorem pack_eq (f : FloatFormat) (e c : Nat) :
    f.pack negative e c =
      2 ^ f.fractionBits * (2 ^ f.exponentBits * negative.toNat + e) + c := by
  rw [pack, pow_add]
  ring

include hc in
private theorem fraction_pack : f.fraction (f.pack negative e c) = c := by
  rw [fraction, pack_eq, Nat.mul_add_mod, Nat.mod_eq_of_lt hc]

include hc in
private theorem pack_div :
    f.pack negative e c / 2 ^ f.fractionBits = 2 ^ f.exponentBits * negative.toNat + e := by
  rw [pack_eq, Nat.mul_add_div (by positivity), Nat.div_eq_of_lt hc, Nat.add_zero]

include he hc in
private theorem exponent_pack : f.exponent (f.pack negative e c) = e := by
  rw [exponent, pack_div negative hc, Nat.mul_add_mod, Nat.mod_eq_of_lt he]

include he hc in
/-- The sign is the first field. -/
private theorem isNegative_pack : f.isNegative (f.pack negative e c) = negative := by
  rw [isNegative, Nat.add_comm, pow_add, ← Nat.div_div_eq_div_mul, pack_div negative hc,
    Nat.mul_add_div (by positivity), Nat.div_eq_of_lt he]
  cases negative <;> rfl

include he hc in
/-- A bit pattern has as many bits as its fields together. -/
private theorem pack_lt : f.pack negative e c < 2 ^ (f.exponentBits + f.fractionBits + 1) := by
  have hlow : e * 2 ^ f.fractionBits + c < 2 ^ (f.exponentBits + f.fractionBits) := by
    calc e * 2 ^ f.fractionBits + c < (e + 1) * 2 ^ f.fractionBits := by linarith
      _ ≤ 2 ^ f.exponentBits * 2 ^ f.fractionBits := Nat.mul_le_mul_right _ he
      _ = 2 ^ (f.exponentBits + f.fractionBits) := (pow_add ..).symm
  have hhigh : negative.toNat * 2 ^ (f.exponentBits + f.fractionBits) ≤
      1 * 2 ^ (f.exponentBits + f.fractionBits) := Nat.mul_le_mul_right _ (Bool.toNat_le negative)
  rw [pack, pow_succ]
  omega

end Fields

section OfInt

variable {f} {n : Int} {e c : Nat}

/-- A whole number is exact in a format if it is a significand with the leading bit set, times a
    power of two that the format has. -/
structure Exact (f : FloatFormat) (n : Int) (e c : Nat) : Prop where
  exponentBits : 1 < f.exponentBits
  exponent : e ≤ f.bias
  fraction : c < 2 ^ f.fractionBits
  scaled : n.natAbs * 2 ^ f.fractionBits = (2 ^ f.fractionBits + c) * 2 ^ e

/-- The exponent is that of the leading bit. -/
theorem Exact.natAbs_bounds (h : f.Exact n e c) : 2 ^ e ≤ n.natAbs ∧ n.natAbs < 2 ^ (e + 1) := by
  have hunit : 0 < 2 ^ f.fractionBits := by positivity
  have hpower : 0 < 2 ^ e := by positivity
  have hscaled := h.scaled
  have hc := h.fraction
  constructor
  -- The significand is at least the leading bit.
  · refine Nat.le_of_mul_le_mul_right ?_ hunit
    rw [hscaled]
    nlinarith
  -- It is less than twice the leading bit.
  · refine Nat.lt_of_mul_lt_mul_right (a := 2 ^ f.fractionBits) ?_
    rw [hscaled, pow_succ]
    nlinarith

/-- The binary logarithm is the exponent. -/
theorem Exact.log2_natAbs (h : f.Exact n e c) : n.natAbs.log2 = e := by
  obtain ⟨hle, hlt⟩ := h.natAbs_bounds
  have hne : n.natAbs ≠ 0 := by
    have : 0 < 2 ^ e := by positivity
    omega
  exact (Nat.log2_eq_iff hne).2 ⟨hle, hlt⟩

/-- The leading bit is set, so the number is not zero. -/
theorem Exact.ne_zero (h : f.Exact n e c) : n ≠ 0 := by
  rintro rfl
  have hle := h.natAbs_bounds.1
  have : 0 < 2 ^ e := by positivity
  simp at hle

/-- The exponent field has room for the exponents up to the bias. -/
theorem Exact.field_lt (h : f.Exact n e c) : e + f.bias + 1 < 2 ^ f.exponentBits := by
  have hdouble : 2 ^ f.exponentBits = 2 * 2 ^ (f.exponentBits - 1) := by
    rw [← pow_succ', Nat.sub_add_cancel (Nat.le_of_lt h.exponentBits)]
  have hpos : 0 < 2 ^ (f.exponentBits - 1) := by positivity
  have hbias : f.bias = 2 ^ (f.exponentBits - 1) - 1 := rfl
  have he := h.exponent
  omega

/-- A whole number is packed from its sign, its exponent and its fraction. -/
theorem Exact.ofInt_eq (h : f.Exact n e c) : f.ofInt n = f.pack (n < 0) (e + f.bias) c := by
  have hpower : 0 < 2 ^ e := by positivity
  -- What follows the leading bit fills the fraction field.
  have hfraction : (n.natAbs - 2 ^ e) * 2 ^ f.fractionBits / 2 ^ e = c := by
    refine Nat.div_eq_of_eq_mul_left hpower ?_
    rw [Nat.sub_mul, h.scaled, Nat.add_mul, Nat.mul_comm (2 ^ e), Nat.add_sub_cancel_left]
  simp only [ofInt, h.ne_zero, h.log2_natAbs, if_false, Nat.pow_eq, hfraction, pack]
  by_cases hneg : n < 0 <;> simp [hneg]

theorem Exact.bias_pos (h : f.Exact n e c) : 0 < f.bias :=
  Nat.sub_pos_of_lt (Nat.one_lt_two_pow (Nat.sub_ne_zero_of_lt h.exponentBits))

theorem Exact.exponent_ofInt (h : f.Exact n e c) : f.exponent (f.ofInt n) = e + f.bias := by
  rw [h.ofInt_eq, exponent_pack _ (Nat.lt_of_succ_lt h.field_lt) h.fraction]

/-- The magnitude is the absolute value. -/
theorem Exact.magnitude_ofInt (h : f.Exact n e c) : f.magnitude (f.ofInt n) = n.natAbs := by
  have hbias := h.bias_pos
  have hexponent := h.exponent_ofInt
  -- The exponent field is not zero, so the leading bit is implicit.
  have hsignificand : f.significand (f.ofInt n) = c + 2 ^ f.fractionBits := by
    rw [significand, hexponent, if_neg (by omega), h.ofInt_eq, fraction_pack _ h.fraction]
  have hunit : f.unitExponent (f.ofInt n) = e - f.fractionBits := by
    rw [unitExponent, hexponent, Nat.max_eq_left (by omega)]
    push_cast
    ring
  have hscaled : (n.natAbs : ℚ) * 2 ^ f.fractionBits = (2 ^ f.fractionBits + c) * 2 ^ e := by
    exact_mod_cast h.scaled
  rw [magnitude, hsignificand, hunit, zpow_sub₀ two_ne_zero, zpow_natCast, zpow_natCast,
    ← mul_div_assoc, div_eq_iff (by positivity), hscaled]
  push_cast
  ring

/-- The bit pattern of a whole number that is exact in the format stands for this number. -/
theorem number_ofInt (h : f.Exact n e c) :
    f.number (f.ofInt n) = some ((n : ℚ) : WithBotTop ℚ) := by
  have hfield := h.field_lt
  have hvalue : f.finiteValue (f.ofInt n) = n := by
    have hnegative : f.isNegative (f.ofInt n) = decide (n < 0) := by
      rw [h.ofInt_eq, isNegative_pack _ (Nat.lt_of_succ_lt hfield) h.fraction]
    rw [finiteValue, hnegative, h.magnitude_ofInt]
    by_cases hneg : n < 0
    · simp [hneg, Nat.cast_natAbs, abs_of_neg hneg]
    · simp [hneg, Nat.cast_natAbs, abs_of_nonneg (not_lt.1 hneg)]
  rw [number, h.exponent_ofInt, if_pos hfield, hvalue]

theorem Exact.ofInt_lt (h : f.Exact n e c) :
    f.ofInt n < 2 ^ (f.exponentBits + f.fractionBits + 1) :=
  h.ofInt_eq ▸ pack_lt _ (Nat.lt_of_succ_lt h.field_lt) h.fraction

end OfInt

/-! ## Gaps -/

section Gaps

variable {f pattern}

/-- A significand has one bit more than the fraction. -/
private theorem significand_lt : f.significand pattern < 2 ^ (f.fractionBits + 1) := by
  have hfraction : f.fraction pattern < 2 ^ f.fractionBits := Nat.mod_lt _ (by positivity)
  rw [significand, pow_succ]
  split <;> omega

/-- The sign does not change the magnitude. -/
private theorem abs_finiteValue : |f.finiteValue pattern| = f.magnitude pattern := by
  have hpos : 0 ≤ f.magnitude pattern := by
    unfold magnitude
    positivity
  unfold finiteValue
  split <;> simp [abs_of_nonneg hpos]

/-- Where the numbers of a format are as large as its significands without the fraction, they are
    whole. -/
theorem exists_int_of_le_abs (h : 2 ^ f.fractionBits ≤ |f.finiteValue pattern|) :
    ∃ n : Int, f.finiteValue pattern = n := by
  rw [abs_finiteValue, magnitude] at h
  -- The last bit of the fraction counts one at least, or the number would be smaller.
  have hunit : 0 ≤ f.unitExponent pattern := by
    by_contra hneg
    have hle : (2 : ℚ) ^ f.unitExponent pattern ≤ 2 ^ (-1 : Int) :=
      zpow_le_zpow_right₀ (by norm_num) (by omega)
    have hsig : (f.significand pattern : ℚ) < 2 ^ (f.fractionBits + 1) := by
      exact_mod_cast significand_lt
    have hpos : (0 : ℚ) < 2 ^ f.unitExponent pattern := by positivity
    rw [pow_succ] at hsig
    norm_num at hle
    nlinarith
  obtain ⟨k, hk⟩ := Int.eq_ofNat_of_zero_le hunit
  have hwhole : f.magnitude pattern = ((f.significand pattern * 2 ^ k : Nat) : Int) := by
    rw [magnitude, hk]
    push_cast
    rw [zpow_natCast]
  unfold finiteValue
  split
  · exact ⟨-(f.significand pattern * 2 ^ k : Nat), by rw [hwhole]; push_cast; rfl⟩
  · exact ⟨_, hwhole⟩

end Gaps

end FloatFormat

/-! ## Comparisons -/

/-- Whether two numbers compare as a predicate says. -/
def FloatPredicate.compares (x y : WithBotTop ℚ) : FloatPredicate → Bool
  | oeq => x = y
  | une => x ≠ y
  | olt => x < y
  | ogt => y < x
  | ole => x ≤ y
  | oge => y ≤ x

/-- Whether a comparison of two floats holds. Without a number on both sides, only `une` does. -/
def FloatPredicate.holds (predicate : FloatPredicate) :
    Option (WithBotTop ℚ) → Option (WithBotTop ℚ) → Bool
  | some x, some y => predicate.compares x y
  | _, _ => predicate = .une

end WasmLowering.Ssa
