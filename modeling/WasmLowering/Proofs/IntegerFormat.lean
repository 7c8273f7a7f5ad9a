import WasmLowering.Proofs.ModuleFormat

/-!
# The encoding of integers

An integer of a type is written in groups of seven bits. The readers accept exactly the encodings
with no more groups than the type can need, whose groups stand for an integer of the type, and give
this integer, whatever follows. In particular they read back what is written in the shortest way,
by shifting a word until nothing but its sign is left.

## Key results

- `unsignedForm_iff`, `signedForm_iff`: the forms of an integer, described by their bytes
- `ofWord_eq`, `ofSignedWord_eq`: shifting gives the shortest forms
- `IntegerType.read_run`, `IntegerType.read_fault`: the readers accept these forms and no others
-/

namespace WasmLowering

/-! ## Groups -/

/-- All bytes but the last one say that another group follows. -/
structure Grouped (bytes : Bytes) : Prop where
  more : ∀ b ∈ bytes.dropLast, 128 ≤ b.toNat
  last : ∃ b, bytes.getLast? = some b ∧ b.toNat < 128

/-- There is at least one group. -/
theorem Grouped.ne_nil {bytes : Bytes} (h : Grouped bytes) : bytes ≠ [] := by
  rintro rfl
  obtain ⟨b, hb, -⟩ := h.last
  cases hb

private theorem grouped_single {b : UInt8} : Grouped [b] ↔ b.toNat < 128 :=
  ⟨fun h => by simpa using h.last, fun h => ⟨by simp, b, rfl, h⟩⟩

/-- The first of several groups says that another one follows. -/
private theorem grouped_cons {b : UInt8} {bytes : Bytes} (hne : bytes ≠ []) :
    Grouped (b :: bytes) ↔ 128 ≤ b.toNat ∧ Grouped bytes := by
  obtain ⟨c, tail, rfl⟩ := List.exists_cons_of_ne_nil hne
  -- The last byte is that of the other groups.
  constructor
  · intro h
    refine ⟨h.more b (by simp), fun d hd => h.more d ?_, by simpa using h.last⟩
    rw [List.dropLast_cons_cons]
    exact List.mem_cons_of_mem b hd
  · rintro ⟨hb, more, last⟩
    refine ⟨?_, by simpa using last⟩
    rw [List.dropLast_cons_cons]
    exact List.forall_mem_cons.2 ⟨hb, more⟩

/-- The natural number with the lower seven bits of the bytes as its groups, the lowest first. -/
def groupsValue (bytes : Bytes) : Nat :=
  Nat.ofDigits 128 (bytes.map (·.toNat % 128))

/-- The two's complement number of the groups. -/
def groupsSigned (bytes : Bytes) : Int :=
  (BitVec.ofNat (7 * bytes.length) (groupsValue bytes)).toInt

private theorem groupsValue_cons (b : UInt8) (bytes : Bytes) :
    groupsValue (b :: bytes) = b.toNat % 128 + 128 * groupsValue bytes := by
  simp [groupsValue, Nat.ofDigits_cons]

private theorem groupsValue_single (b : UInt8) : groupsValue [b] = b.toNat % 128 := by
  simp [groupsValue]

/-- A single group has its sign at the bit of 64. -/
private theorem groupsSigned_single {b : UInt8} (hb : b.toNat < 128) :
    groupsSigned [b] = if b.toNat < 64 then (b.toNat : Int) else b.toNat - 128 := by
  unfold groupsSigned
  rw [groupsValue_single, Nat.mod_eq_of_lt hb, ← BitVec.ofInt_natCast, BitVec.toInt_ofInt]
  show Int.bmod b.toNat 128 = _
  split
  · exact Int.bmod_eq_of_le_mul_two (by omega) (by omega)
  · rw [show (b.toNat : Int) = b.toNat - 128 + (128 : Nat) * 1 by omega,
      Int.add_mul_bmod_self_left, Int.bmod_eq_of_le_mul_two (by omega) (by omega)]
    omega

/-- The lowest of several groups. -/
private theorem groupsSigned_cons {b : UInt8} {bytes : Bytes} (hne : bytes ≠ []) :
    groupsSigned (b :: bytes) = (b.toNat % 128 : Nat) + 128 * groupsSigned bytes := by
  -- With the groups above there are `2 * k` integers, those from `-k` to `k - 1`.
  obtain ⟨k, hk⟩ : ∃ k, 2 ^ (7 * bytes.length) = 2 * k := by
    have := List.length_pos_iff.2 hne
    exact ⟨2 ^ (7 * bytes.length - 1), (mul_pow_sub_one (by omega) 2).symm⟩
  have hlength : 2 ^ (7 * (b :: bytes).length) = 2 * (128 * k) := by
    rw [List.length_cons, Nat.mul_succ, Nat.pow_add, hk]
    omega
  have hpos : 0 < 2 ^ (7 * bytes.length) := Nat.two_pow_pos _
  have hmod := Int.bmod_add_bdiv (groupsValue bytes) (2 ^ (7 * bytes.length))
  have hlow := @Int.le_bmod (groupsValue bytes) _ hpos
  have hhigh := @Int.bmod_lt (groupsValue bytes) _ hpos
  unfold groupsSigned
  rw [← BitVec.ofInt_natCast, BitVec.toInt_ofInt, ← BitVec.ofInt_natCast, BitVec.toInt_ofInt,
    groupsValue_cons, hlength]
  rw [hk] at hmod hlow hhigh ⊢
  generalize Int.bmod (groupsValue bytes) (2 * k) = r at hmod hlow hhigh ⊢
  generalize Int.bdiv (groupsValue bytes) (2 * k) = q at hmod
  -- The two sides differ by a multiple of the number of integers, and both are in range.
  have hsum : ((b.toNat % 128 + 128 * groupsValue bytes : Nat) : Int) =
      (b.toNat % 128 : Nat) + 128 * r + (2 * (128 * k) : Nat) * q := by
    push_cast at hmod ⊢
    rw [← hmod]
    ring
  rw [hsum, Int.add_mul_bmod_self_left]
  exact Int.bmod_eq_of_le_mul_two (by omega) (by omega)

/-! ## Forms by their bytes -/

/-- The forms of a natural number are its groups, no more of them than the width needs. -/
theorem unsignedForm_iff {width n : Nat} {bytes : Bytes} (hpos : 0 < width) :
    UnsignedForm width n bytes ↔
      Grouped bytes ∧ bytes.length ≤ (width + 6) / 7 ∧ n = groupsValue bytes ∧ n < 2 ^ width := by
  -- Along the bytes; the first byte is the last group, or 7 bits fewer are left for the others.
  induction bytes generalizing width n with
  | nil => exact ⟨fun h => (by cases h), fun h => absurd rfl h.1.ne_nil⟩
  | cons b bytes ih =>
    by_cases hne : bytes = []
    · subst hne
      rw [grouped_single, groupsValue_single, List.length_singleton]
      constructor
      -- A single group is the last one.
      · intro h
        cases h with
        | last _ group fits => exact ⟨group, by omega, (Nat.mod_eq_of_lt group).symm, fits⟩
        | more _ group fits rest => cases rest
      · rintro ⟨group, -, rfl, fits⟩
        rw [Nat.mod_eq_of_lt group] at fits ⊢
        exact .last b group fits
    · have hlength := List.length_pos_iff.2 hne
      have hb := b.toNat_lt
      rw [grouped_cons hne, groupsValue_cons, List.length_cons]
      constructor
      · intro h
        have hlt := h.lt
        cases h with
        | last => exact absurd rfl hne
        | more _ group fits rest =>
          obtain ⟨hgrouped, hsize, rfl, -⟩ := (ih (by omega)).1 rest
          exact ⟨⟨group, hgrouped⟩, by omega, by omega, hlt⟩
      · rintro ⟨⟨group, hgrouped⟩, hsize, rfl, hlt⟩
        -- With more than one byte allowed there is room above the first group.
        have fits : 7 < width := by omega
        have hpow := two_pow_group fits.le
        have form := (@ih (width - 7) (groupsValue bytes) (by omega)).2
          ⟨hgrouped, by omega, rfl, by omega⟩
        have := UnsignedForm.more b group fits form
        rwa [show b.toNat - 128 = b.toNat % 128 by omega] at this

/-- The forms of an integer are its groups, no more of them than the width needs. -/
theorem signedForm_iff {width : Nat} {n : Int} {bytes : Bytes} (hpos : 0 < width) :
    SignedForm width n bytes ↔ Grouped bytes ∧ bytes.length ≤ (width + 6) / 7 ∧
      n = groupsSigned bytes ∧ -2 ^ (width - 1) ≤ n ∧ n < 2 ^ (width - 1) := by
  -- As for natural numbers, but the last group has the sign.
  induction bytes generalizing width n with
  | nil => exact ⟨fun h => (by cases h), fun h => absurd rfl h.1.ne_nil⟩
  | cons b bytes ih =>
    by_cases hne : bytes = []
    · subst hne
      rw [grouped_single, List.length_singleton]
      constructor
      · intro h
        have hrange := h.range hpos
        cases h with
        | lastNonneg _ group fits =>
          refine ⟨by omega, by omega, ?_, hrange⟩
          rw [groupsSigned_single (by omega), if_pos group]
        | lastNeg _ group fits =>
          refine ⟨group.2, by omega, ?_, hrange⟩
          rw [groupsSigned_single group.2, if_neg (by omega)]
        | more _ group fits rest => cases rest
      · rintro ⟨group, -, rfl, low, high⟩
        rw [groupsSigned_single group] at low high ⊢
        -- The sign of a single group is its bit of 64.
        split at low
        · next hsign =>
          rw [if_pos hsign] at high ⊢
          exact .lastNonneg b hsign (by exact_mod_cast high)
        · next hsign =>
          rw [if_neg hsign]
          have : (128 : Int) ≤ b.toNat + 2 ^ (width - 1) := by omega
          exact .lastNeg b ⟨by omega, group⟩ (by exact_mod_cast this)
    · have hlength := List.length_pos_iff.2 hne
      have hb := b.toNat_lt
      rw [grouped_cons hne, groupsSigned_cons hne, List.length_cons]
      constructor
      · intro h
        have hrange := h.range hpos
        cases h with
        | lastNonneg | lastNeg => exact absurd rfl hne
        -- The sign is in the groups above the first one.
        | more _ group fits rest =>
          obtain ⟨hgrouped, hsize, rfl, -⟩ := (ih (by omega)).1 rest
          exact ⟨⟨group, hgrouped⟩, by omega, by omega, hrange⟩
      · rintro ⟨⟨group, hgrouped⟩, hsize, rfl, hrange⟩
        have fits : 7 < width := by omega
        have hpow := two_pow_sign_group fits
        have form := (@ih (width - 7) (groupsSigned bytes) (by omega)).2
          ⟨hgrouped, by omega, rfl, by omega, by omega⟩
        have := SignedForm.more b group fits form
        rwa [show (b.toNat : Int) - 128 = (b.toNat % 128 : Nat) by omega] at this

/-! ## Writing by shifts -/

namespace Bytes

/-- The lowest group of a word. -/
def lowGroup (x : BitVec 64) : UInt8 :=
  .ofBitVec (x.setWidth 8) &&& 0x7F

/-- The lowest group has seven bits. -/
private theorem toNat_lowGroup (x : BitVec 64) : (lowGroup x).toNat = x.toNat % 128 := by
  unfold lowGroup
  rw [UInt8.toNat_and, UInt8.toNat_ofBitVec, BitVec.toNat_setWidth]
  refine (Nat.and_two_pow_sub_one_eq_mod _ 7).trans ?_
  omega

/-- The lowest group does not depend on how the word is read. -/
private theorem toNat_lowGroup_signed (x : BitVec 64) :
    (lowGroup x).toNat = (x.toInt % 128).toNat := by
  rw [toNat_lowGroup, BitVec.toInt_eq_toNat_cond]
  split <;> omega

/-- The highest bit of a byte is its bit of 128. -/
private theorem toNat_or_high {b : UInt8} (h : b.toNat < 128) :
    (b ||| 0x80).toNat = b.toNat + 128 := by
  have hdisjoint := Nat.two_pow_add_eq_or_of_lt (show b.toNat < 2 ^ 7 from h) 1
  rw [UInt8.toNat_or, Nat.or_comm]
  exact hdisjoint.symm.trans (Nat.add_comm _ _)

private theorem toNat_ushiftRight_group (x : BitVec 64) : (x >>> 7).toNat = x.toNat / 128 := by
  rw [BitVec.toNat_ushiftRight, Nat.shiftRight_eq_div_pow]

/-- A shift with copies of the sign takes the lowest group off. -/
private theorem toInt_sshiftRight_group (x : BitVec 64) :
    (x.sshiftRight 7).toInt = x.toInt / 128 := by
  rw [BitVec.toInt_sshiftRight, Int.shiftRight_eq_div_pow]
  rfl

/-- The groups of a word, until only zeros are left. -/
def ofWord (x : BitVec 64) : Bytes :=
  if x >>> 7 = 0 then [lowGroup x] else (lowGroup x ||| 0x80) :: ofWord (x >>> 7)
termination_by x.toNat
decreasing_by
  have hne : (x >>> 7).toNat ≠ 0 := fun h => ‹¬x >>> 7 = 0› (BitVec.eq_of_toNat_eq h)
  rw [toNat_ushiftRight_group] at hne ⊢
  omega

/-- Whether what is left of a word only repeats the sign of its lowest group. -/
def isExtension (x : BitVec 64) : Bool :=
  x.sshiftRight 7 == 0 && lowGroup x &&& 0x40 == 0 ||
    x.sshiftRight 7 == -1 && lowGroup x &&& 0x40 != 0

/-- The bit of 64 in the lowest group. -/
private theorem lowGroup_sign (x : BitVec 64) :
    (lowGroup x &&& 0x40 == 0) = decide (x.toInt % 128 < 64) := by
  -- A fact about 128 groups.
  have hall : ∀ b : UInt8, b.toNat < 128 → (b &&& 0x40 == 0) = decide (b.toNat < 64) := by
    decide +kernel
  have hgroup := toNat_lowGroup_signed x
  rw [hall _ (by omega)]
  exact decide_eq_decide.2 (by omega)

/-- Only the sign is left of an integer of one group. -/
private theorem isExtension_iff {x : BitVec 64} :
    isExtension x = true ↔ -64 ≤ x.toInt ∧ x.toInt < 64 := by
  -- Nothing but zeros or nothing but ones is left.
  have hzero : x.sshiftRight 7 = 0 ↔ x.toInt / 128 = 0 := by
    rw [← BitVec.toInt_inj, toInt_sshiftRight_group]
    rfl
  have hones : x.sshiftRight 7 = -1 ↔ x.toInt / 128 = -1 := by
    rw [← BitVec.toInt_inj, toInt_sshiftRight_group]
    rfl
  unfold isExtension
  simp only [bne, lowGroup_sign, Bool.or_eq_true, Bool.and_eq_true, beq_iff_eq, hzero, hones,
    decide_eq_true_eq, Bool.not_eq_true', decide_eq_false_iff_not]
  omega

/-- The groups of a word in two's complement, until only copies of the sign are left. -/
def ofSignedWord (x : BitVec 64) : Bytes :=
  if isExtension x then [lowGroup x] else (lowGroup x ||| 0x80) :: ofSignedWord (x.sshiftRight 7)
termination_by x.toInt.natAbs
decreasing_by
  have hmore : ¬(-64 ≤ x.toInt ∧ x.toInt < 64) :=
    fun h => ‹¬isExtension x = true› (isExtension_iff.2 h)
  rw [toInt_sshiftRight_group]
  omega

private theorem eq_ofNat_byte {b : UInt8} {n : Nat} (h : b.toNat = n) : b = UInt8.ofNat n := by
  rw [← h, UInt8.ofNat_toNat]

/-- Shifting gives the shortest form of a natural number. -/
theorem ofWord_eq (x : BitVec 64) : ofWord x = ofUnsigned x.toNat := by
  have hgroup := toNat_lowGroup
  fun_induction ofWord x with
  | case1 x hlast =>
    have hsmall : x.toNat / 128 = 0 := by
      rw [← toNat_ushiftRight_group, hlast]
      rfl
    rw [ofUnsigned, if_pos (by omega), eq_ofNat_byte (hgroup x), Nat.mod_eq_of_lt (by omega)]
  | case2 x hmore ih =>
    have hlarge : x.toNat / 128 ≠ 0 := by
      rw [← toNat_ushiftRight_group]
      exact fun h => hmore (BitVec.eq_of_toNat_eq h)
    have hbyte := toNat_or_high (show (lowGroup x).toNat < 128 by rw [hgroup]; omega)
    rw [hgroup] at hbyte
    rw [ofUnsigned, if_neg (by omega), ih, toNat_ushiftRight_group, eq_ofNat_byte hbyte]

/-- Shifting with copies of the sign gives the shortest form of an integer. -/
theorem ofSignedWord_eq (x : BitVec 64) : ofSignedWord x = ofSigned x.toInt := by
  have hgroup := toNat_lowGroup_signed
  fun_induction ofSignedWord x with
  | case1 x hlast => rw [ofSigned, if_pos (isExtension_iff.1 hlast), eq_ofNat_byte (hgroup x)]
  | case2 x hmore ih =>
    have hbyte := toNat_or_high (show (lowGroup x).toNat < 128 by rw [hgroup]; omega)
    rw [hgroup] at hbyte
    rw [ofSigned, if_neg (fun h => hmore (isExtension_iff.2 h)), ih, toInt_sshiftRight_group,
      eq_ofNat_byte hbyte]

end Bytes

/-! ## The types of integers -/

/-- A change of the value that is read does not change what is read. -/
theorem Decoder.run_bind_pure_iff {α β : Type} {d : Decoder α} {g : α → β} {b : β}
    {input rest : Bytes} :
    (do return g (← d) : Decoder β).run input = (.ok b, rest) ↔
      ∃ a, d.run input = (.ok a, rest) ∧ g a = b := by
  constructor
  · intro h
    obtain ⟨a, ha, hb⟩ := run_bind_pure_eq_ok h
    exact ⟨a, ha, hb.symm⟩
  · rintro ⟨a, ha, rfl⟩
    exact run_bind_ok ha

/-- A natural number that is read fits its width. -/
private theorem unsigned_lt {width m : Nat} {input rest : Bytes}
    (h : (Decoder.unsigned width).run input = (.ok m, rest)) : m < 2 ^ width := by
  obtain ⟨w, -, rfl⟩ := Decoder.run_bind_pure_iff.1 h
  exact w.isLt

/-- An integer that is read fits its width. -/
private theorem signed_range {width : Nat} {m : Int} {input rest : Bytes}
    (h : (Decoder.signed width).run input = (.ok m, rest)) :
    -2 ^ (width - 1) ≤ m ∧ m < 2 ^ (width - 1) := by
  obtain ⟨w, -, rfl⟩ := Decoder.run_bind_pure_iff.1 h
  exact ⟨w.le_toInt, w.toInt_lt⟩

/-- The types of the integers that are read. -/
inductive IntegerType where
  | u8
  | u32
  | u64
  | s32
  | s64
deriving DecidableEq, Repr

namespace IntegerType

def width : IntegerType → Nat
  | u8 => 8
  | u32 | s32 => 32
  | u64 | s64 => 64

def isSigned : IntegerType → Bool
  | u8 | u32 | u64 => false
  | s32 | s64 => true

/-- The integer of each type that is read. -/
def read : IntegerType → Decoder Int
  | u8 => do return (← Decoder.unsigned 8)
  | u32 => do return (← Decoder.u32).toNat
  | u64 => do return (← Decoder.u64).toNat
  | s32 => do return (← Decoder.s32).toInt32.toInt
  | s64 => do return (← Decoder.s64).toInt64.toInt

/-- The integers of a type. -/
def Has (t : IntegerType) (n : Int) : Prop :=
  if t.isSigned then -2 ^ (t.width - 1) ≤ n ∧ n < 2 ^ (t.width - 1) else 0 ≤ n ∧ n < 2 ^ t.width

instance (t : IntegerType) (n : Int) : Decidable (t.Has n) :=
  inferInstanceAs (Decidable (ite ..))

/-- The groups as an integer, of which the highest bit is the sign if the type has one. -/
def value (t : IntegerType) (bytes : Bytes) : Int :=
  if t.isSigned then groupsSigned bytes else groupsValue bytes

/-- The integer of the type is written in the bytes. -/
structure Encodes (t : IntegerType) (n : Int) (bytes : Bytes) : Prop where
  grouped : Grouped bytes
  length_le : bytes.length ≤ (t.width + 6) / 7
  value : t.value bytes = n
  has : t.Has n

/-- An integer of the type in as few groups as it takes. -/
def write (t : IntegerType) (n : Int) : Bytes :=
  if t.isSigned then .ofSignedWord (.ofInt 64 n) else .ofWord (.ofInt 64 n)

private theorem width_pos (t : IntegerType) : 0 < t.width := by
  cases t <;> decide

variable {t : IntegerType} {n : Int} {input bytes rest : Bytes}

/-- An integer without a sign is read as a natural number of its width. -/
private theorem read_unsigned (h : t.isSigned = false) :
    t.read.run input = (.ok n, rest) ↔
      ∃ m, (Decoder.unsigned t.width).run input = (.ok m, rest) ∧ (m : Int) = n := by
  cases t with
  | u8 => exact Decoder.run_bind_pure_iff
  -- What is read fits the type, so it is not cut off.
  | u32 =>
    simp only [read, Decoder.u32, Decoder.run_bind_pure_iff, exists_exists_and_eq_and]
    refine exists_congr fun m => and_congr_right fun hm => ?_
    rw [UInt32.toNat_ofNat_of_lt' (unsigned_lt hm)]
  | u64 =>
    simp only [read, Decoder.u64, Decoder.run_bind_pure_iff, exists_exists_and_eq_and]
    refine exists_congr fun m => and_congr_right fun hm => ?_
    rw [UInt64.toNat_ofNat_of_lt' (unsigned_lt hm)]
  | s32 | s64 => cases h

/-- An integer with a sign is read in two's complement. -/
private theorem read_signed (h : t.isSigned = true) :
    t.read.run input = (.ok n, rest) ↔
      ∃ m, (Decoder.signed t.width).run input = (.ok m, rest) ∧ m = n := by
  cases t with
  | u8 | u32 | u64 => cases h
  | s32 =>
    simp only [read, Decoder.s32, Decoder.run_bind_pure_iff, exists_exists_and_eq_and]
    refine exists_congr fun m => and_congr_right fun hm => ?_
    obtain ⟨low, high⟩ := signed_range hm
    exact iff_of_eq (congrArg (· = n) (Int32.toInt_ofInt_of_le low high))
  | s64 =>
    simp only [read, Decoder.s64, Decoder.run_bind_pure_iff, exists_exists_and_eq_and]
    refine exists_congr fun m => and_congr_right fun hm => ?_
    obtain ⟨low, high⟩ := signed_range hm
    exact iff_of_eq (congrArg (· = n) (Int64.toInt_ofInt_of_le low high))

/-- For types without a sign, encodings are the forms of natural numbers. -/
private theorem encodes_unsigned (h : t.isSigned = false) {m : Nat} :
    t.Encodes m bytes ↔ UnsignedForm t.width m bytes := by
  rw [unsignedForm_iff t.width_pos]
  constructor
  -- The value is the same as a natural number and as an integer.
  · rintro ⟨grouped, hlength, hvalue, has⟩
    simp only [value, Has, h, Bool.false_eq_true, if_false] at hvalue has
    exact ⟨grouped, hlength, by exact_mod_cast hvalue.symm, by exact_mod_cast has.2⟩
  · rintro ⟨grouped, hlength, hvalue, hlt⟩
    refine ⟨grouped, hlength, ?_, ?_⟩ <;>
      simp only [value, Has, h, Bool.false_eq_true, if_false]
    · rw [hvalue]
    · exact ⟨Int.natCast_nonneg m, by exact_mod_cast hlt⟩

/-- For types with a sign, encodings are the forms of integers. -/
private theorem encodes_signed (h : t.isSigned = true) :
    t.Encodes n bytes ↔ SignedForm t.width n bytes := by
  rw [signedForm_iff t.width_pos]
  constructor
  · rintro ⟨grouped, hlength, hvalue, has⟩
    simp only [value, Has, h, if_true] at hvalue has
    exact ⟨grouped, hlength, hvalue.symm, has⟩
  · rintro ⟨grouped, hlength, hvalue, hrange⟩
    refine ⟨grouped, hlength, ?_, ?_⟩ <;> simp only [value, Has, h, if_true]
    · exact hvalue.symm
    · exact hrange

/-- The integers of a type without a sign are natural numbers. -/
theorem Encodes.nonneg (h : t.Encodes n bytes) (hsigned : t.isSigned = false) : 0 ≤ n := by
  have has := h.has
  simp only [Has, hsigned, Bool.false_eq_true, if_false] at has
  exact has.1

/-- The readers accept the encodings of the integers of their type, and give these integers. -/
private theorem read_run :
    t.read.run input = (.ok n, rest) ↔ ∃ bytes, input = bytes ++ rest ∧ t.Encodes n bytes := by
  -- With and without a sign, encodings are forms, which are read back.
  cases hsigned : t.isSigned with
  | false =>
    rw [read_unsigned hsigned]
    constructor
    · rintro ⟨m, hm, rfl⟩
      obtain ⟨bytes, rfl, form⟩ := (unsigned_run_iff t.width_pos).1 hm
      exact ⟨bytes, rfl, (encodes_unsigned hsigned).2 form⟩
    · rintro ⟨bytes, rfl, henc⟩
      lift n to Nat using henc.nonneg hsigned
      exact ⟨n, unsigned_run ((encodes_unsigned hsigned).1 henc) t.width_pos, rfl⟩
  | true =>
    rw [read_signed hsigned]
    constructor
    · rintro ⟨m, hm, rfl⟩
      obtain ⟨bytes, rfl, form⟩ := (signed_run_iff t.width_pos).1 hm
      exact ⟨bytes, rfl, (encodes_signed hsigned).2 form⟩
    · rintro ⟨bytes, rfl, henc⟩
      exact ⟨n, signed_run ((encodes_signed hsigned).1 henc) t.width_pos (Nat.le_refl _), rfl⟩

/-- The readers fail in one way only. -/
private theorem read_fault {fault : Fault} (h : t.read.run input = (.error fault, rest)) :
    fault = .malformed := by
  -- A change of the value does not change the fault.
  have hbind : ∀ {α β : Type} {d : Decoder α} {g : α → β},
      (do return g (← d) : Decoder β).run input = (.error fault, rest) →
        d.run input = (.error fault, rest) := by
    intro α β d g h
    obtain h | ⟨a, mid, -, h⟩ := Decoder.run_bind_eq_error.1 h
    · exact h
    · simp at h
  cases t with
  | u8 => exact word_fault (hbind (hbind h))
  | _ => exact word_fault (hbind (hbind (hbind h)))

/-- What is written is an encoding. -/
private theorem encodes_write (h : t.Has n) : t.Encodes n (t.write n) := by
  have hwide : t.width ≤ 64 := by cases t <;> decide
  cases hsigned : t.isSigned with
  | false =>
    simp only [Has, write, hsigned, Bool.false_eq_true, if_false, Bytes.ofWord_eq] at h ⊢
    lift n to Nat using h.1
    have hlt : n < 2 ^ t.width := by exact_mod_cast h.2
    -- All types fit into the word that is shifted.
    have hword : (BitVec.ofInt 64 n).toNat = n := by
      rw [BitVec.ofInt_natCast, BitVec.toNat_ofNat]
      exact Nat.mod_eq_of_lt (hlt.trans_le (Nat.pow_le_pow_right (by decide) hwide))
    rw [hword]
    exact (encodes_unsigned hsigned).2 (unsignedForm_ofUnsigned hlt)
  | true =>
    simp only [Has, write, hsigned, if_true, Bytes.ofSignedWord_eq] at h ⊢
    -- The range of the type is within that of the word.
    have hpow : (2 : Int) ^ (t.width - 1) ≤ 2 ^ 63 :=
      pow_le_pow_right₀ (by decide) (by omega)
    have hword : (BitVec.ofInt 64 n).toInt = n :=
      BitVec.toInt_ofInt_eq_self (by decide) (by omega) (by omega)
    rw [hword]
    exact (encodes_signed hsigned).2 (signedForm_ofSigned t.width_pos h.1 h.2)

end IntegerType

/-- Reading is exact. An integer of a type is read from an input if and only if it starts with an
    encoding of the integer, of which all bytes are consumed and no others, whatever follows, and
    where there is none the input is malformed. In particular what is written is read back, and so
    are words of a fixed size. -/
theorem integer_reading_exact (t : IntegerType) (input : Bytes) :
    (∀ n rest, t.read.run input = (.ok n, rest) ↔
      ∃ bytes, input = bytes ++ rest ∧ t.Encodes n bytes) ∧
    ((¬∃ n bytes, bytes <+: input ∧ t.Encodes n bytes) ↔
      ∃ rest, t.read.run input = (.error .malformed, rest)) ∧
    (∀ fault rest, t.read.run input = (.error fault, rest) → fault = .malformed) ∧
    (∀ n rest, t.Has n → t.read.run (t.write n ++ rest) = (.ok n, rest)) ∧
    (∀ (x : UInt32) rest,
      (Decoder.littleEndian 4).run (littleEndianBytes 4 x.toNat ++ rest) = (.ok x.toNat, rest)) ∧
    ∀ (x : UInt64) rest,
      (Decoder.littleEndian 8).run (littleEndianBytes 8 x.toNat ++ rest) = (.ok x.toNat, rest) := by
  refine ⟨fun n rest => IntegerType.read_run, ⟨fun hnone => ?_, ?_⟩,
    fun fault rest => IntegerType.read_fault,
    fun n rest has => IntegerType.read_run.2 ⟨_, rfl, IntegerType.encodes_write has⟩,
    fun x rest => littleEndian_run x.toNat_lt, fun x rest => littleEndian_run x.toNat_lt⟩
  -- The reader gives a value, which has an encoding, or fails.
  · rcases hrun : t.read.run input with ⟨_ | n, rest⟩
    · next fault => exact ⟨rest, by rw [IntegerType.read_fault hrun]⟩
    · obtain ⟨bytes, rfl, henc⟩ := IntegerType.read_run.1 hrun
      exact absurd ⟨n, bytes, List.prefix_append _ _, henc⟩ hnone
  · rintro ⟨rest, hrun⟩ ⟨n, bytes, ⟨tail, rfl⟩, henc⟩
    rw [IntegerType.read_run.2 ⟨bytes, rfl, henc⟩] at hrun
    cases hrun

/-- The least integer of a type, and zero with as many groups as there may be. -/
theorem integer_reading_exact_bounds :
    IntegerType.s32.Has (-2147483648) ∧
      IntegerType.s32.read.run (IntegerType.s32.write (-2147483648) ++ [0xFF]) =
        (.ok (-2147483648), [0xFF]) ∧
      IntegerType.u32.read.run [0x80, 0x80, 0x80, 0x80, 0x00, 0x07] = (.ok 0, [0x07]) :=
  ⟨by decide +kernel,
    (integer_reading_exact .s32 []).2.2.2.1 (-2147483648) [0xFF] (by decide +kernel),
    ((integer_reading_exact .u32 [0x80, 0x80, 0x80, 0x80, 0x00, 0x07]).1 0 [0x07]).2
      ⟨[0x80, 0x80, 0x80, 0x80, 0x00], rfl,
        ⟨by decide +kernel, 0x00, rfl, by decide⟩, by decide, by decide +kernel, by decide +kernel⟩⟩

end WasmLowering
