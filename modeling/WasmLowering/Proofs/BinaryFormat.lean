import WasmLowering.Proofs.Outcome
import WasmLowering.Proofs.Validation
import WasmLowering.Lowering.Body

/-!
# The binary format of function bodies

The format as a relation between what is written and the bytes it may be written in, which does not
mention how bytes are read. An integer may be written in several ways, since groups may be padded,
so that a body has many forms. What is written is read back, whatever its form and whatever follows.

## Key results

- `unsigned_run_iff`, `signed_run_iff`: integers are read back, and nothing else is
- `operator_run`: operators are read back
- `localRuns_run`: the declaration of locals is read back
-/

namespace WasmLowering

/-! ## Integers -/

/-- The forms of a natural number of `width` bits. -/
inductive UnsignedForm : Nat → Nat → Bytes → Prop where
  | last {width : Nat} (b : UInt8) (group : b.toNat < 128) (fits : b.toNat < 2 ^ width) :
      UnsignedForm width b.toNat [b]
  | more {width n : Nat} {bytes : Bytes} (b : UInt8) (group : 128 ≤ b.toNat) (fits : 7 < width)
      (rest : UnsignedForm (width - 7) n bytes) :
      UnsignedForm width (b.toNat - 128 + 128 * n) (b :: bytes)

/-- The forms of an integer of `width` bits, in two's complement. -/
inductive SignedForm : Nat → Int → Bytes → Prop where
  | lastNonneg {width : Nat} (b : UInt8) (group : b.toNat < 64) (fits : b.toNat < 2 ^ (width - 1)) :
      SignedForm width b.toNat [b]
  | lastNeg {width : Nat} (b : UInt8) (group : 64 ≤ b.toNat ∧ b.toNat < 128)
      (fits : 128 ≤ b.toNat + 2 ^ (width - 1)) : SignedForm width (b.toNat - 128) [b]
  | more {width : Nat} {n : Int} {bytes : Bytes} (b : UInt8) (group : 128 ≤ b.toNat)
      (fits : 7 < width) (rest : SignedForm (width - 7) n bytes) :
      SignedForm width (b.toNat - 128 + 128 * n) (b :: bytes)

section Integers

variable {width shift : Nat} {word w : BitVec width} {input bytes rest : Bytes}

theorem two_pow_group (h : 7 ≤ width) : 2 ^ width = 128 * 2 ^ (width - 7) := by
  rw [show (128 : Nat) = 2 ^ 7 from rfl, ← Nat.pow_add, Nat.add_sub_cancel' h]

/-- The same of the numbers of one sign. -/
theorem two_pow_sign_group (h : 7 < width) :
    (2 : Int) ^ (width - 1) = 128 * 2 ^ (width - 7 - 1) := by
  rw [show width - 7 - 1 = width - 1 - 7 by omega]
  exact_mod_cast two_pow_group (show 7 ≤ width - 1 by omega)

/-- A form of a natural number of some bits stands for a number of these bits. -/
theorem UnsignedForm.lt {n : Nat} (h : UnsignedForm width n bytes) : n < 2 ^ width := by
  induction h with
  | last b group fits => exact fits
  | @more width n bytes b group fits rest ih =>
    have hpow := two_pow_group fits.le
    have hb := b.toNat_lt
    omega

/-- A form of an integer of some bits stands for an integer of these bits. -/
theorem SignedForm.range {n : Int} (h : SignedForm width n bytes) (hpos : 0 < width) :
    -2 ^ (width - 1) ≤ n ∧ n < 2 ^ (width - 1) := by
  induction h with
  | @lastNonneg width b group fits =>
    have : (b.toNat : Int) < 2 ^ (width - 1) := by exact_mod_cast fits
    have : (0 : Int) < 2 ^ (width - 1) := by positivity
    omega
  | @lastNeg width b group fits =>
    have : (128 : Int) ≤ b.toNat + 2 ^ (width - 1) := by exact_mod_cast fits
    have : (0 : Int) < 2 ^ (width - 1) := by positivity
    omega
  -- The other groups have seven bits fewer.
  | @more width n bytes b group fits rest ih =>
    have hpow := two_pow_sign_group fits
    have hrange := ih (by omega)
    have hb := b.toNat_lt
    omega

/-- A form of an integer is a form of it with more bits, too. -/
theorem SignedForm.mono {n : Int} {bits : Nat} (h : SignedForm width n bytes)
    (hbits : width ≤ bits) : SignedForm bits n bytes := by
  -- What fits the fewer bits of a group that is the last fits the more bits, too.
  have hpow : ∀ {k m : Nat}, k ≤ m → 2 ^ (k - 1) ≤ 2 ^ (m - 1) :=
    fun hle => Nat.pow_le_pow_right (by decide) (by omega)
  induction h generalizing bits with
  | lastNonneg b group fits => exact .lastNonneg b group (fits.trans_le (hpow hbits))
  | lastNeg b group fits => exact .lastNeg b group (fits.trans (by have := hpow hbits; omega))
  | more b group fits rest ih => exact .more b group (by omega) (ih (by omega))

/-! ### One group -/

/-- Bits that are put above those of a word are added to it. -/
private theorem or_shiftLeft (hword : word.toNat < 2 ^ shift) (n : Int) :
    word ||| (BitVec.ofInt width n <<< shift) =
      BitVec.ofInt width (word.toNat + 2 ^ shift * n) := by
  -- The word has no bits from the shift on, and the shifted number none below it.
  have hdisjoint : word &&& (BitVec.ofInt width n <<< shift) = 0 := by
    ext i hi
    by_cases hlow : i < shift
    · simp [hlow]
    · have hbit : word.toNat.testBit i = false :=
        Nat.testBit_lt_two_pow (hword.trans_le (Nat.pow_le_pow_right (by decide) (by omega)))
      simp [BitVec.getElem_eq_testBit_toNat, hbit]
  have hpow : BitVec.twoPow width shift = BitVec.ofInt width (2 ^ shift : Nat) := by
    rw [BitVec.ofInt_natCast]
    exact BitVec.eq_of_toNat_eq (by rw [BitVec.toNat_twoPow, BitVec.toNat_ofNat])
  have hself : BitVec.ofInt width word.toNat = word := by
    rw [BitVec.ofInt_natCast, BitVec.ofNat_toNat, BitVec.setWidth_eq]
  -- Without common bits, the disjunction is a sum.
  rw [← BitVec.add_eq_or_of_and_eq_zero _ _ hdisjoint, BitVec.shiftLeft_eq_mul_twoPow, hpow,
    BitVec.ofInt_add, BitVec.ofInt_mul, hself, BitVec.mul_comm]
  norm_cast

/-- What lies above the bits of a word is lost. -/
private theorem ofInt_add_pow_mul (n k : Int) :
    BitVec.ofInt width (n + (2 ^ width : Nat) * k) = BitVec.ofInt width n := by
  refine BitVec.eq_of_toNat_eq ?_
  rw [BitVec.toNat_ofInt, BitVec.toNat_ofInt, Int.add_mul_emod_self_left]

/-- A word with one more group has seven more bits. -/
private theorem toNat_add_group (hword : word.toNat < 2 ^ shift) {group : Nat}
    (hgroup : group < 128) (hroom : shift + 7 ≤ width) :
    (BitVec.ofInt width (word.toNat + 2 ^ shift * group)).toNat = word.toNat + 2 ^ shift * group ∧
      word.toNat + 2 ^ shift * group < 2 ^ (shift + 7) := by
  have hsum : word.toNat + 2 ^ shift * group < 2 ^ (shift + 7) := by
    have : 2 ^ shift * group ≤ 2 ^ shift * 127 := Nat.mul_le_mul_left _ (by omega)
    rw [Nat.pow_add]
    omega
  refine ⟨?_, hsum⟩
  have hcast : (word.toNat + 2 ^ shift * group : Int) = (word.toNat + 2 ^ shift * group : Nat) := by
    push_cast
    rfl
  rw [hcast, BitVec.ofInt_natCast, BitVec.toNat_ofNat]
  exact Nat.mod_eq_of_lt (hsum.trans_le (Nat.pow_le_pow_right (by decide) hroom))

/-- What the group of a byte without a high bit stands for. -/
def lastGroup (signed : Bool) (b : UInt8) : Int :=
  if signed && 64 ≤ b.toNat then b.toNat - 128 else b.toNat

/-- The last group fills the rest of the word. -/
private theorem readGroup_last (signed : Bool) {b : UInt8} (hb : b.toNat < 128)
    (hword : word.toNat < 2 ^ shift) :
    Leb128.read signed shift word (b :: rest) =
      if shift + 7 < width ∨ Leb128.fits signed (width - shift) b.toNat = true then
        (some (BitVec.ofInt width (word.toNat + 2 ^ shift * lastGroup signed b)), rest)
      else (none, rest) := by
  -- The byte has no high bit, so its group is the byte itself.
  have hlast : decide (b < 0x80) = true := by simpa [UInt8.lt_iff_toNat_lt] using hb
  have hgroup : (b &&& 0x7F).toNat = b.toNat := by
    rw [UInt8.toNat_and]
    exact (Nat.and_two_pow_sub_one_eq_mod b.toNat 7).trans (Nat.mod_eq_of_lt hb)
  have hones : BitVec.allOnes width = BitVec.ofInt width (-1) := by
    rw [← BitVec.neg_one_eq_allOnes, BitVec.ofInt_neg]
    rfl
  have hpow : (2 : Int) ^ (shift + 7) = 2 ^ shift * 128 := by rw [pow_add]; rfl
  rw [Leb128.read]
  simp only [hlast, hgroup, Bool.true_and, ← BitVec.ofInt_natCast, or_shiftLeft hword, hones]
  simp only [Bool.or_eq_true, decide_eq_true_eq, reduceIte]
  refine if_congr Iff.rfl ?_ rfl
  -- Only a negative last group differs from its byte: it is extended by ones, as far as there is
  -- room.
  by_cases hsign : signed = true ∧ 64 ≤ b.toNat
  · have hvalue : lastGroup signed b = b.toNat - 128 := by simp [lastGroup, hsign]
    rw [hvalue]
    by_cases hroom : shift + 7 < width
    · -- There is room for ones above the group: they stand for the missing `-128`.
      obtain ⟨hsum, hlt⟩ := toNat_add_group hword hb hroom.le
      rw [if_pos (by simp [hsign, hroom]), or_shiftLeft (by rw [hsum]; exact hlt), hsum, hpow]
      push_cast
      ring_nf
    · -- The word ends within this group, and the bits beyond it are lost.
      rw [if_neg (by simp [hroom])]
      have hlost : (2 : Int) ^ (shift + 7) = (2 ^ width : Nat) * 2 ^ (shift + 7 - width) := by
        push_cast
        rw [← pow_add, Nat.add_sub_cancel' (by omega)]
      have hsub : (word.toNat + 2 ^ shift * (b.toNat - 128) : Int) =
          word.toNat + 2 ^ shift * b.toNat + (2 ^ width : Nat) * -2 ^ (shift + 7 - width) := by
        rw [mul_neg, ← hlost, hpow]
        ring
      rw [hsub, ofInt_add_pow_mul]
  · have hvalue : lastGroup signed b = b.toNat := if_neg (by simpa using hsign)
    rw [hvalue, if_neg]
    simp only [Bool.and_eq_true, decide_eq_true_eq]
    exact fun h => hsign h.1

/-- A group that is not the last one leaves room for others. -/
private theorem readGroup_more (signed : Bool) {b : UInt8} (hb : 128 ≤ b.toNat)
    (hword : word.toNat < 2 ^ shift) :
    Leb128.read signed shift word (b :: rest) =
      if shift + 7 < width then
        Leb128.read signed (shift + 7)
          (BitVec.ofInt width (word.toNat + 2 ^ shift * (b.toNat - 128 : Nat))) rest
      else (none, rest) := by
  have hbyte := b.toNat_lt
  -- The byte has a high bit, which is no part of its group.
  have hlast : decide (b < 0x80) = false := by simpa [UInt8.le_iff_toNat_le] using hb
  have hgroup : (b &&& 0x7F).toNat = b.toNat - 128 := by
    rw [UInt8.toNat_and]
    exact (Nat.and_two_pow_sub_one_eq_mod b.toNat 7).trans (by omega)
  rw [Leb128.read]
  simp only [hlast, hgroup, Bool.false_and, Bool.or_false, decide_eq_true_eq,
    ← BitVec.ofInt_natCast, or_shiftLeft hword]
  rfl

private theorem fits_unsigned {room group : Nat} :
    Leb128.fits false room group = true ↔ group < 2 ^ room := by
  simp [Leb128.fits, Nat.shiftRight_eq_div_pow, Nat.div_eq_zero_iff]

/-- The bits of a group that do not fit are all zero or all one, like the highest one that fits. -/
private theorem fits_signed {room group : Nat} (hpos : 0 < room) (hroom : room ≤ 7)
    (hgroup : group < 128) :
    Leb128.fits true room group = true ↔
      group < 64 ∧ group < 2 ^ (room - 1) ∨ 64 ≤ group ∧ 128 ≤ group + 2 ^ (room - 1) := by
  -- A case for each number of bits that a last group can be cut to.
  have hall : ∀ r < 7, ∀ g < 128, Leb128.fits true (r + 1) g = true ↔
      g < 64 ∧ g < 2 ^ r ∨ 64 ≤ g ∧ 128 ≤ g + 2 ^ r := by decide +kernel
  have := hall (room - 1) (by omega) group hgroup
  rwa [Nat.sub_add_cancel hpos] at this

/-! ### All groups -/

/-- The forms of a natural number are read. -/
theorem UnsignedForm.read {n : Nat} (h : UnsignedForm (width - shift) n bytes)
    (hshift : shift < width) (hword : word.toNat < 2 ^ shift) :
    Leb128.read false shift word (bytes ++ rest) =
      (some (BitVec.ofInt width (word.toNat + 2 ^ shift * n)), rest) := by
  -- The induction is on the groups: each one moves the shift by seven bits and fills the word so
  -- far.
  generalize hk : width - shift = k at h
  induction h generalizing shift word with
  | last b group fits =>
    rw [List.singleton_append, readGroup_last false group hword, if_pos]
    · rfl
    · rw [fits_unsigned, hk]
      exact .inr fits
  | @more k n bytes b group fits form ih =>
    obtain ⟨hsum, hlt⟩ := @toNat_add_group width shift word hword (b.toNat - 128)
      (by have := b.toNat_lt; omega) (by omega)
    rw [List.cons_append, readGroup_more false group hword, if_pos (by omega),
      ih (by omega) (by rw [hsum]; exact hlt) (by omega), hsum]
    push_cast
    ring_nf

/-- What is read as a natural number is a form of it. -/
private theorem unsignedForm_of_read (hshift : shift < width) (hword : word.toNat < 2 ^ shift)
    (h : Leb128.read false shift word input = (some w, rest)) :
    ∃ bytes n, input = bytes ++ rest ∧ UnsignedForm (width - shift) n bytes ∧
      w = BitVec.ofInt width (word.toNat + 2 ^ shift * (n : Nat)) := by
  induction input generalizing shift word with
  | nil => simp [Leb128.read] at h
  | cons b tail ih =>
    by_cases group : b.toNat < 128
    -- The last group: its bits have to fit the width that is left.
    · rw [readGroup_last false group hword] at h
      split at h
      · next hfits =>
        obtain ⟨hw, rfl⟩ := Prod.mk.inj h
        refine ⟨[b], b.toNat, rfl, .last b group ?_, (Option.some.inj hw).symm⟩
        rw [fits_unsigned] at hfits
        have hpow : shift + 7 < width → 2 ^ 7 ≤ 2 ^ (width - shift) :=
          fun hroom => Nat.pow_le_pow_right (by decide) (by omega)
        omega
      · cases h
    -- A group before the last: the sum stays below the next shift.
    · rw [readGroup_more false (by omega) hword] at h
      split at h
      · next hroom =>
        obtain ⟨hsum, hlt⟩ := @toNat_add_group width shift word hword (b.toNat - 128)
          (by have := b.toNat_lt; omega) hroom.le
        obtain ⟨bytes, n, rfl, form, rfl⟩ := ih hroom (by rw [hsum]; exact hlt) h
        refine ⟨b :: bytes, b.toNat - 128 + 128 * n, rfl,
          .more b (by omega) (by omega) (by rwa [Nat.sub_sub]), ?_⟩
        rw [hsum]
        push_cast
        ring_nf
      · cases h

/-- The forms of an integer are read. -/
theorem SignedForm.read {n : Int} (h : SignedForm (width - shift) n bytes)
    (hshift : shift < width) (hword : word.toNat < 2 ^ shift) :
    Leb128.read true shift word (bytes ++ rest) =
      (some (BitVec.ofInt width (word.toNat + 2 ^ shift * n)), rest) := by
  generalize hk : width - shift = k at h
  induction h generalizing shift word with
  -- A positive last group: the bits that the width cuts off are zeros.
  | @lastNonneg k b group fits =>
    have hvalue : lastGroup true b = b.toNat := if_neg (by simpa using group)
    rw [List.singleton_append, readGroup_last true (by omega) hword, hvalue, if_pos]
    by_cases hroom : shift + 7 < width
    · exact .inl hroom
    · rw [fits_signed (by omega) (by omega) (by omega), hk]
      exact .inr (.inl ⟨group, fits⟩)
  -- A negative last group: the bits that the width cuts off are ones.
  | @lastNeg k b group fits =>
    have hvalue : lastGroup true b = b.toNat - 128 := if_pos (by simpa using group.1)
    rw [List.singleton_append, readGroup_last true group.2 hword, hvalue, if_pos]
    by_cases hroom : shift + 7 < width
    · exact .inl hroom
    · rw [fits_signed (by omega) (by omega) group.2, hk]
      exact .inr (.inr ⟨group.1, fits⟩)
  | @more k n bytes b group fits form ih =>
    obtain ⟨hsum, hlt⟩ := @toNat_add_group width shift word hword (b.toNat - 128)
      (by have := b.toNat_lt; omega) (by omega)
    rw [List.cons_append, readGroup_more true group hword, if_pos (by omega),
      ih (by omega) (by rw [hsum]; exact hlt) (by omega), hsum]
    push_cast [Nat.cast_sub group]
    ring_nf

/-- What is read as an integer is a form of it. -/
private theorem signedForm_of_read (hshift : shift < width) (hword : word.toNat < 2 ^ shift)
    (h : Leb128.read true shift word input = (some w, rest)) :
    ∃ bytes n, input = bytes ++ rest ∧ SignedForm (width - shift) n bytes ∧
      w = BitVec.ofInt width (word.toNat + 2 ^ shift * n) := by
  induction input generalizing shift word with
  | nil => simp [Leb128.read] at h
  | cons b tail ih =>
    by_cases group : b.toNat < 128
    -- The last group carries the sign.
    · rw [readGroup_last true group hword] at h
      split at h
      · next hfits =>
        obtain ⟨hw, rfl⟩ := Prod.mk.inj h
        refine ⟨[b], lastGroup true b, rfl, ?_, (Option.some.inj hw).symm⟩
        -- If the width cuts the group, the bits beyond it have to repeat the sign.
        have hfits : b.toNat < 64 ∧ b.toNat < 2 ^ (width - shift - 1) ∨
            64 ≤ b.toNat ∧ 128 ≤ b.toNat + 2 ^ (width - shift - 1) := by
          by_cases hroom : shift + 7 < width
          · have hpow : 2 ^ 7 ≤ 2 ^ (width - shift - 1) :=
              Nat.pow_le_pow_right (by decide) (by omega)
            omega
          · exact (fits_signed (by omega) (by omega) group).1 (hfits.resolve_left hroom)
        obtain ⟨hsign, hfits⟩ | ⟨hsign, hfits⟩ := hfits
        · rw [show lastGroup true b = b.toNat from if_neg (by simpa using hsign)]
          exact .lastNonneg b hsign hfits
        · rw [show lastGroup true b = b.toNat - 128 from if_pos (by simpa using hsign)]
          exact .lastNeg b ⟨hsign, group⟩ hfits
      · cases h
    -- A group before the last has no sign yet.
    · rw [readGroup_more true (by omega) hword] at h
      split at h
      · next hroom =>
        obtain ⟨hsum, hlt⟩ := @toNat_add_group width shift word hword (b.toNat - 128)
          (by have := b.toNat_lt; omega) hroom.le
        obtain ⟨bytes, n, rfl, form, rfl⟩ := ih hroom (by rw [hsum]; exact hlt) h
        refine ⟨b :: bytes, b.toNat - 128 + 128 * n, rfl,
          .more b (by omega) (by omega) (by rwa [Nat.sub_sub]), ?_⟩
        rw [hsum]
        push_cast [Nat.cast_sub (show 128 ≤ b.toNat by omega)]
        ring_nf
      · cases h

/-- A word is read from groups, starting with no bits of it. -/
private theorem word_run {signed : Bool} :
    (Decoder.word signed width).run input = (.ok w, rest) ↔
      Leb128.read signed 0 (0 : BitVec width) input = (some w, rest) := by
  simp only [Decoder.word]
  split <;> simp_all

/-- Bytes that are no integer are malformed input; reading them fails in no other way. -/
theorem word_fault {signed : Bool} {fault : Fault}
    (h : (Decoder.word signed width).run input = (.error fault, rest)) : fault = .malformed := by
  simp only [Decoder.word] at h
  split at h
  · exact (Except.error.inj (Prod.mk.inj h).1).symm
  · simp at h

/-- A natural number is read back, whatever follows it. -/
theorem unsigned_run {n : Nat} (h : UnsignedForm width n bytes) (hpos : 0 < width) :
    (Decoder.unsigned width).run (bytes ++ rest) = (.ok n, rest) := by
  have hread : Leb128.read false 0 (0 : BitVec width) (bytes ++ rest) = _ :=
    UnsignedForm.read h hpos (by simp)
  refine (Decoder.run_bind_ok (word_run.2 hread)).trans ?_
  rw [Decoder.run_pure]
  simp [Nat.mod_eq_of_lt h.lt]

/-- What is read as a natural number is exactly what is written as it. -/
theorem unsigned_run_iff {n : Nat} (hpos : 0 < width) :
    (Decoder.unsigned width).run input = (.ok n, rest) ↔
      ∃ bytes, input = bytes ++ rest ∧ UnsignedForm width n bytes := by
  constructor
  · intro h
    obtain ⟨w, hw, rfl⟩ := Decoder.run_bind_pure_eq_ok h
    obtain ⟨bytes, n, rfl, form, rfl⟩ := unsignedForm_of_read hpos (by simp) (word_run.1 hw)
    rw [Nat.sub_zero] at form
    refine ⟨bytes, rfl, ?_⟩
    simpa [Nat.mod_eq_of_lt form.lt] using form
  · rintro ⟨bytes, rfl, form⟩
    exact unsigned_run form hpos

theorem u32_run {n : UInt32} (h : UnsignedForm 32 n.toNat bytes) :
    Decoder.u32.run (bytes ++ rest) = (.ok n, rest) := by
  refine (Decoder.run_bind_ok (unsigned_run h (by decide))).trans ?_
  rw [Decoder.run_pure, UInt32.ofNat_toNat]

/-- What is read as an index is exactly what is written as it. -/
theorem u32_run_iff {n : UInt32} :
    Decoder.u32.run input = (.ok n, rest) ↔
      ∃ bytes, input = bytes ++ rest ∧ UnsignedForm 32 n.toNat bytes := by
  constructor
  · intro h
    obtain ⟨m, mid, hm, h⟩ := Decoder.run_bind_eq_ok.1 h
    obtain ⟨hn, rfl⟩ := Prod.mk.inj h
    obtain ⟨bytes, rfl, form⟩ := (unsigned_run_iff (by decide)).1 hm
    -- The number fits into 32 bits.
    have hn : UInt32.ofNat m = n := Except.ok.inj hn
    refine ⟨bytes, rfl, ?_⟩
    rwa [← hn, UInt32.toNat_ofNat_of_lt' form.lt]
  · rintro ⟨bytes, rfl, form⟩
    exact u32_run form

/-- An integer is read back, also by a reader for integers of more bits. -/
theorem signed_run {n : Int} {bits : Nat} (h : SignedForm width n bytes) (hpos : 0 < width)
    (hwidth : width ≤ bits) : (Decoder.signed bits).run (bytes ++ rest) = (.ok n, rest) := by
  have form := h.mono hwidth
  have hbits : 0 < bits := by omega
  have hread : Leb128.read true 0 (0 : BitVec bits) (bytes ++ rest) = _ :=
    SignedForm.read form hbits (by simp)
  refine (Decoder.run_bind_ok (word_run.2 hread)).trans ?_
  -- The integer is in range, so its word stands for it and not for another one.
  obtain ⟨low, high⟩ := form.range hbits
  rw [Decoder.run_pure]
  simp [BitVec.toInt_ofInt_eq_self hbits low high]

/-- What is read as an integer is exactly what is written as it. -/
theorem signed_run_iff {n : Int} (hpos : 0 < width) :
    (Decoder.signed width).run input = (.ok n, rest) ↔
      ∃ bytes, input = bytes ++ rest ∧ SignedForm width n bytes := by
  constructor
  · intro h
    obtain ⟨w, hw, rfl⟩ := Decoder.run_bind_pure_eq_ok h
    obtain ⟨bytes, n, rfl, form, rfl⟩ := signedForm_of_read hpos (by simp) (word_run.1 hw)
    obtain ⟨low, high⟩ := form.range hpos
    refine ⟨bytes, rfl, ?_⟩
    simpa [BitVec.toInt_ofInt_eq_self hpos low high] using form
  · rintro ⟨bytes, rfl, form⟩
    exact signed_run form hpos (Nat.le_refl _)

/-- A constant of 32 bits is read back, whatever follows it. -/
theorem s32_run {n : UInt32} (h : SignedForm 32 n.toInt32.toInt bytes) :
    Decoder.s32.run (bytes ++ rest) = (.ok n, rest) := by
  refine (Decoder.run_bind_ok (signed_run h (by decide) (by decide))).trans ?_
  rw [Decoder.run_pure, Int32.ofInt_toInt]
  rfl

/-- A constant of 64 bits is read back, whatever follows it. -/
theorem s64_run {n : UInt64} (h : SignedForm 64 n.toInt64.toInt bytes) :
    Decoder.s64.run (bytes ++ rest) = (.ok n, rest) := by
  refine (Decoder.run_bind_ok (signed_run h (by decide) (by decide))).trans ?_
  rw [Decoder.run_pure, Int64.ofInt_toInt]
  rfl

/-- The bytes of a number in little-endian order. -/
def littleEndianBytes : Nat → Nat → Bytes
  | 0, _ => []
  | size + 1, n => UInt8.ofNat (n % 256) :: littleEndianBytes size (n / 256)

/-- A number has as many bytes in little-endian order as asked for. -/
private theorem length_littleEndianBytes (size n : Nat) :
    (littleEndianBytes size n).length = size := by
  induction size generalizing n with
  | zero => rfl
  | succ size ih => rw [littleEndianBytes, List.length_cons, ih]

/-- A number is read back from its bytes in little-endian order, if they are enough for it. -/
theorem littleEndian_run {size n : Nat} (h : n < 256 ^ size) :
    (Decoder.littleEndian size).run (littleEndianBytes size n ++ rest) = (.ok n, rest) := by
  have htake : (Decoder.take size).run (littleEndianBytes size n ++ rest) =
      (.ok (littleEndianBytes size n), rest) := by
    have hlen := length_littleEndianBytes size n
    simp only [Decoder.take, List.length_append, hlen]
    rw [if_pos (by omega), List.take_left' hlen, List.drop_left' hlen]
  refine (Decoder.run_bind_ok htake).trans ?_
  rw [Decoder.run_pure]
  -- The bytes are the digits of the number, least first.
  have hvalue : ∀ size n, n < 256 ^ size →
      (littleEndianBytes size n).foldr (fun b acc => b.toNat + 256 * acc) 0 = n := by
    intro size
    induction size with
    | zero =>
      intro n h
      simp only [Nat.pow_zero] at h
      simp only [littleEndianBytes, List.foldr_nil]
      omega
    | succ size ih =>
      intro n h
      have hdiv : n / 256 < 256 ^ size := by
        rw [Nat.pow_succ] at h
        omega
      have hbyte : (UInt8.ofNat (n % 256)).toNat = n % 256 := by
        simp
      rw [littleEndianBytes, List.foldr_cons, ih _ hdiv, hbyte]
      omega
  rw [hvalue size n h]

end Integers

/-! ## Operators -/

/-- The opcode of a member of a family of operators, whose opcodes follow one another. -/
def familyCode (first32 first64 : Nat) (width64 : Bool) (index : Nat) : UInt8 :=
  UInt8.ofNat ((if width64 then first64 else first32) + index)

/-- The opcode of a conversion. -/
def Conversion.opcode : Conversion → UInt8
  | wrap => 0xA7
  | trunc source target signed =>
    familyCode 0xA8 0xAE (target == .w64) (2 * source.ctorIdx + if signed then 0 else 1)
  | extend signed => if signed then 0xAC else 0xAD
  | convert source target signed =>
    familyCode 0xB2 0xB7 (target == .w64) (2 * source.ctorIdx + if signed then 0 else 1)
  | demote => 0xB6
  | promote => 0xBB
  | reinterpretAsInt width => familyCode 0xBC 0xBD (width == .w64) 0
  | reinterpretAsFloat width => familyCode 0xBE 0xBF (width == .w64) 0

/-- The opcode of an operator without immediates. -/
def Operator.opcode : Operator → Option UInt8
  | unreachable => some 0x00
  | nop => some 0x01
  | elseBlock => some 0x05
  | endBlock => some 0x0B
  | ret => some 0x0F
  | drop => some 0x1A
  | select => some 0x1B
  | eqz width => some (familyCode 0x45 0x50 (width == .w64) 0)
  | intCompare width op => some (familyCode 0x46 0x51 (width == .w64) op.ctorIdx)
  | floatCompare width op => some (familyCode 0x5B 0x61 (width == .w64) op.ctorIdx)
  | bitCount width op => some (familyCode 0x67 0x79 (width == .w64) op.ctorIdx)
  | intBinary width op => some (familyCode 0x6A 0x7C (width == .w64) op.ctorIdx)
  | shift width op => some (familyCode 0x74 0x86 (width == .w64) op.ctorIdx)
  | rotate width op => some (familyCode 0x77 0x89 (width == .w64) op.ctorIdx)
  | floatUnary width op => some (familyCode 0x8B 0x99 (width == .w64) op.ctorIdx)
  | floatBinary width op => some (familyCode 0x92 0xA0 (width == .w64) op.ctorIdx)
  | convert conversion => some conversion.opcode
  | signExtend .w32 8 => some 0xC0
  | signExtend .w32 16 => some 0xC1
  | signExtend .w64 8 => some 0xC2
  | signExtend .w64 16 => some 0xC3
  | signExtend .w64 32 => some 0xC4
  | _ => none

/-- The number of a saturating conversion, behind the miscellaneous opcode. -/
def truncSatCode (source : FloatWidth) (target : IntWidth) (signed : Bool) : Nat :=
  4 * target.ctorIdx + 2 * source.ctorIdx + if signed then 0 else 1

/-- The forms of a block type: nothing, one result, or the index of a function type. -/
inductive BlockTypeForm (types : Array FuncType) : FuncType → Bytes → Prop where
  | empty : BlockTypeForm types {} [0x40]
  | result (t : ValueType) (known : t.isKnown = true) :
      BlockTypeForm types { results := [t] } [t.code]
  | index {n : Nat} {type : FuncType} {bytes : Bytes} (form : SignedForm 33 n bytes)
      (entry : types[n]? = some type) : BlockTypeForm types type bytes

/-- The forms of an operator. -/
inductive OperatorForm (types : Array FuncType) : Operator → Bytes → Prop where
  | plain {op : Operator} {b : UInt8} (opcode : op.opcode = some b) : OperatorForm types op [b]
  | block {type : FuncType} {bytes : Bytes} (form : BlockTypeForm types type bytes) :
      OperatorForm types (.block type) (0x02 :: bytes)
  | loop {results : List ValueType} {bytes : Bytes}
      (form : BlockTypeForm types { results } bytes) :
      OperatorForm types (.loop results) (0x03 :: bytes)
  | ifBlock {type : FuncType} {bytes : Bytes} (form : BlockTypeForm types type bytes) :
      OperatorForm types (.ifBlock type) (0x04 :: bytes)
  | br {depth : UInt32} {bytes : Bytes} (form : UnsignedForm 32 depth.toNat bytes) :
      OperatorForm types (.br depth) (0x0C :: bytes)
  | selectTyped {t : ValueType} {bytes : Bytes} (one : UnsignedForm 32 1 bytes)
      (known : t.isKnown = true) :
      OperatorForm types (.selectTyped t) (0x1C :: bytes ++ [t.code])
  | localGet {index : UInt32} {bytes : Bytes} (form : UnsignedForm 32 index.toNat bytes) :
      OperatorForm types (.localGet index) (0x20 :: bytes)
  | localSet {index : UInt32} {bytes : Bytes} (form : UnsignedForm 32 index.toNat bytes) :
      OperatorForm types (.localSet index) (0x21 :: bytes)
  | localTee {index : UInt32} {bytes : Bytes} (form : UnsignedForm 32 index.toNat bytes) :
      OperatorForm types (.localTee index) (0x22 :: bytes)
  | i32Const {value : UInt32} {bytes : Bytes} (form : SignedForm 32 value.toInt32.toInt bytes) :
      OperatorForm types (.i32Const value) (0x41 :: bytes)
  | i64Const {value : UInt64} {bytes : Bytes} (form : SignedForm 64 value.toInt64.toInt bytes) :
      OperatorForm types (.i64Const value) (0x42 :: bytes)
  | f32Const (pattern : UInt32) :
      OperatorForm types (.f32Const pattern) (0x43 :: littleEndianBytes 4 pattern.toNat)
  | f64Const (pattern : UInt64) :
      OperatorForm types (.f64Const pattern) (0x44 :: littleEndianBytes 8 pattern.toNat)
  | truncSat {source : FloatWidth} {target : IntWidth} {signed : Bool} {bytes : Bytes}
      (form : UnsignedForm 32 (truncSatCode source target signed) bytes) :
      OperatorForm types (.truncSat source target signed) (0xFC :: bytes)

section Operators

variable {types : Array FuncType} {rest bytes : Bytes} {scope : BodyScope}

/-- A known value type is read back from its code. -/
theorem valueType_run {t : ValueType} (h : t.isKnown = true) :
    Decoder.valueType.run (t.code :: rest) = (.ok t, rest) := by
  cases t with
  | other code => cases h
  | _ => rfl

/-- An opcode without immediates is read as its operator. -/
theorem plain_run {op : Operator} {b : UInt8} (h : op.opcode = some b) :
    (Decoder.operator scope b).run rest = (.ok op, rest) := by
  cases op with
  -- The opcode of a family is that of its first member and the place in the family.
  | unreachable | nop | elseBlock | endBlock | ret | drop | select =>
    obtain rfl := Option.some.inj h
    rfl
  | eqz width =>
    obtain rfl := Option.some.inj h
    cases width <;> rfl
  | intCompare width op | floatCompare width op | bitCount width op | intBinary width op
  | shift width op | rotate width op | floatUnary width op | floatBinary width op =>
    obtain rfl := Option.some.inj h
    cases width <;> cases op <;> rfl
  | convert c =>
    obtain rfl := Option.some.inj h
    cases c with
    | wrap | demote | promote => rfl
    | extend signed => cases signed <;> rfl
    | trunc source target signed | convert source target signed =>
      cases source <;> cases target <;> cases signed <;> rfl
    | reinterpretAsInt width | reinterpretAsFloat width => cases width <;> rfl
  -- Only the widths that are less than that of the operand have an opcode.
  | signExtend width bits =>
    unfold Operator.opcode at h
    split at h <;> simp_all <;> subst_vars <;> rfl
  | _ => cases h

/-- The first byte of an index is not one of those that stand for a type. -/
private theorem mask_of_index (b : UInt8) (h : b.toNat < 64 ∨ 128 ≤ b.toNat) :
    (b == 0x40) = false ∧ (b &&& 0x40 != 0 && b &&& 0x80 == 0) = false := by
  -- Of the numbers below 256, those with the bit of 64 and without that of 128.
  have all : ∀ n < 256, n < 64 ∨ 128 ≤ n → ¬ n = 64 ∧ (¬ n &&& 64 = 0 → ¬ n &&& 128 = 0) := by
    decide +kernel
  have := all b.toNat b.toNat_lt h
  simpa [← UInt8.toNat_inj, UInt8.toNat_and] using this

/-- An index that is not negative does not start with a byte that stands for a type. -/
theorem SignedForm.first {width n : Nat} (h : SignedForm width n bytes) :
    ∃ b tail, bytes = b :: tail ∧ (b.toNat < 64 ∨ 128 ≤ b.toNat) := by
  generalize hn : (n : Int) = m at h
  cases h with
  | lastNonneg b group => exact ⟨b, [], rfl, .inl group⟩
  | lastNeg b group => omega
  | more b group => exact ⟨b, _, rfl, .inr group⟩

/-- The index of a block type is read with more bits than the format gives it. -/
theorem blockType_run_index {width n : Nat} {type : FuncType} (form : SignedForm width n bytes)
    (hpos : 0 < width) (hwidth : width ≤ 64) (entry : types[n]? = some type) :
    (Decoder.blockType types).run (bytes ++ rest) = (.ok type, rest) := by
  obtain ⟨b, tail, rfl, hb⟩ := form.first
  obtain ⟨hempty, hmask⟩ := mask_of_index b hb
  -- The first byte says that neither of the two short forms is meant.
  have hpeek : Decoder.peek.run (b :: tail ++ rest) = (.ok b, b :: tail ++ rest) := rfl
  refine (Decoder.run_bind_ok hpeek).trans ?_
  simp only [hempty, hmask, Bool.false_eq_true, if_false]
  refine (Decoder.run_bind_ok (signed_run form hpos hwidth)).trans ?_
  -- An index is not negative, as the decoder checks after reading it as an integer.
  have hcheck : (Decoder.check (0 ≤ (n : Int))).run rest = (.ok (), rest) := by
    simp [Decoder.check, Decoder.ofExcept, require]
  refine (Decoder.run_bind_ok hcheck).trans ?_
  simp [entry]

/-- A block type is read back, whatever follows it. -/
theorem blockType_run {type : FuncType} (h : BlockTypeForm types type bytes) :
    (Decoder.blockType types).run (bytes ++ rest) = (.ok type, rest) := by
  cases h with
  | empty => rfl
  | result t known =>
    cases t with
    | other code => cases known
    | _ => rfl
  | index form entry => exact blockType_run_index form (by decide) (by decide) entry

/-- The local that an operator refers to. -/
def Operator.localIndex? : Operator → Option UInt32
  | localGet index | localSet index | localTee index => some index
  | _ => none

private theorem localIndex_run {index : UInt32} (form : UnsignedForm 32 index.toNat bytes)
    (h : index.toNat < scope.localCount) :
    (Decoder.localIndex scope).run (bytes ++ rest) = (.ok index, rest) := by
  refine (Decoder.run_bind_ok (u32_run form)).trans ?_
  have hcheck : (Decoder.check (index.toNat < scope.localCount)).run rest = (.ok (), rest) := by
    simp [Decoder.check, Decoder.ofExcept, require, h]
  exact (Decoder.run_bind_ok hcheck).trans rfl

/-- A saturating conversion is read back from its number. -/
private theorem truncSat_run {source : FloatWidth} {target : IntWidth} {signed : Bool}
    (form : UnsignedForm 32 (truncSatCode source target signed) bytes) :
    Decoder.miscOperator.run (bytes ++ rest) = (.ok (.truncSat source target signed), rest) := by
  -- The number is written as an index, and the decoder compares it as a word.
  have hlt : truncSatCode source target signed < UInt32.size := form.lt
  have hsub : (UInt32.ofNat (truncSatCode source target signed)).toNat =
      truncSatCode source target signed := UInt32.toNat_ofNat_of_lt' hlt
  rw [← hsub] at form
  refine (Decoder.run_bind_ok (u32_run form)).trans ?_
  cases source <;> cases target <;> cases signed <;> rfl

/-- An operator is read back, if the local that it refers to exists. -/
theorem operator_run {op : Operator} (h : OperatorForm scope.types op bytes)
    (hlocal : ∀ index, op.localIndex? = some index → index.toNat < scope.localCount) :
    ∃ opcode immediates, bytes = opcode :: immediates ∧
      ∀ rest, (Decoder.operator scope opcode).run (immediates ++ rest) = (.ok op, rest) := by
  cases h with
  -- The opcode of the operator comes first, and then what its immediates are read as.
  | plain opcode => exact ⟨_, [], rfl, fun rest => plain_run opcode⟩
  | block form => exact ⟨_, _, rfl, fun rest => Decoder.run_bind_ok (blockType_run form)⟩
  | loop form => exact ⟨_, _, rfl, fun rest => Decoder.run_bind_ok (blockType_run form)⟩
  | ifBlock form => exact ⟨_, _, rfl, fun rest => Decoder.run_bind_ok (blockType_run form)⟩
  | br form => exact ⟨_, _, rfl, fun rest => Decoder.run_bind_ok (u32_run form)⟩
  -- The count of types comes first, and it is one.
  | @selectTyped t bytes one known =>
    refine ⟨0x1C, bytes ++ [t.code], rfl, fun rest => ?_⟩
    rw [List.append_assoc]
    refine (Decoder.run_bind_ok (u32_run (n := 1) one)).trans ?_
    exact Decoder.run_bind_ok (valueType_run known)
  | localGet form =>
    exact ⟨_, _, rfl, fun rest => Decoder.run_bind_ok (localIndex_run form (hlocal _ rfl))⟩
  | localSet form =>
    exact ⟨_, _, rfl, fun rest => Decoder.run_bind_ok (localIndex_run form (hlocal _ rfl))⟩
  | localTee form =>
    exact ⟨_, _, rfl, fun rest => Decoder.run_bind_ok (localIndex_run form (hlocal _ rfl))⟩
  | i32Const form => exact ⟨_, _, rfl, fun rest => Decoder.run_bind_ok (s32_run form)⟩
  | i64Const form => exact ⟨_, _, rfl, fun rest => Decoder.run_bind_ok (s64_run form)⟩
  | f32Const pattern =>
    refine ⟨_, _, rfl, fun rest => ?_⟩
    refine (Decoder.run_bind_ok (littleEndian_run pattern.toNat_lt)).trans ?_
    rw [UInt32.ofNat_toNat]
    rfl
  | f64Const pattern =>
    refine ⟨_, _, rfl, fun rest => ?_⟩
    refine (Decoder.run_bind_ok (littleEndian_run pattern.toNat_lt)).trans ?_
    rw [UInt64.ofNat_toNat]
    rfl
  | truncSat form => exact ⟨_, _, rfl, fun rest => truncSat_run form⟩

end Operators

/-! ## Bodies -/

/-- The forms of a run of locals. -/
inductive LocalRunForm : LocalRun → Bytes → Prop where
  | mk {run : LocalRun} {bytes : Bytes} (form : UnsignedForm 32 run.count.toNat bytes)
      (known : run.type.isKnown = true) : LocalRunForm run (bytes ++ [run.type.code])

/-- The forms of a body with given runs of locals and operators. -/
inductive BodyForm (types : Array FuncType) : List LocalRun → List Operator → Bytes → Prop where
  | mk {runs : List LocalRun} {ops : List Operator} {count : Bytes} {locals code : List Bytes}
      (number : UnsignedForm 32 runs.length count)
      (declared : List.Forall₂ LocalRunForm runs locals)
      (operators : List.Forall₂ (OperatorForm types) ops code) :
      BodyForm types runs ops (count ++ (locals.flatten ++ code.flatten))

section Locals

variable {rest : Bytes}

/-- The number of locals that runs declare. -/
def declaredLocals (runs : List LocalRun) : Nat :=
  (runs.map (·.count.toNat)).sum

section Words

variable {declared count : UInt32}

/-- What was declared is within the limit, so the room that it leaves is a difference of natural
    numbers. -/
theorem le_room_iff (few : declared.toNat ≤ maxLocals) :
    count ≤ UInt32.ofNat maxLocals - declared ↔ declared.toNat + count.toNat ≤ maxLocals := by
  have hlimit : (UInt32.ofNat maxLocals).toNat = maxLocals := by decide
  have hle : declared ≤ UInt32.ofNat maxLocals := by rwa [UInt32.le_iff_toNat_le, hlimit]
  rw [UInt32.le_iff_toNat_le, UInt32.toNat_sub_of_le _ _ hle, hlimit]
  omega

/-- A total within the limit does not wrap around. -/
theorem toNat_add_of_le_maxLocals (few : declared.toNat + count.toNat ≤ maxLocals) :
    (declared + count).toNat = declared.toNat + count.toNat := by
  have hlt : maxLocals < 2 ^ 32 := by decide
  rw [UInt32.toNat_add, Nat.mod_eq_of_lt (by omega)]

end Words

/-- A run of locals is read back if there are not too many. -/
private theorem localRun_run {run : LocalRun} {bytes : Bytes} {declared : UInt32}
    (h : LocalRunForm run bytes) (few : declared.toNat + run.count.toNat ≤ maxLocals) :
    (Decoder.localRun declared).run (bytes ++ rest) = (.ok run, rest) := by
  cases h with
  | @mk bytes form known =>
    rw [List.append_assoc]
    refine (Decoder.run_bind_ok (u32_run form)).trans ?_
    refine (Decoder.run_bind_ok (valueType_run known)).trans ?_
    -- The counts are compared in a way that does not overflow.
    have hroom : run.count ≤ UInt32.ofNat maxLocals - declared :=
      (le_room_iff (by omega)).2 few
    have hcheck : (Decoder.check (run.count ≤ UInt32.ofNat maxLocals - declared)).run rest =
        (.ok (), rest) := by
      simp [Decoder.check, Decoder.ofExcept, require, hroom]
    exact (Decoder.run_bind_ok hcheck).trans rfl

/-- The declaration of locals is read back if there are not too many. -/
theorem localRuns_run {runs : List LocalRun} {count : Bytes} {locals : List Bytes}
    (hcount : UnsignedForm 32 runs.length count)
    (hlocals : List.Forall₂ LocalRunForm runs locals) (few : declaredLocals runs ≤ maxLocals) :
    Decoder.localRuns.run (count ++ (locals.flatten ++ rest)) = (.ok runs, rest) := by
  -- The limit is on the locals of all runs together, so the induction carries those declared so
  -- far.
  have hfrom : ∀ declared : UInt32, declared.toNat + declaredLocals runs ≤ maxLocals →
      (Decoder.localRunsFrom runs.length declared).run (locals.flatten ++ rest) =
        (.ok runs, rest) := by
    clear hcount few
    induction hlocals with
    | nil => exact fun declared _ => rfl
    | @cons run bytes runs locals hrun hruns ih =>
      intro declared few
      simp only [declaredLocals, List.map_cons, List.sum_cons] at few ih
      rw [List.flatten_cons, List.append_assoc]
      refine (Decoder.run_bind_ok (localRun_run hrun (by omega))).trans ?_
      have htotal := @toNat_add_of_le_maxLocals declared run.count (by omega)
      exact (Decoder.run_bind_ok (ih _ (by omega))).trans rfl
  -- The number of runs is written as an index, so it does not wrap around.
  have hlength : (UInt32.ofNat runs.length).toNat = runs.length :=
    UInt32.toNat_ofNat_of_lt' hcount.lt
  rw [← hlength] at hcount
  refine (Decoder.run_bind_ok (u32_run hcount)).trans ?_
  rw [hlength]
  exact hfrom 0 (by simpa using few)

end Locals

end WasmLowering
