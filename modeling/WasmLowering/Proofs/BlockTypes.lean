import WasmLowering.Proofs.IntegerFormat
import WasmLowering.Proofs.Soundness

/-!
# Block types

The type of a block is one byte, or the index of a function type. The format writes this index as an
integer of 33 bits, in at most five groups. It is read as an integer of 64 bits, so that groups may
follow which only repeat the sign. Apart from these longer forms of an index, the forms of the
format are exactly what is read.

## Key results

- `SignedForm.narrow_iff`: which integers of 64 bits are written as ones of 33 bits
- `BlockTypeForm.not_wide`: a form of the format is no wide index
- `blockType_run_iff`: what is read as a block type
- `block_types_read_or_wide`: the forms of the format, and what is read beyond them
-/

namespace WasmLowering

section Widths

variable {width other : Nat} {bytes : Bytes}

/-- The bytes determine the integer, whatever its width. -/
theorem SignedForm.unique {n m : Int} (h : SignedForm width n bytes) (h' : SignedForm other m bytes)
    (hpos : 0 < width) (hpos' : 0 < other) : n = m := by
  obtain ⟨-, -, hn, -⟩ := (signedForm_iff hpos).1 h
  obtain ⟨-, -, hm, -⟩ := (signedForm_iff hpos').1 h'
  rw [hn, hm]

/-- An integer of 64 bits is written as one of 33 bits if it has at most five groups and is
    small. -/
theorem SignedForm.narrow_iff {n : Nat} (h : SignedForm 64 n bytes) :
    SignedForm 33 n bytes ↔ bytes.length ≤ 5 ∧ n < 2 ^ 32 := by
  obtain ⟨grouped, -, hvalue, -⟩ := (signedForm_iff (by decide)).1 h
  rw [signedForm_iff (by decide)]
  constructor
  · rintro ⟨-, hlength, -, -, hlt⟩
    exact ⟨hlength, by exact_mod_cast hlt⟩
  · rintro ⟨hlength, hlt⟩
    exact ⟨grouped, hlength, hvalue, by omega, by exact_mod_cast hlt⟩

end Widths

/-- The index of a type in a form that no integer of 33 bits has. -/
def WideIndex (types : Array FuncType) (type : FuncType) (bytes : Bytes) : Prop :=
  ∃ n : Nat, SignedForm 64 n bytes ∧ types[n]? = some type ∧ (5 < bytes.length ∨ 2 ^ 32 ≤ n)

section BlockTypes

variable {types : Array FuncType} {type : FuncType} {input bytes rest : Bytes}

/-- What is read as a block type is a form of it or an index of it of 64 bits. -/
private theorem sound_blockType : (Decoder.blockType types).Sound fun type bytes =>
    BlockTypeForm types type bytes ∨
      ∃ n : Nat, SignedForm 64 n bytes ∧ types[n]? = some type := by
  intro input rest type h
  cases input with
  | nil => simp [Decoder.blockType, Decoder.run_bind, Decoder.peek] at h
  | cons b tail =>
    obtain ⟨c, mid, hpeek, htype⟩ := Decoder.run_bind_eq_ok.1 h
    obtain ⟨hc, rfl⟩ := Prod.mk.inj hpeek
    obtain rfl : b = c := Except.ok.inj hc
    split at htype
    -- No result: one byte.
    · next hb =>
      obtain ⟨_, hbyte, rfl⟩ := Decoder.run_bind_pure_eq_ok htype
      obtain ⟨-, rfl⟩ := List.cons.inj (Decoder.byte_run hbyte)
      obtain rfl : b = 0x40 := by simpa using hb
      exact ⟨[0x40], rfl, .inl .empty⟩
    split at htype
    -- One result: the byte of its type.
    · obtain ⟨t, ht, rfl⟩ := Decoder.run_bind_pure_eq_ok htype
      obtain ⟨bytes, hbytes, rfl, known⟩ := Decoder.sound_valueType ht
      exact ⟨[t.code], hbytes, .inl (.result t known)⟩
    -- An index, which is read as an integer of 64 bits.
    · obtain ⟨n, _, hn, hindex⟩ := Decoder.run_bind_eq_ok.1 htype
      obtain ⟨bytes, hbytes, form⟩ := (signed_run_iff (by decide)).1 hn
      obtain ⟨_, _, hcheck, hentry⟩ := Decoder.run_bind_eq_ok.1 hindex
      obtain ⟨hnonneg, rfl⟩ := Decoder.check_run hcheck
      have hcast : (n.toNat : Int) = n := Int.toNat_of_nonneg (by simpa using hnonneg)
      split at hentry
      · simp [Decoder.fail] at hentry
      · next entry =>
        obtain ⟨rfl, rfl⟩ := Decoder.pure_run hentry
        exact ⟨bytes, hbytes, .inr ⟨n.toNat, hcast ▸ form, entry⟩⟩

/-- A form of a block type has five bytes at most. -/
theorem BlockTypeForm.length_le (h : BlockTypeForm types type bytes) : bytes.length ≤ 5 := by
  cases h with
  | empty => decide
  | result t known => simp
  | index form entry => exact ((signedForm_iff (by decide)).1 form).2.1

/-- No form of a block type is a wide index, not even of another type. -/
theorem BlockTypeForm.not_wide {other : FuncType} (h : BlockTypeForm types type bytes) :
    ¬ WideIndex types other bytes := by
  rintro ⟨n, form, -, hwide⟩
  -- The single bytes of the format would be negative integers, which are no indices.
  obtain ⟨b, tail, hbytes, hb⟩ := form.first
  cases h with
  | empty =>
    obtain ⟨rfl, rfl⟩ := List.cons.inj hbytes
    exact absurd hb (by decide)
  | result t known =>
    obtain ⟨rfl, rfl⟩ := List.cons.inj hbytes
    cases t with
    | other code => cases known
    | _ => exact absurd hb (by decide)
  | index narrow entry =>
    obtain rfl := Int.ofNat.inj (narrow.unique form (by decide) (by decide))
    have := form.narrow_iff.1 narrow
    omega

/-- A wide index has at least one byte. -/
theorem WideIndex.ne_nil (h : WideIndex types type bytes) : bytes ≠ [] := by
  obtain ⟨n, form, -, -⟩ := h
  obtain ⟨b, tail, rfl, -⟩ := form.first
  simp

/-- A block type is read from its forms and from its wide indices, and from nothing else. -/
theorem blockType_run_iff :
    (Decoder.blockType types).run input = (.ok type, rest) ↔
      ∃ bytes, input = bytes ++ rest ∧
        (BlockTypeForm types type bytes ∨ WideIndex types type bytes) := by
  constructor
  · intro h
    obtain ⟨bytes, rfl, form | ⟨n, form, entry⟩⟩ := sound_blockType h
    · exact ⟨bytes, rfl, .inl form⟩
    · -- An index is one of the format or a wider one.
      by_cases hnarrow : bytes.length ≤ 5 ∧ n < 2 ^ 32
      · exact ⟨bytes, rfl, .inl (.index (form.narrow_iff.2 hnarrow) entry)⟩
      · exact ⟨bytes, rfl, .inr ⟨n, form, entry, by omega⟩⟩
  · rintro ⟨bytes, rfl, form | ⟨n, form, entry, -⟩⟩
    · exact blockType_run form
    · exact blockType_run_index form (by decide) (by decide) entry

end BlockTypes

/-- For every table of types and every input, a block type is read exactly if the input begins with
    a form of it in the format or with an index of it that is wider, and exactly this form is
    consumed. So the reader agrees with the format on exactly those inputs that do not begin with an
    index which has more than five groups or is no integer of 33 bits. -/
theorem block_types_read_or_wide (types : Array FuncType) (input : Bytes) :
    (∀ type rest, (Decoder.blockType types).run input = (.ok type, rest) ↔
      ∃ bytes, input = bytes ++ rest ∧
        (BlockTypeForm types type bytes ∨ WideIndex types type bytes)) ∧
    ((∀ type rest, (Decoder.blockType types).run input = (.ok type, rest) ↔
      ∃ bytes, input = bytes ++ rest ∧ BlockTypeForm types type bytes) ↔
        ∀ type bytes rest, input = bytes ++ rest → ¬ WideIndex types type bytes) := by
  refine ⟨fun type rest => blockType_run_iff, ?_, ?_⟩
  · rintro agrees type bytes rest rfl wide
    have hrun : (Decoder.blockType types).run (bytes ++ rest) = (.ok type, rest) :=
      blockType_run_iff.2 ⟨bytes, rfl, .inr wide⟩
    -- The same bytes would have to be a form of the format.
    obtain ⟨form, heq, hform⟩ := (agrees type rest).1 hrun
    obtain rfl := List.append_cancel_right heq
    exact hform.not_wide wide
  · intro narrow type rest
    rw [blockType_run_iff]
    constructor
    · rintro ⟨bytes, hinput, form | wide⟩
      · exact ⟨bytes, hinput, form⟩
      · exact absurd wide (narrow type bytes rest hinput)
    · rintro ⟨bytes, hinput, form⟩
      exact ⟨bytes, hinput, .inl form⟩

/-- Zero in six groups is read as the index of the first type, and no form of a block type stands at
    the beginning of it. -/
theorem padded_index_read :
    (Decoder.blockType #[{}]).run [0x80, 0x80, 0x80, 0x80, 0x80, 0x00] = (.ok {}, []) ∧
      ¬ ∃ type bytes rest, ([0x80, 0x80, 0x80, 0x80, 0x80, 0x00] : Bytes) = bytes ++ rest ∧
        BlockTypeForm #[{}] type bytes := by
  have hrun : (Decoder.blockType #[{}]).run [0x80, 0x80, 0x80, 0x80, 0x80, 0x00] =
      (.ok {}, []) := by
    decide +kernel
  refine ⟨hrun, ?_⟩
  rintro ⟨type, bytes, rest, hinput, form⟩
  -- A form would be read as a whole, but no form has six bytes.
  have hread : (Decoder.blockType #[{}]).run (bytes ++ rest) = (.ok type, rest) :=
    blockType_run form
  rw [← hinput, hrun] at hread
  obtain rfl : [] = rest := (Prod.mk.inj hread).2
  rw [List.append_nil] at hinput
  exact absurd form.length_le (by simp [← hinput])

end WasmLowering
