import WasmLowering.Decoder

/-!
# LEB128 integers

An integer is written in groups of seven bits, the lowest first. Each group takes one byte, whose
high bit says that another group follows. A signed integer is the two's complement reading of its
groups.

A reader for integers of `width` bits puts the groups into a word of this width, one above the
other. The group that reaches the top of the word has to be the last one. The bits of it for which
the word has no room may only extend the value: they are zeros or, in a signed integer, copies of
its sign.
-/

namespace WasmLowering

namespace Leb128

/-- Whether the bits of a group above the lowest `room` ones only extend the value. -/
def fits (signed : Bool) (room group : Nat) : Bool :=
  if signed then
    let high := group >>> (room - 1)
    high == 0 || high == 0x7F >>> (room - 1)
  else group >>> room == 0

/-- Adds the groups at the front of the input to a word of which the lowest `shift` bits are there.
    There is no word if the input ends before the last group, or if the groups do not fit. -/
def read {width : Nat} (signed : Bool) (shift : Nat) (word : BitVec width) :
    Bytes → Option (BitVec width) × Bytes
  | [] => (none, [])
  | b :: rest =>
    let last : Bool := b < 0x80
    let group := (b &&& 0x7F).toNat
    if shift + 7 < width || last && fits signed (width - shift) group then
      let word := word ||| (BitVec.ofNat width group <<< shift)
      if last then
        -- The sign goes to the bits above the last group.
        if signed && 0x40 ≤ group && shift + 7 < width then
          (some (word ||| (BitVec.allOnes width <<< (shift + 7))), rest)
        else (some word, rest)
      else read signed (shift + 7) word rest
    else (none, rest)

/-- Reading groups leaves a suffix of the input. -/
theorem read_suffix {width : Nat} (signed : Bool) (shift : Nat) (word : BitVec width)
    (input : Bytes) : (read signed shift word input).2 <:+ input := by
  induction input generalizing shift word with
  | nil => exact List.suffix_refl []
  | cons b rest ih =>
    have hrest := List.suffix_cons b rest
    -- Each group is one byte, and the last group or a fault ends the reading.
    simp only [read]
    split
    · split
      · split <;> exact hrest
      · exact (ih _ _).trans hrest
    · exact hrest

end Leb128

namespace Decoder

/-- A word of `width` bits. -/
def word (signed : Bool) (width : Nat) : Decoder (BitVec width) where
  run input :=
    match Leb128.read signed 0 (0 : BitVec width) input with
    | (none, rest) => (.error .malformed, rest)
    | (some w, rest) => (.ok w, rest)
  suffix input := by
    have h := Leb128.read_suffix signed 0 (0 : BitVec width) input
    split
    · next rest hread => rwa [hread] at h
    · next w rest hread => rwa [hread] at h

/-- A natural number below `2 ^ width`. -/
def unsigned (width : Nat) : Decoder Nat := do
  return (← word false width).toNat

/-- An integer from `-2 ^ (width - 1)` up to, but not including, `2 ^ (width - 1)`. -/
def signed (width : Nat) : Decoder Int := do
  return (← word true width).toInt

/-- An unsigned 32-bit integer: an index, a count or a size. -/
def u32 : Decoder UInt32 := do
  return UInt32.ofNat (← unsigned 32)

/-- An unsigned 64-bit integer. -/
def u64 : Decoder UInt64 := do
  return UInt64.ofNat (← unsigned 64)

/-- A signed 32-bit integer, as its two's complement word. -/
def s32 : Decoder UInt32 := do
  return (Int32.ofInt (← signed 32)).toUInt32

/-- A signed 64-bit integer, as its two's complement word. -/
def s64 : Decoder UInt64 := do
  return (Int64.ofInt (← signed 64)).toUInt64

/-- A byte string behind its size. The size stays consumed if the bytes are missing. -/
def sized : Decoder Bytes := do
  take (← u32).toNat

end Decoder

end WasmLowering
