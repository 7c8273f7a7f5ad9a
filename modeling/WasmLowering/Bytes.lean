/-!
# Byte strings

Names, messages and module images are byte strings. They need not be valid UTF-8, so they are lists
of bytes rather than `String`s. This file holds the type, the texts made of it (hexadecimal,
decimal) and the cut at the first zero byte that bounds every diagnostic text.
-/

namespace WasmLowering

/-- A byte string: a name, a message, or a piece of a binary module. -/
abbrev Bytes := List UInt8

/-- The digits of `n` in base sixteen, at least `width` of them, in lower case. -/
def hexDigits (width n : Nat) : String :=
  let digits := Nat.toDigits 16 n
  String.ofList (List.replicate (width - digits.length) '0' ++ digits)

/-- The decimal digits of `n`, at least `width` of them. -/
def decimalDigits (width n : Nat) : String :=
  let digits := Nat.toDigits 10 n
  String.ofList (List.replicate (width - digits.length) '0' ++ digits)

/-- A byte as `0x` and two hexadecimal digits. -/
def byteText (b : UInt8) : String :=
  "0x" ++ hexDigits 2 b.toNat

namespace Bytes

/-- The UTF-8 bytes of a text. -/
def ofString (s : String) : Bytes :=
  s.toUTF8.data.toList

/-- The decimal text of a natural number. -/
def ofNat (n : Nat) : Bytes :=
  ofString (decimalDigits 1 n)

/-- The decimal text of an integer, with a leading minus sign if it is negative. -/
def ofInt : Int → Bytes
  | .ofNat n => ofNat n
  | .negSucc n => ofString "-" ++ ofNat (n + 1)

/-- The part of a byte string before its first zero byte. -/
def untilNul (s : Bytes) : Bytes :=
  s.takeWhile (· != 0)

/-- Two lower-case hexadecimal digits for each byte. -/
def hex (s : Bytes) : String :=
  String.ofList (s.flatMap fun b => [Nat.digitChar (b.toNat / 16), Nat.digitChar (b.toNat % 16)])

end Bytes

end WasmLowering
