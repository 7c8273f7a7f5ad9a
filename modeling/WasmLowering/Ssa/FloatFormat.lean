/-!
# Bit patterns of whole numbers

A binary floating-point format has a sign bit, an exponent field and a fraction field. The bounds of
a checked conversion are whole numbers that such a format represents exactly; this file gives their
bit patterns.
-/

namespace WasmLowering.Ssa

/-- A binary floating-point format with an implicit leading bit. -/
structure FloatFormat where
  exponentBits : Nat
  fractionBits : Nat
  deriving Repr, DecidableEq

namespace FloatFormat

/-- The format with 32 bits. -/
def single : FloatFormat :=
  ⟨8, 23⟩

/-- The format with 64 bits. -/
def double : FloatFormat :=
  ⟨11, 52⟩

/-- What is added to an exponent before it is stored. -/
def bias (f : FloatFormat) : Nat :=
  Nat.pow 2 (f.exponentBits - 1) - 1

/-- The bit pattern of a whole number that the format represents exactly. -/
def ofInt (f : FloatFormat) (n : Int) : Nat :=
  if n = 0 then 0
  else
    let magnitude := n.natAbs
    let exponent := magnitude.log2
    let unit := Nat.pow 2 f.fractionBits
    let power := Nat.pow 2 exponent
    let sign := if n < 0 then Nat.pow 2 (f.exponentBits + f.fractionBits) else 0
    let fraction := (magnitude - power) * unit / power
    sign + (exponent + f.bias) * unit + fraction

end FloatFormat

end WasmLowering.Ssa
