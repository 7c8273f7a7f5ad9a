import WasmLowering.Leb128

/-!
# Value types

The types of operands, locals, parameters and results. A module that was decoded holds known types
only; a table that is filled by hand may hold any code, which is then kept as it is.
-/

namespace WasmLowering

/-- The type of a value, given by a one-byte code. -/
inductive ValueType where
  | i32
  | i64
  | f32
  | f64
  | v128
  | funcref
  | externref
  /-- A code that is no value type. -/
  | other (code : UInt8)
  deriving Repr, DecidableEq, Inhabited

namespace ValueType

/-- The type with a given code. -/
def ofCode : UInt8 → ValueType
  | 0x7F => .i32
  | 0x7E => .i64
  | 0x7D => .f32
  | 0x7C => .f64
  | 0x7B => .v128
  | 0x70 => .funcref
  | 0x6F => .externref
  | code => .other code

/-- The code of a type. -/
def code : ValueType → UInt8
  | i32 => 0x7F
  | i64 => 0x7E
  | f32 => 0x7D
  | f64 => 0x7C
  | v128 => 0x7B
  | funcref => 0x70
  | externref => 0x6F
  | other code => code

/-- Every code is kept. -/
theorem code_ofCode (c : UInt8) : (ofCode c).code = c := by
  unfold ofCode
  split <;> rfl

/-- Whether the code of a type is one of the seven known ones. -/
def isKnown : ValueType → Bool
  | other _ => false
  | _ => true

/-- Whether values of the type are numbers. -/
def isNumeric : ValueType → Bool
  | i32 | i64 | f32 | f64 => true
  | _ => false

/-- Whether values of the type are vectors. -/
def isVector : ValueType → Bool
  | v128 => true
  | _ => false

/-- Whether values of the type are references. -/
def isReference : ValueType → Bool
  | funcref | externref => true
  | _ => false

/-- Reference types are known. -/
theorem isKnown_of_isReference {t : ValueType} (h : t.isReference = true) : t.isKnown = true := by
  cases t with
  | funcref | externref => rfl
  | _ => cases h

/-- The name of a type; a question mark for an unknown one. -/
def name : ValueType → String
  | i32 => "i32"
  | i64 => "i64"
  | f32 => "f32"
  | f64 => "f64"
  | v128 => "v128"
  | funcref => "funcref"
  | externref => "externref"
  | other _ => "?"

/-- The type with a given code, which has to be a known one. -/
def ofKnownCode (code : UInt8) : Except Fault ValueType :=
  let t := ofCode code
  if t.isKnown then .ok t else .error (.of (.valueType code))

end ValueType

/-- The parameters and the results of a function or of a block. -/
structure FuncType where
  params : List ValueType := []
  results : List ValueType := []
  deriving Repr, DecidableEq, Inhabited

namespace Decoder

/-- A known value type. -/
def valueType : Decoder ValueType := do
  ofExcept (ValueType.ofKnownCode (← byte))

/-- A reference type. -/
def referenceType : Decoder ValueType := do
  let t ← valueType
  check t.isReference
  return t

/-- Value types behind their number, which may not exceed the number of bytes that are left. -/
def valueTypes : Decoder (List ValueType) := do
  let count ← u32
  check (count.toNat ≤ (← remaining))
  replicate valueType count.toNat

end Decoder

end WasmLowering
