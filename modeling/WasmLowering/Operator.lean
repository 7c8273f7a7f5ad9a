import WasmLowering.ValueType

/-!
# Operators

The operators of function bodies that can be lowered, with their immediates decoded: a block type is
the parameters and results it stands for. A loop has no parameters, so its type is its results.
-/

namespace WasmLowering

/-- The width of an integer operation. -/
inductive IntWidth where
  | w32
  | w64
  deriving Repr, DecidableEq

/-- The value type of a width. -/
def IntWidth.type : IntWidth → ValueType
  | w32 => .i32
  | w64 => .i64

/-- The number of bits of a width. -/
def IntWidth.bits : IntWidth → Nat
  | w32 => 32
  | w64 => 64

/-- The width of a float operation. -/
inductive FloatWidth where
  | w32
  | w64
  deriving Repr, DecidableEq

/-- The value type of a width. -/
def FloatWidth.type : FloatWidth → ValueType
  | w32 => .f32
  | w64 => .f64

/-- A comparison of two integers. -/
inductive IntComparison where
  | eq | ne | ltS | ltU | gtS | gtU | leS | leU | geS | geU
  deriving Repr, DecidableEq

/-- A comparison of two floats. -/
inductive FloatComparison where
  | eq | ne | lt | gt | le | ge
  deriving Repr, DecidableEq

/-- A count of the bits of an integer. -/
inductive BitCount where
  | clz | ctz | popcnt
  deriving Repr, DecidableEq

/-- An operation on two integers. -/
inductive IntBinary where
  | add | sub | mul | divS | divU | remS | remU | and | or | xor
  deriving Repr, DecidableEq

/-- A shift. -/
inductive Shift where
  | shl | shrS | shrU
  deriving Repr, DecidableEq

/-- A rotation. -/
inductive Rotation where
  | rotl | rotr
  deriving Repr, DecidableEq

/-- An operation on one float. -/
inductive FloatUnary where
  | abs | neg | ceil | floor | trunc | nearest | sqrt
  deriving Repr, DecidableEq

/-- An operation on two floats. -/
inductive FloatBinary where
  | add | sub | mul | div | min | max | copysign
  deriving Repr, DecidableEq

/-- A conversion between number types. -/
inductive Conversion where
  /-- A 64-bit integer to 32 bits. -/
  | wrap
  /-- A 32-bit integer to 64 bits. -/
  | extend (signed : Bool)
  /-- A float to an integer, which traps out of range. -/
  | trunc (source : FloatWidth) (target : IntWidth) (signed : Bool)
  /-- An integer to a float. -/
  | convert (source : IntWidth) (target : FloatWidth) (signed : Bool)
  /-- A 64-bit float to 32 bits. -/
  | demote
  /-- A 32-bit float to 64 bits. -/
  | promote
  /-- The bits of a float as an integer. -/
  | reinterpretAsInt (width : IntWidth)
  /-- The bits of an integer as a float. -/
  | reinterpretAsFloat (width : FloatWidth)
  deriving Repr, DecidableEq

/-- The type that a conversion gives. -/
def Conversion.target : Conversion → ValueType
  | wrap => .i32
  | extend _ => .i64
  | trunc _ target _ => target.type
  | convert _ target _ => target.type
  | demote => .f32
  | promote => .f64
  | reinterpretAsInt width => width.type
  | reinterpretAsFloat width => width.type

/-- An operator of a function body. -/
inductive Operator where
  | unreachable
  | nop
  | block (type : FuncType)
  | loop (results : List ValueType)
  | ifBlock (type : FuncType)
  | elseBlock
  | endBlock
  | br (depth : UInt32)
  | ret
  | drop
  | select
  /-- A selection that names the type of its operands. -/
  | selectTyped (type : ValueType)
  | localGet (index : UInt32)
  | localSet (index : UInt32)
  | localTee (index : UInt32)
  | i32Const (value : UInt32)
  | i64Const (value : UInt64)
  | f32Const (pattern : UInt32)
  | f64Const (pattern : UInt64)
  | eqz (width : IntWidth)
  | intCompare (width : IntWidth) (op : IntComparison)
  | floatCompare (width : FloatWidth) (op : FloatComparison)
  | bitCount (width : IntWidth) (op : BitCount)
  | intBinary (width : IntWidth) (op : IntBinary)
  | shift (width : IntWidth) (op : Shift)
  | rotate (width : IntWidth) (op : Rotation)
  | floatUnary (width : FloatWidth) (op : FloatUnary)
  | floatBinary (width : FloatWidth) (op : FloatBinary)
  | convert (conversion : Conversion)
  /-- Copies the sign of the lowest `bits` bits to all bits above. -/
  | signExtend (width : IntWidth) (bits : Nat)
  /-- A float to the nearest integer in range. -/
  | truncSat (source : FloatWidth) (target : IntWidth) (signed : Bool)
  deriving Repr, DecidableEq

end WasmLowering
