import WasmLowering.ValueType

/-!
# Native types

The types of the SSA form: integers of any width, two float types, and packed structures of these,
in which functions return more than one value. Vectors and references are kept in integers of a
suitable width.
-/

namespace WasmLowering.Ssa

/-- The type of a value that fits a register. -/
inductive ScalarType where
  | int (bits : Nat)
  | float
  | double
  deriving Repr, DecidableEq, Inhabited

/-- The type of a result. -/
inductive NativeType where
  | void
  | scalar (type : ScalarType)
  | packed (fields : List ScalarType)
  deriving Repr, DecidableEq, Inhabited

/-- The type of a function. -/
structure Signature where
  result : NativeType
  params : List ScalarType
  deriving Repr, DecidableEq, Inhabited

/-- The width of an integer type; zero for a float type. -/
def ScalarType.bits : ScalarType → Nat
  | int bits => bits
  | float | double => 0

end WasmLowering.Ssa

namespace WasmLowering

open Ssa

/-- The width of a reference on the machine that modules are lowered for. -/
def hostPointerBits : Nat := 64

/-- The native counterpart of a value type, where references take `pointerBits` bits. -/
def ValueType.scalar (pointerBits : Nat) : ValueType → Except Fault ScalarType
  | i32 => .ok (.int 32)
  | i64 => .ok (.int 64)
  | f32 => .ok .float
  | f64 => .ok .double
  | v128 => .ok (.int 128)
  | funcref | externref => .ok (.int pointerBits)
  | other _ => .error (.of .noNativeType)

/-- The structure that holds one value of each type. -/
def packedType (pointerBits : Nat) (ts : List ValueType) : Except Fault NativeType := do
  return .packed (← ts.mapM (ValueType.scalar pointerBits))

/-- What a function with these results returns: nothing, the value itself, or a structure. -/
def resultType (pointerBits : Nat) : List ValueType → Except Fault NativeType
  | [] => .ok .void
  | [t] => do return .scalar (← t.scalar pointerBits)
  | ts => packedType pointerBits ts

/-- The signature of a function type. -/
def FuncType.signature (pointerBits : Nat) (t : FuncType) : Except Fault Signature := do
  let params ← t.params.mapM (ValueType.scalar pointerBits)
  let result ← resultType pointerBits t.results
  return { result, params }

end WasmLowering
