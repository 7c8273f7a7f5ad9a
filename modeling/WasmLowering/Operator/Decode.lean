import WasmLowering.Operator

/-!
# Decoding of operators

An operator is an opcode byte and its immediates. Immediates are checked as they are read: a block
type and a local have to exist, and a loop may not take parameters. An operator stream is what a
function body holds after its locals, read up to the `end` that closes the function.
-/

namespace WasmLowering

/-! ## Opcodes -/

/-- The operators without immediates, by opcode. -/
def plainOperators : List (UInt8 × Operator) :=
  [(0x00, .unreachable), (0x01, .nop), (0x05, .elseBlock), (0x0B, .endBlock), (0x0F, .ret),
    (0x1A, .drop), (0x1B, .select), (0x45, .eqz .w32), (0x46, .intCompare .w32 .eq),
    (0x47, .intCompare .w32 .ne), (0x48, .intCompare .w32 .ltS), (0x49, .intCompare .w32 .ltU),
    (0x4A, .intCompare .w32 .gtS), (0x4B, .intCompare .w32 .gtU), (0x4C, .intCompare .w32 .leS),
    (0x4D, .intCompare .w32 .leU), (0x4E, .intCompare .w32 .geS), (0x4F, .intCompare .w32 .geU),
    (0x50, .eqz .w64), (0x51, .intCompare .w64 .eq), (0x52, .intCompare .w64 .ne),
    (0x53, .intCompare .w64 .ltS), (0x54, .intCompare .w64 .ltU), (0x55, .intCompare .w64 .gtS),
    (0x56, .intCompare .w64 .gtU), (0x57, .intCompare .w64 .leS), (0x58, .intCompare .w64 .leU),
    (0x59, .intCompare .w64 .geS), (0x5A, .intCompare .w64 .geU), (0x5B, .floatCompare .w32 .eq),
    (0x5C, .floatCompare .w32 .ne), (0x5D, .floatCompare .w32 .lt), (0x5E, .floatCompare .w32 .gt),
    (0x5F, .floatCompare .w32 .le), (0x60, .floatCompare .w32 .ge), (0x61, .floatCompare .w64 .eq),
    (0x62, .floatCompare .w64 .ne), (0x63, .floatCompare .w64 .lt), (0x64, .floatCompare .w64 .gt),
    (0x65, .floatCompare .w64 .le), (0x66, .floatCompare .w64 .ge), (0x67, .bitCount .w32 .clz),
    (0x68, .bitCount .w32 .ctz), (0x69, .bitCount .w32 .popcnt), (0x6A, .intBinary .w32 .add),
    (0x6B, .intBinary .w32 .sub), (0x6C, .intBinary .w32 .mul), (0x6D, .intBinary .w32 .divS),
    (0x6E, .intBinary .w32 .divU), (0x6F, .intBinary .w32 .remS), (0x70, .intBinary .w32 .remU),
    (0x71, .intBinary .w32 .and), (0x72, .intBinary .w32 .or), (0x73, .intBinary .w32 .xor),
    (0x74, .shift .w32 .shl), (0x75, .shift .w32 .shrS), (0x76, .shift .w32 .shrU),
    (0x77, .rotate .w32 .rotl), (0x78, .rotate .w32 .rotr), (0x79, .bitCount .w64 .clz),
    (0x7A, .bitCount .w64 .ctz), (0x7B, .bitCount .w64 .popcnt), (0x7C, .intBinary .w64 .add),
    (0x7D, .intBinary .w64 .sub), (0x7E, .intBinary .w64 .mul), (0x7F, .intBinary .w64 .divS),
    (0x80, .intBinary .w64 .divU), (0x81, .intBinary .w64 .remS), (0x82, .intBinary .w64 .remU),
    (0x83, .intBinary .w64 .and), (0x84, .intBinary .w64 .or), (0x85, .intBinary .w64 .xor),
    (0x86, .shift .w64 .shl), (0x87, .shift .w64 .shrS), (0x88, .shift .w64 .shrU),
    (0x89, .rotate .w64 .rotl), (0x8A, .rotate .w64 .rotr), (0x8B, .floatUnary .w32 .abs),
    (0x8C, .floatUnary .w32 .neg), (0x8D, .floatUnary .w32 .ceil), (0x8E, .floatUnary .w32 .floor),
    (0x8F, .floatUnary .w32 .trunc), (0x90, .floatUnary .w32 .nearest),
    (0x91, .floatUnary .w32 .sqrt), (0x92, .floatBinary .w32 .add), (0x93, .floatBinary .w32 .sub),
    (0x94, .floatBinary .w32 .mul), (0x95, .floatBinary .w32 .div), (0x96, .floatBinary .w32 .min),
    (0x97, .floatBinary .w32 .max), (0x98, .floatBinary .w32 .copysign),
    (0x99, .floatUnary .w64 .abs), (0x9A, .floatUnary .w64 .neg), (0x9B, .floatUnary .w64 .ceil),
    (0x9C, .floatUnary .w64 .floor), (0x9D, .floatUnary .w64 .trunc),
    (0x9E, .floatUnary .w64 .nearest), (0x9F, .floatUnary .w64 .sqrt),
    (0xA0, .floatBinary .w64 .add), (0xA1, .floatBinary .w64 .sub), (0xA2, .floatBinary .w64 .mul),
    (0xA3, .floatBinary .w64 .div), (0xA4, .floatBinary .w64 .min), (0xA5, .floatBinary .w64 .max),
    (0xA6, .floatBinary .w64 .copysign), (0xA7, .convert .wrap),
    (0xA8, .convert (.trunc .w32 .w32 true)), (0xA9, .convert (.trunc .w32 .w32 false)),
    (0xAA, .convert (.trunc .w64 .w32 true)), (0xAB, .convert (.trunc .w64 .w32 false)),
    (0xAC, .convert (.extend true)), (0xAD, .convert (.extend false)),
    (0xAE, .convert (.trunc .w32 .w64 true)), (0xAF, .convert (.trunc .w32 .w64 false)),
    (0xB0, .convert (.trunc .w64 .w64 true)), (0xB1, .convert (.trunc .w64 .w64 false)),
    (0xB2, .convert (.convert .w32 .w32 true)), (0xB3, .convert (.convert .w32 .w32 false)),
    (0xB4, .convert (.convert .w64 .w32 true)), (0xB5, .convert (.convert .w64 .w32 false)),
    (0xB6, .convert .demote), (0xB7, .convert (.convert .w32 .w64 true)),
    (0xB8, .convert (.convert .w32 .w64 false)), (0xB9, .convert (.convert .w64 .w64 true)),
    (0xBA, .convert (.convert .w64 .w64 false)), (0xBB, .convert .promote),
    (0xBC, .convert (.reinterpretAsInt .w32)), (0xBD, .convert (.reinterpretAsInt .w64)),
    (0xBE, .convert (.reinterpretAsFloat .w32)), (0xBF, .convert (.reinterpretAsFloat .w64)),
    (0xC0, .signExtend .w32 8), (0xC1, .signExtend .w32 16), (0xC2, .signExtend .w64 8),
    (0xC3, .signExtend .w64 16), (0xC4, .signExtend .w64 32)]

/-- The names of operators that are known but not lowered, by opcode. -/
def unsupportedOperators : List (UInt8 × String) :=
  [(0x06, "try_block"), (0x07, "catch_block"), (0x08, "throw_exc"), (0x09, "rethrow"),
    (0x0A, "throw_ref"), (0x0D, "br_if"), (0x0E, "br_table"), (0x10, "call"),
    (0x11, "call_indirect"), (0x12, "return_call"), (0x13, "return_call_indirect"),
    (0x14, "call_ref"), (0x15, "return_call_ref"), (0x18, "delegate"), (0x19, "catch_all"),
    (0x1F, "try_table"), (0x23, "global_get"), (0x24, "global_set"), (0x25, "table_get"),
    (0x26, "table_set"), (0x28, "i32_load"), (0x29, "i64_load"), (0x2A, "f32_load"),
    (0x2B, "f64_load"), (0x2C, "i32_load8_s"), (0x2D, "i32_load8_u"), (0x2E, "i32_load16_s"),
    (0x2F, "i32_load16_u"), (0x30, "i64_load8_s"), (0x31, "i64_load8_u"), (0x32, "i64_load16_s"),
    (0x33, "i64_load16_u"), (0x34, "i64_load32_s"), (0x35, "i64_load32_u"), (0x36, "i32_store"),
    (0x37, "i64_store"), (0x38, "f32_store"), (0x39, "f64_store"), (0x3A, "i32_store8"),
    (0x3B, "i32_store16"), (0x3C, "i64_store8"), (0x3D, "i64_store16"), (0x3E, "i64_store32"),
    (0x3F, "memory_size"), (0x40, "memory_grow"), (0xD0, "ref_null"), (0xD1, "ref_is_null"),
    (0xD2, "ref_func"), (0xD3, "ref_eq"), (0xD4, "ref_as_non_null"), (0xD5, "br_on_null"),
    (0xD6, "br_on_non_null"), (0xFB, "prefix_gc"), (0xFD, "prefix_simd"), (0xFE, "prefix_atomic")]

/-! ## Immediates -/

/-- What the immediates of a body may refer to. -/
structure BodyScope where
  types : Array FuncType
  /-- The number of parameters and locals. -/
  localCount : Nat

namespace Decoder

/-- A block type: nothing, one result, or the index of a function type. -/
def blockType (types : Array FuncType) : Decoder FuncType := do
  let b ← peek
  if b == 0x40 then
    let _ ← byte
    return {}
  else if b &&& 0x40 != 0 && b &&& 0x80 == 0 then
    return { results := [← valueType] }
  else
    let index ← signed 64
    check (0 ≤ index)
    match types[index.toNat]? with
    | none => fail .malformed
    | some type => return type

/-- The index of a parameter or local. -/
def localIndex (scope : BodyScope) : Decoder UInt32 := do
  let index ← u32
  check (index.toNat < scope.localCount)
  return index

/-- The operator behind the miscellaneous escape byte. -/
def miscOperator : Decoder Operator := do
  let sub ← u32
  match sub with
  | 0 => return .truncSat .w32 .w32 true
  | 1 => return .truncSat .w32 .w32 false
  | 2 => return .truncSat .w64 .w32 true
  | 3 => return .truncSat .w64 .w32 false
  | 4 => return .truncSat .w32 .w64 true
  | 5 => return .truncSat .w32 .w64 false
  | 6 => return .truncSat .w64 .w64 true
  | 7 => return .truncSat .w64 .w64 false
  | _ => fail (.of (if sub ≤ 17 then .bulkMemory sub else .unknownMisc sub))

/-- The operator of an opcode that has no immediates. -/
def plainOperator (opcode : UInt8) : Decoder Operator :=
  match plainOperators.lookup opcode with
  | some op => pure op
  | none =>
    match unsupportedOperators.lookup opcode with
    | some name => fail (.of (.instruction name))
    | none => fail (.of (.unknownOpcode opcode))

/-- The operator of an opcode, whose immediates are at the front of the input. -/
def operator (scope : BodyScope) (opcode : UInt8) : Decoder Operator :=
  match opcode with
  | 0x02 => do return .block (← blockType scope.types)
  | 0x03 => do
    let type ← blockType scope.types
    if type.params.isEmpty then return .loop type.results else fail (.of .loopParams)
  | 0x04 => do return .ifBlock (← blockType scope.types)
  | 0x0C => do return .br (← u32)
  | 0x1C => do
    check ((← u32) == 1)
    return .selectTyped (← valueType)
  | 0x20 => do return .localGet (← localIndex scope)
  | 0x21 => do return .localSet (← localIndex scope)
  | 0x22 => do return .localTee (← localIndex scope)
  | 0x41 => do return .i32Const (← s32)
  | 0x42 => do return .i64Const (← s64)
  | 0x43 => do return .f32Const (UInt32.ofNat (← littleEndian 4))
  | 0x44 => do return .f64Const (UInt64.ofNat (← littleEndian 8))
  | 0xFC => miscOperator
  | _ => plainOperator opcode

end Decoder

/-! ## Streams -/

/-- The number of open constructs after an operator, given the number before it. There is none after
    the `end` that closes the function itself. -/
def Operator.nesting (depth : Nat) : Operator → Option Nat
  | block _ | loop _ | ifBlock _ => some (depth + 1)
  | endBlock => if depth = 0 then none else some (depth - 1)
  | _ => some depth

/-- The operators of a body, each with its opcode. If the body cannot be read to its end, the stream
    also has the fault that stopped it, and the opcode that was read last. -/
structure OperatorStream where
  operators : List (UInt8 × Operator)
  stop : Option (UInt8 × Fault)
  deriving Repr, DecidableEq

/-- Reads the operators at the front of a body, `depth` constructs deep, after an operator with the
    opcode `last`. Nothing may follow the `end` that closes the function. -/
def OperatorStream.read (scope : BodyScope) (depth : Nat) (last : UInt8) :
    Bytes → OperatorStream
  | [] => ⟨[], some (last, .malformed)⟩
  | opcode :: rest =>
    match h : (Decoder.operator scope opcode).run rest with
    | (.error fault, _) => ⟨[], some (opcode, fault)⟩
    | (.ok op, tail) =>
      have : tail.length ≤ rest.length := by
        simpa [h] using (Decoder.operator scope opcode).length_rest_le rest
      match op.nesting depth with
      | none => ⟨[(opcode, op)], if tail.isEmpty then none else some (opcode, .malformed)⟩
      | some depth =>
        let stream := read scope depth opcode tail
        ⟨(opcode, op) :: stream.operators, stream.stop⟩
termination_by input => input.length
decreasing_by
  simp only [List.length_cons]
  omega

end WasmLowering
