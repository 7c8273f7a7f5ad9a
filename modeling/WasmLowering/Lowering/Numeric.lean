import WasmLowering.Lowering.State

/-!
# Lowering of numeric operators

Widths, overloads and zero constants follow from the types of the operands. Comparisons give a
32-bit integer. Shift counts are taken modulo the width. A conversion to an integer checks its
operand first and traps if the result would be out of range.
-/

namespace WasmLowering

open Ssa

/-! ## Native counterparts -/

/-- The native comparison. -/
def IntComparison.predicate : IntComparison → IntPredicate
  | eq => .eq
  | ne => .ne
  | ltS => .slt
  | ltU => .ult
  | gtS => .sgt
  | gtU => .ugt
  | leS => .sle
  | leU => .ule
  | geS => .sge
  | geU => .uge

/-- The native comparison. -/
def FloatComparison.predicate : FloatComparison → FloatPredicate
  | eq => .oeq
  | ne => .une
  | lt => .olt
  | gt => .ogt
  | le => .ole
  | ge => .oge

/-- The native operation. -/
def IntBinary.native : IntBinary → BinaryOp
  | add => .add
  | sub => .sub
  | mul => .mul
  | divS => .sdiv
  | divU => .udiv
  | remS => .srem
  | remU => .urem
  | and => .and
  | or => .or
  | xor => .xor

/-- The native shift. -/
def Shift.native : Shift → BinaryOp
  | shl => .shl
  | shrS => .ashr
  | shrU => .lshr

/-- The intrinsic that counts. -/
def BitCount.intrinsic : BitCount → IntrinsicKind
  | clz => .ctlz
  | ctz => .cttz
  | popcnt => .ctpop

/-- The intrinsic that rotates: it shifts a pair of operands and keeps one half. -/
def Rotation.intrinsic : Rotation → IntrinsicKind
  | rotl => .fshl
  | rotr => .fshr

namespace Lowering

/-! ## Range of a checked conversion -/

/-- The operands that a conversion to an integer accepts: those above `lower`, or equal to it if
    `inclusive` holds, and below `upper`. -/
structure TruncRange where
  lower : Int
  inclusive : Bool
  upper : Int
  deriving Repr, DecidableEq

/-- The range for a target of `bits` bits. The lower bound of a signed target is exclusive where the
    source type represents the number before the least one. -/
def TruncRange.of (source : ScalarType) (bits : Nat) (signed : Bool) : TruncRange :=
  if signed then
    let upper : Int := (Nat.pow 2 (bits - 1) : Nat)
    if bits = 32 ∧ source = .double then ⟨-upper - 1, false, upper⟩
    else ⟨-upper, true, upper⟩
  else ⟨-1, false, (Nat.pow 2 bits : Nat)⟩

namespace State

/-! ## Operators on integers -/

/-- Pushes a truth value as a 32-bit integer. -/
def pushBool (s : State) (v : Operand) : State :=
  s.computePush (.cast .zext v (.int 32))

/-- Whether an integer is zero. -/
def eqz (s : State) : Except Fault State := do
  let (a, s) ← s.pop
  let (v, s) := s.compareZero .eq a
  return s.pushBool v

/-- A comparison of integers. -/
def intCompare (s : State) (predicate : IntPredicate) : Except Fault State := do
  let (b, s) ← s.pop
  let (a, s) ← s.pop
  let (v, s) := s.compute (.icmp predicate a b)
  return s.pushBool v

/-- An operation on two operands. -/
def binary (s : State) (op : BinaryOp) : Except Fault State := do
  let (b, s) ← s.pop
  let (a, s) ← s.pop
  return s.computePush (.binary op a b)

/-- A shift by a count that is taken modulo the width. -/
def shift (s : State) (op : BinaryOp) : Except Fault State := do
  let (b, s) ← s.pop
  let (a, s) ← s.pop
  let (count, s) := s.compute (.binary .and b (b.type.constant (a.type.bits - 1)))
  return s.computePush (.binary op a count)

/-- A count of bits. The counts of leading and trailing zeros are defined for zero. -/
def bitCount (s : State) (op : BitCount) : Except Fault State := do
  let (a, s) ← s.pop
  let args := match op with
    | .popcnt => [a]
    | .clz | .ctz => [a, .int 1 0]
  return s.callPush ⟨op.intrinsic, [a.type]⟩ args

/-- A rotation. -/
def rotate (s : State) (op : Rotation) : Except Fault State := do
  let (b, s) ← s.pop
  let (a, s) ← s.pop
  return s.callPush ⟨op.intrinsic, [a.type]⟩ [a, a, b]

/-- Copies the sign of the lowest bits upward. -/
def signExtend (s : State) (bits : Nat) : Except Fault State := do
  let (a, s) ← s.pop
  let (low, s) := s.compute (.cast .trunc a (.int bits))
  return s.computePush (.cast .sext low a.type)

/-! ## Operators on floats -/

/-- A comparison of floats. -/
def floatCompare (s : State) (predicate : FloatPredicate) : Except Fault State := do
  let (b, s) ← s.pop
  let (a, s) ← s.pop
  let (v, s) := s.compute (.fcmp predicate a b)
  return s.pushBool v

/-- An intrinsic on one operand. -/
def unaryIntrinsic (s : State) (kind : IntrinsicKind) : Except Fault State := do
  let (a, s) ← s.pop
  return s.callPush ⟨kind, [a.type]⟩ [a]

/-- An intrinsic on two operands. -/
def binaryIntrinsic (s : State) (kind : IntrinsicKind) : Except Fault State := do
  let (b, s) ← s.pop
  let (a, s) ← s.pop
  return s.callPush ⟨kind, [a.type]⟩ [a, b]

/-- An operation on one float. -/
def floatUnary (s : State) : FloatUnary → Except Fault State
  | .abs => s.unaryIntrinsic .fabs
  | .neg => do
    let (a, s) ← s.pop
    return s.computePush (.fneg a)
  | .ceil => s.unaryIntrinsic .ceil
  | .floor => s.unaryIntrinsic .floor
  | .trunc => s.unaryIntrinsic .trunc
  | .nearest => s.unaryIntrinsic .roundeven
  | .sqrt => s.unaryIntrinsic .sqrt

/-- An operation on two floats. -/
def floatBinary (s : State) : FloatBinary → Except Fault State
  | .add => s.binary .fadd
  | .sub => s.binary .fsub
  | .mul => s.binary .fmul
  | .div => s.binary .fdiv
  | .min => s.binaryIntrinsic .minimum
  | .max => s.binaryIntrinsic .maximum
  | .copysign => s.binaryIntrinsic .copysign

/-! ## Conversions -/

/-- Converts a float to an integer. Operands out of range, and NaN, go to a block that traps. -/
def truncChecked (s : State) (a : Operand) (target : ScalarType) (signed : Bool) : State :=
  let range := TruncRange.of a.type target.bits signed
  let (above, s) := s.compute
    (.fcmp (if range.inclusive then .oge else .ogt) a (a.type.constant range.lower))
  let (below, s) := s.compute (.fcmp .olt a (a.type.constant range.upper))
  let (inRange, s) := s.compute (.binary .and above below)
  let (trapLabel, s) := s.newBlock .truncTrap
  let (okLabel, s) := s.newBlock .truncOk
  let s := (s.append (.condBr inRange okLabel trapLabel)).place trapLabel
  let s := (s.declare ⟨.trap, []⟩).append .trap
  let s := (s.append .unreachable).place okLabel
  s.computePush (.cast (if signed then .fptosi else .fptoui) a target)

/-- A conversion between number types. -/
def convert (s : State) (c : Conversion) : Except Fault State := do
  let (a, s) ← s.pop
  let target ← c.target.scalar hostPointerBits
  match c with
  | .wrap => return s.computePush (.cast .trunc a target)
  | .extend signed => return s.computePush (.cast (if signed then .sext else .zext) a target)
  | .trunc _ _ signed => return s.truncChecked a target signed
  | .convert _ _ signed =>
    return s.computePush (.cast (if signed then .sitofp else .uitofp) a target)
  | .demote => return s.computePush (.cast .fptrunc a target)
  | .promote => return s.computePush (.cast .fpext a target)
  | .reinterpretAsInt _ | .reinterpretAsFloat _ =>
    return s.computePush (.cast .bitcast a target)

/-- Converts a float to the nearest integer in range. -/
def truncSat (s : State) (target : IntWidth) (signed : Bool) : Except Fault State := do
  let (a, s) ← s.pop
  let type ← target.type.scalar hostPointerBits
  return s.callPush ⟨if signed then .fptosiSat else .fptouiSat, [type, a.type]⟩ [a]

end State

end Lowering

end WasmLowering
