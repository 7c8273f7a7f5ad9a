import WasmLowering.Lowering.Control
import WasmLowering.Lowering.Numeric

/-!
# Lowering of one operator

A live state lowers every operator. A dead state only keeps track of the nesting: constructs opened
inside dead code are counted, and the code becomes live again at the `else` or `end` of a construct
that was entered while it was live.
-/

namespace WasmLowering.Lowering

open Ssa

namespace State

/-! ## Locals, constants and selection -/

/-- Reads a local. -/
def localGet (s : State) (index : UInt32) : Except Fault State :=
  match s.locals[index.toNat]? with
  | none => .error .malformed
  | some slot => .ok (s.computePush (.load slot.type slot.id))

/-- Writes the topmost operand to a local and pops it. -/
def localSet (s : State) (index : UInt32) : Except Fault State :=
  match s.locals[index.toNat]? with
  | none => .error .malformed
  | some slot => do
    let (v, s) ← s.pop
    return s.append (.store v slot.id)

/-- Writes the topmost operand to a local and keeps it. -/
def localTee (s : State) (index : UInt32) : Except Fault State :=
  match s.locals[index.toNat]? with
  | none => .error .malformed
  | some slot => do
    let v ← s.peek
    return s.append (.store v slot.id)

/-- Selects one of two operands, the first one if the condition on top of them is not zero. -/
def select (s : State) : Except Fault State := do
  let (v, s) ← s.pop
  let (condition, s) := s.compareZero .ne v
  let (b, s) ← s.pop
  let (a, s) ← s.pop
  return s.computePush (.select condition a b)

/-- Drops the topmost operand. -/
def drop (s : State) : Except Fault State := do
  let (_, s) ← s.pop
  return s

/-- Ends the block at a point that is never reached. -/
def unreachable (s : State) : Except Fault State :=
  (s.append .unreachable).enterDead

/-- Leaves a mark for an operator without effect. -/
def nop (s : State) : State :=
  (s.define .nop).2

/-! ## Steps -/

/-- Lowers an operator that can be reached. -/
def lower (s : State) : Operator → Except Fault State
  | .unreachable => s.unreachable
  | .nop => .ok s.nop
  | .block type => s.block type
  | .loop results => s.loop results
  | .ifBlock type => s.ifBlock type
  | .elseBlock => s.elseBlock true
  | .endBlock => s.endBlock true
  | .br depth => s.br depth.toNat
  | .ret => s.ret
  | .drop => s.drop
  | .select | .selectTyped _ => s.select
  | .localGet index => s.localGet index
  | .localSet index => s.localSet index
  | .localTee index => s.localTee index
  | .i32Const value => .ok (s.push (.int 32 value.toNat))
  | .i64Const value => .ok (s.push (.int 64 value.toNat))
  | .f32Const pattern => .ok (s.push (.float pattern))
  | .f64Const pattern => .ok (s.push (.double pattern))
  | .eqz _ => s.eqz
  | .intCompare _ op => s.intCompare op.predicate
  | .floatCompare _ op => s.floatCompare op.predicate
  | .bitCount _ op => s.bitCount op
  | .intBinary _ op => s.binary op.native
  | .shift _ op => s.shift op.native
  | .rotate _ op => s.rotate op
  | .floatUnary _ op => s.floatUnary op
  | .floatBinary _ op => s.floatBinary op
  | .convert conversion => s.convert conversion
  | .signExtend _ bits => s.signExtend bits
  | .truncSat _ target signed => s.truncSat target signed

/-- Skips an operator that cannot be reached, `depth` constructs into the dead code. -/
def skip (s : State) (depth : Nat) : Operator → Except Fault State
  | .block _ | .loop _ | .ifBlock _ => .ok { s with phase := .dead (depth + 1) }
  | .elseBlock => if depth = 0 then s.elseBlock false else .ok s
  | .endBlock =>
    if depth = 0 then s.endBlock false else .ok { s with phase := .dead (depth - 1) }
  | _ => .ok s

/-- The state after an operator. -/
def step (s : State) (op : Operator) : Except Fault State :=
  match s.phase with
  | .live => s.lower op
  | .dead depth => s.skip depth op
  | .finished => .ok s

end State

end WasmLowering.Lowering
