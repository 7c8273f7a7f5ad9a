import WasmLowering.Lowering.Step
import WasmLowering.Operator.Decode

/-!
# Lowering of function bodies

A body declares its locals in runs of equal type and goes on with its operators. Parameters and
locals live in stack slots, which the entry block makes and fills: a parameter's slot with the
argument, a local's with zero. Then every operator is lowered in turn. A fault carries the
function's index, the number of operators completed and the opcode that was read last.
-/

namespace WasmLowering

open Ssa

/-! ## Declared locals -/

/-- A number of consecutive locals of one type. -/
structure LocalRun where
  count : UInt32
  type : ValueType
  deriving Repr, DecidableEq

/-- The most locals that a body may declare. -/
def maxLocals : Nat := 50000

namespace Decoder

/-- A run of locals after `declared` other ones. The room that these leave is a word of 32 bits. -/
def localRun (declared : UInt32) : Decoder LocalRun := do
  let count ← u32
  let type ← valueType
  check (count ≤ UInt32.ofNat maxLocals - declared)
  return { count, type }

/-- A number of runs of locals after `declared` other ones. -/
def localRunsFrom : Nat → UInt32 → Decoder (List LocalRun)
  | 0, _ => pure []
  | n + 1, declared => do
    let run ← localRun declared
    let runs ← localRunsFrom n (declared + run.count)
    return run :: runs

/-- The declaration of locals at the start of a body. -/
def localRuns : Decoder (List LocalRun) := do
  localRunsFrom (← u32).toNat 0

end Decoder

/-- The types of the locals that runs declare. -/
def expandRuns (runs : List LocalRun) : List ValueType :=
  runs.flatMap fun run => List.replicate run.count.toNat run.type

/-- A function body: the types of its locals, and its operators. -/
structure Body where
  locals : List ValueType
  stream : OperatorStream
  deriving Repr, DecidableEq

/-- Reads a body of a function with given parameters. -/
def Body.read (types : Array FuncType) (params : List ValueType) (input : Bytes) :
    Except Fault Body :=
  match Decoder.localRuns.run input with
  | (.error fault, _) => .error fault
  | (.ok runs, rest) =>
    let locals := expandRuns runs
    let scope : BodyScope := { types, localCount := params.length + locals.length }
    .ok { locals, stream := .read scope 0 0 rest }

namespace Lowering

/-! ## Slots -/

/-- Makes the slot of the next parameter or local and stores its first value. -/
def State.addLocal (s : State) (t : ValueType) (first : ScalarType → Operand) :
    Except Fault State := do
  let type ← t.scalar hostPointerBits
  let index := s.locals.size
  let (id, s) := s.define (.alloca · (.scalar type) (.ofLocal index))
  let s := s.append (.store (first type) id)
  return { s with locals := s.locals.push { type, id } }

/-- Makes the slots of the parameters, from number `index` on. -/
def State.addParams (s : State) (index : Nat) : List ValueType → Except Fault State
  | [] => .ok s
  | t :: ts => do
    let s ← s.addLocal t (.arg index)
    s.addParams (index + 1) ts

/-- Makes the slots of the locals. -/
def State.addLocals (s : State) : List ValueType → Except Fault State
  | [] => .ok s
  | t :: ts => do
    let s ← s.addLocal t ScalarType.zero
    s.addLocals ts

/-! ## Operators -/

/-- Lowers the operators of function `func` in turn, after `completed` others. -/
def State.run (func : UInt32) (completed : Nat) (s : State) :
    List (UInt8 × Operator) → Except Fault State
  | [] => .ok s
  | (opcode, op) :: rest => do
    let s ← inContext (.inBody func completed opcode) (s.step op)
    s.run func (completed + 1) rest

/-- Lowers the operators of a stream, then fails as the stream says if it has no end. -/
def State.runStream (func : UInt32) (s : State) (stream : OperatorStream) : Except Fault State := do
  let s ← s.run func 0 stream.operators
  match stream.stop with
  | none => return s
  | some (opcode, fault) =>
    .error (fault.within (.inBody func stream.operators.length opcode))

/-! ## Functions -/

/-- The state after the slots of a body have been made. -/
def State.start (type : FuncType) (locals : List ValueType) (intrinsics : IntrinsicTable) :
    Except Fault State := do
  let s : State := { results := type.results, intrinsics }
  let s ← s.addParams 0 type.params
  s.addLocals locals

/-- The state after the body of function `func` has been lowered. -/
def lowerBody (types : Array FuncType) (func : UInt32) (type : FuncType)
    (intrinsics : IntrinsicTable) (input : Bytes) : Except Fault State := do
  let atStart := Context.inBody func 0 0
  let body ← inContext atStart (Body.read types type.params input)
  let s ← inContext atStart (State.start type body.locals intrinsics)
  s.runStream func body.stream

/-- Lowers the body with a given index, which is that of function `func`. Gives the function and the
    intrinsics declared so far. -/
def lowerFunction (types : Array FuncType) (body : Nat) (func : UInt32) (type : FuncType)
    (intrinsics : IntrinsicTable) (input : Bytes) :
    Except Fault (Ssa.Function × IntrinsicTable) := do
  let signature ← type.signature hostPointerBits
  let s ← lowerBody types func type intrinsics input
  return ({ body, signature, blocks := s.draft.finish }, s.intrinsics)

end Lowering

end WasmLowering
