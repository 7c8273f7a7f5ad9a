import WasmLowering.Operator
import WasmLowering.Ssa.Draft

/-!
# The state of lowering

While a body is lowered, the operand stack holds SSA operands instead of values. Each open construct
remembers how high the stack was when it was entered, and no operator reaches below that. Code that
cannot be reached is skipped: the state is then dead, and counts the constructs opened inside the
dead code.
-/

namespace WasmLowering.Lowering

open Ssa

/-- The stack slot of a parameter or local. -/
structure Slot where
  type : ScalarType
  id : ValueId
  deriving Repr, DecidableEq, Inhabited

/-- What a construct is, and the blocks it still needs. -/
inductive ConstructKind where
  | block
  /-- A loop, and the block that a branch to it goes to. -/
  | loop (head : Label)
  /-- The first arm of a conditional, with the block of the other arm and the operands that the
      other arm starts with. -/
  | thenArm (other : Label) (params : Array Operand)
  /-- The second arm of a conditional. -/
  | elseArm
  deriving Repr, DecidableEq

/-- An open construct. -/
structure Construct where
  kind : ConstructKind
  /-- The block that follows the construct. -/
  exit : Label
  /-- The phis at the front of that block, one for each result. -/
  results : List Operand
  /-- The height of the operand stack below the construct's parameters. -/
  base : Nat
  deriving Repr, DecidableEq

/-- Whether the code at the current position can be reached. -/
inductive Phase where
  | live
  /-- The code cannot be reached, and `depth` constructs were opened since. -/
  | dead (depth : Nat)
  /-- The function is complete. -/
  | finished
  deriving Repr, DecidableEq

/-- The state of lowering between two operators. -/
structure State where
  /-- The declared results of the function. -/
  results : List ValueType
  /-- The slots of the parameters, then of the locals. -/
  locals : Array Slot := #[]
  draft : Draft := .start
  /-- The open constructs, innermost first. -/
  constructs : List Construct := []
  /-- The operand stack, bottom first. -/
  stack : Array Operand := #[]
  phase : Phase := .live
  intrinsics : IntrinsicTable
  deriving Repr, DecidableEq

namespace State

/-! ## Operand stack -/

/-- The height that the operand stack may not go below. -/
def base (s : State) : Nat :=
  match s.constructs with
  | [] => 0
  | c :: _ => c.base

/-- Whether at least `n` operands lie above the base. -/
def hasOperands (s : State) (n : Nat) : Bool :=
  n ≤ s.stack.size - s.base

/-- The topmost `n` operands, bottom first. -/
def top (s : State) (n : Nat) : Array Operand :=
  s.stack.extract (s.stack.size - n) s.stack.size

/-- Pushes an operand. -/
def push (s : State) (v : Operand) : State :=
  { s with stack := s.stack.push v }

/-- The topmost operand. -/
def peek (s : State) : Except Fault Operand :=
  if h : s.base < s.stack.size then .ok (s.stack.back (Nat.zero_lt_of_lt h))
  else .error .malformed

/-- Pops an operand. -/
def pop (s : State) : Except Fault (Operand × State) := do
  let v ← s.peek
  return (v, { s with stack := s.stack.pop })

/-- Shortens the operand stack to `n` operands. -/
def truncate (s : State) (n : Nat) : Except Fault State :=
  if n ≤ s.stack.size then .ok { s with stack := s.stack.take n } else .error .malformed

/-- Drops all operands above the base, because what follows cannot be reached. -/
def enterDead (s : State) : Except Fault State := do
  let s ← s.truncate s.base
  return { s with phase := .dead 0 }

/-! ## Lines and blocks -/

/-- Appends a line. -/
def append (s : State) (line : Line) : State :=
  { s with draft := s.draft.append line }

/-- Appends a line that makes a slot or an address, and gives its number. -/
def define (s : State) (line : ValueId → Line) : ValueId × State :=
  let (id, draft) := s.draft.define line
  (id, { s with draft })

/-- Appends a computation, and gives its value. -/
def compute (s : State) (rhs : Rhs) : Operand × State :=
  let type := rhs.type
  let (id, s) := s.define (.assign · rhs)
  (.result id type, s)

/-- Appends a computation and pushes its value. -/
def computePush (s : State) (rhs : Rhs) : State :=
  let (v, s) := s.compute rhs
  s.push v

/-- Creates a block. -/
def newBlock (s : State) (role : BlockRole) : Label × State :=
  let (label, draft) := s.draft.newBlock role
  (label, { s with draft })

/-- Places a block after the insertion block, and goes on there. -/
def place (s : State) (label : Label) : State :=
  { s with draft := s.draft.place label }

/-- Declares an intrinsic. -/
def declare (s : State) (intrinsic : Intrinsic) : State :=
  { s with intrinsics := s.intrinsics.declare intrinsic }

/-- Calls an intrinsic, declares it if need be, and pushes its value. -/
def callPush (s : State) (intrinsic : Intrinsic) (args : List Operand) : State :=
  (s.declare intrinsic).computePush (.call intrinsic args)

/-- Compares an operand with zero. -/
def compareZero (s : State) (predicate : IntPredicate) (v : Operand) : Operand × State :=
  s.compute (.icmp predicate v v.type.zero)

end State

end WasmLowering.Lowering
