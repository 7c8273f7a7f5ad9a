import Mathlib
import WasmLowering.Lowering.Body

/-!
# Execution of bodies

What the operators of a body do when they are run, for the operators on integers, on locals and on
control. A body is run as it stands, as a list of operators. Every open construct has a label, which
says where a branch to it goes on: after the `end` of the construct or, for a loop, at the start of
the loop's own code.

Floats, vectors and references are bit patterns, which are only moved around. Operators that are not
covered have no step, and neither have operators on operands of the wrong types.

## Key definitions

- `Operator.value`: the value of an operator on its operands
- `afterEnd`, `elseArm`: where the parts of a construct start
- `Config.step`, `Config.Leads`, `Config.Ends`: the run of a body that leaves no loop through the
  loop's end
-/

namespace WasmLowering

/-! ## Values -/

/-- A value of a local or on the operand stack. -/
inductive Value where
  | i32 (value : BitVec 32)
  | i64 (value : BitVec 64)
  | f32 (pattern : BitVec 32)
  | f64 (pattern : BitVec 64)
  | v128 (pattern : BitVec 128)
  | funcref (address : BitVec hostPointerBits)
  | externref (address : BitVec hostPointerBits)
  deriving Repr, DecidableEq

namespace Value

/-- The type of a value. -/
def type : Value → ValueType
  | i32 _ => .i32
  | i64 _ => .i64
  | f32 _ => .f32
  | f64 _ => .f64
  | v128 _ => .v128
  | funcref _ => .funcref
  | externref _ => .externref

/-- The value that a local of a type starts with. -/
def zero? : ValueType → Option Value
  | .i32 => some (i32 0)
  | .i64 => some (i64 0)
  | .f32 => some (f32 0)
  | .f64 => some (f64 0)
  | .v128 => some (v128 0)
  | .funcref => some (funcref 0)
  | .externref => some (externref 0)
  | .other _ => none

/-- An integer of a given width. -/
def ofInt : (w : IntWidth) → BitVec w.bits → Value
  | .w32, a => i32 a
  | .w64, a => i64 a

/-- The integer that a value is, if it is one of the given width. -/
def toInt? : (w : IntWidth) → Value → Option (BitVec w.bits)
  | .w32, i32 a => some a
  | .w64, i64 a => some a
  | _, _ => none

/-- A truth value. -/
def ofBool (b : Bool) : Value :=
  i32 (if b then 1 else 0)

end Value

/-! ## Operators on numbers -/

/-- Whether two integers compare as asked. -/
def IntComparison.holds {n : Nat} (a b : BitVec n) : IntComparison → Bool
  | eq => a == b
  | ne => a != b
  | ltS => a.toInt < b.toInt
  | ltU => a.toNat < b.toNat
  | gtS => b.toInt < a.toInt
  | gtU => b.toNat < a.toNat
  | leS => a.toInt ≤ b.toInt
  | leU => a.toNat ≤ b.toNat
  | geS => b.toInt ≤ a.toInt
  | geU => b.toNat ≤ a.toNat

/-- The result of an operation on two integers, modulo a power of two. Divisions are left out. -/
def IntBinary.apply {n : Nat} (a b : BitVec n) : IntBinary → Option (BitVec n)
  | add => some (a + b)
  | sub => some (a - b)
  | mul => some (a * b)
  | and => some (a &&& b)
  | or => some (a ||| b)
  | xor => some (a ^^^ b)
  | divS | divU | remS | remU => none

/-- A shift by a count modulo the width. -/
def Shift.apply {n : Nat} (a b : BitVec n) : Shift → BitVec n
  | shl => a <<< (b.toNat % n)
  | shrS => a.sshiftRight (b.toNat % n)
  | shrU => a >>> (b.toNat % n)

/-- A rotation by a count modulo the width. -/
def Rotation.apply {n : Nat} (a b : BitVec n) : Rotation → BitVec n
  | rotl => a.rotateLeft b.toNat
  | rotr => a.rotateRight b.toNat

/-- A count of leading zeros, of trailing zeros or of ones. -/
def BitCount.apply {n : Nat} (a : BitVec n) : BitCount → BitVec n
  | clz => a.clz
  | ctz => a.ctz
  | popcnt => a.cpop

/-- The number of operands that an operator with a value takes. -/
def Operator.arity : Operator → Nat
  | .select | .selectTyped _ => 3
  | .intCompare .. | .intBinary .. | .shift .. | .rotate .. => 2
  | .eqz _ | .bitCount .. | .convert _ | .signExtend .. => 1
  | _ => 0

/-- The value of an operator on its operands, the topmost one last. -/
def Operator.value : Operator → List Value → Option Value
  | .i32Const a, [] => some (.i32 a.toBitVec)
  | .i64Const a, [] => some (.i64 a.toBitVec)
  | .select, [a, b, condition] | .selectTyped _, [a, b, condition] => do
    let c ← condition.toInt? .w32
    return if c = 0 then b else a
  | .eqz w, [a] => do
    let a ← a.toInt? w
    return .ofBool (a == 0)
  | .intCompare w op, [a, b] => do
    let a ← a.toInt? w
    let b ← b.toInt? w
    return .ofBool (op.holds a b)
  | .bitCount w op, [a] => do
    let a ← a.toInt? w
    return .ofInt w (op.apply a)
  | .intBinary w op, [a, b] => do
    let a ← a.toInt? w
    let b ← b.toInt? w
    return .ofInt w (← op.apply a b)
  | .shift w op, [a, b] => do
    let a ← a.toInt? w
    let b ← b.toInt? w
    return .ofInt w (op.apply a b)
  | .rotate w op, [a, b] => do
    let a ← a.toInt? w
    let b ← b.toInt? w
    return .ofInt w (op.apply a b)
  | .convert .wrap, [a] => do
    let a ← a.toInt? .w64
    return .i32 (a.setWidth 32)
  | .convert (.extend signed), [a] => do
    let a ← a.toInt? .w32
    return .i64 (if signed then a.signExtend 64 else a.setWidth 64)
  | .signExtend w bits, [a] => do
    let a ← a.toInt? w
    return .ofInt w ((a.setWidth bits).signExtend w.bits)
  | _, _ => none

/-! ## Constructs -/

/-- The code after the `end` of a construct, from somewhere inside the construct with `depth` other
    constructs open in between. -/
def afterEnd (depth : Nat) : List Operator → List Operator
  | [] => []
  | op :: code =>
    match op.nesting depth with
    | none => code
    | some depth => afterEnd depth code

/-- The code after the `else` of a conditional, if it has one, from somewhere inside the first arm
    with `depth` other constructs open in between. -/
def elseArm (depth : Nat) : List Operator → Option (List Operator)
  | [] => none
  | op :: code =>
    if depth = 0 ∧ op = .elseBlock then some code
    else
      match op.nesting depth with
      | none => none
      | some depth => elseArm depth code

/-- The label of an open construct. -/
structure Target where
  /-- Whether a branch goes back, so that the construct stays open. -/
  isLoop : Bool := false
  /-- The code that a branch goes on with. -/
  code : List Operator
  /-- The number of operands that a branch takes along. -/
  arity : Nat
  /-- The number of operands that lie below the construct. -/
  height : Nat
  deriving Repr, DecidableEq

/-! ## Steps -/

/-- The state of a body that runs. -/
structure Config where
  /-- The operators that follow. -/
  code : List Operator
  /-- The operands, bottom first. -/
  stack : List Value := []
  /-- The labels of the open constructs, innermost first. -/
  labels : List Target := []
  /-- The parameters and locals. -/
  locals : List Value
  deriving Repr, DecidableEq

namespace Config

/-- How the run of a body ends. -/
inductive Outcome where
  | returned (values : List Value)
  | trapped
  deriving Repr, DecidableEq

/-- What an operator does: it leads to another state, or it ends the run. -/
inductive Step where
  | next (c : Config)
  | ends (outcome : Outcome)
  deriving Repr, DecidableEq

variable (c : Config)

/-- The operands below the topmost `n`, and these. -/
def split (n : Nat) : Option (List Value × List Value) :=
  if n ≤ c.stack.length then
    some (c.stack.take (c.stack.length - n), c.stack.drop (c.stack.length - n))
  else none

/-- Returns the topmost operands, of which there are `results`. -/
def ret (results : Nat) : Option Step := do
  let (_, values) ← c.split results
  return .ends (.returned values)

/-- Branches out of `depth` constructs and to the label of the one around them. -/
def branch (depth : Nat) : Option Step :=
  match c.labels.drop depth with
  | [] => none
  | label :: outer => do
    let (_, values) ← c.split label.arity
    return .next { c with
      code := label.code
      stack := c.stack.take label.height ++ values
      labels := if label.isLoop then label :: outer else outer }

/-- The label of a construct of a given type that is entered with these operands. -/
def label (type : FuncType) (stack : List Value) (code : List Operator) : Target where
  code := afterEnd 0 code
  arity := type.results.length
  height := stack.length - type.params.length

/-- Enters a conditional: its first arm if the condition is not zero, else the second. A conditional
    without a second arm passes its parameters on. -/
def ifBlock (type : FuncType) (code : List Operator) : Option Step := do
  let (stack, condition) ← c.split 1
  match condition with
  | [v] =>
    let condition ← v.toInt? .w32
    let labels := label type stack code :: c.labels
    if condition = 0 then
      match elseArm 0 code with
      | some arm => return .next { c with code := arm, stack, labels }
      | none => return .next { c with code := afterEnd 0 code, stack }
    else return .next { c with code, stack, labels }
  | _ => none

/-- Writes the topmost operand to a local. -/
def setLocal (index : Nat) : Option (List Value × List Value) := do
  let (stack, operand) ← c.split 1
  match operand with
  | [v] => if index < c.locals.length then return (stack, c.locals.set index v) else none
  | _ => none

/-- What the next operator of a function with a given number of results does. -/
def step (results : Nat) : Option Step :=
  match c.code with
  | [] => none
  | op :: code =>
    match op with
    | .unreachable => some (.ends .trapped)
    | .nop => some (.next { c with code })
    | .block type =>
      some (.next { c with code, labels := label type c.stack code :: c.labels })
    | .loop _ =>
      let label : Target := { isLoop := true, code, arity := 0, height := c.stack.length }
      some (.next { c with code, labels := label :: c.labels })
    | .ifBlock type => c.ifBlock type code
    | .elseBlock =>
      match c.labels with
      | [] => none
      | label :: outer => some (.next { c with code := label.code, labels := outer })
    | .endBlock =>
      match c.labels with
      | [] => c.ret results
      | _ :: outer => some (.next { c with code, labels := outer })
    | .br depth =>
      if depth.toNat = c.labels.length then c.ret results else c.branch depth.toNat
    | .ret => c.ret results
    | .drop => do
      let (stack, _) ← c.split 1
      return .next { c with code, stack }
    | .localGet index => do
      let v ← c.locals[index.toNat]?
      return .next { c with code, stack := c.stack ++ [v] }
    | .localSet index => do
      let (stack, locals) ← c.setLocal index.toNat
      return .next { c with code, stack, locals }
    | .localTee index => do
      let (_, locals) ← c.setLocal index.toNat
      return .next { c with code, locals }
    | op => do
      let (stack, operands) ← c.split op.arity
      let v ← op.value operands
      return .next { c with code, stack := stack ++ [v] }

/-! ## Runs -/

/-- Whether the next step leaves a loop through its end. -/
def leavesLoop : Bool :=
  match c.code, c.labels with
  | .endBlock :: _, label :: _ => label.isLoop
  | _, _ => false

/-- A number of steps that lead from one state to another, none of which leaves a loop through its
    end. -/
def Leads (results : Nat) : Config → Config → Prop :=
  Relation.ReflTransGen fun c c' => c.leavesLoop = false ∧ c.step results = some (.next c')

/-- From here, the run of a body ends in this way and leaves no loop through its end. -/
def Ends (results : Nat) (outcome : Outcome) : Prop :=
  ∃ last, Leads results c last ∧ last.step results = some (.ends outcome)

/-- How a run of at most `fuel` steps ends, if it leaves no loop through its end. -/
def outcome? (results : Nat) : Nat → Config → Option Outcome
  | 0, _ => none
  | fuel + 1, c =>
    match c.step results with
    | some (.ends outcome) => some outcome
    | some (.next c') => if c.leavesLoop then none else outcome? results fuel c'
    | none => none

/-- Bounded runs are runs. -/
theorem ends_of_outcome? {results fuel : Nat} {c : Config} {outcome : Outcome}
    (h : outcome? results fuel c = some outcome) : c.Ends results outcome := by
  induction fuel generalizing c with
  | zero => cases h
  | succ fuel ih =>
    rw [outcome?] at h
    split at h
    next hstep =>
      obtain rfl := Option.some.inj h
      exact ⟨c, .refl, hstep⟩
    next c' hstep =>
      split at h
      · cases h
      next hloop =>
        obtain ⟨last, hleads, hlast⟩ := ih h
        exact ⟨last, .head ⟨Bool.eq_false_iff.2 hloop, hstep⟩ hleads, hlast⟩
    · cases h

/-- The start of a body, with the arguments in its parameters. -/
def start (locals : List ValueType) (code : List Operator) (args : List Value) : Config where
  code := code
  locals := args ++ locals.filterMap Value.zero?

end Config

end WasmLowering
