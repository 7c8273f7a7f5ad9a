import WasmLowering.Lowering.State

/-!
# Lowering of control

A construct gets an end block when it is entered, with one phi for each result. A branch out of it
routes the topmost operands into these phis. The construct's end places that block and pushes the
phis, or zeros if no branch ever reaches it. A branch to a loop goes to the loop's first block, and
so does the end of a loop.
-/

namespace WasmLowering.Lowering

open Ssa

namespace State

/-! ## Leaving a construct -/

/-- Goes to the end of a construct with its results on the stack, or back to the start of a loop. -/
def exitTo (s : State) (c : Construct) : Except Fault State :=
  match c.kind with
  | .loop head => .ok (s.append (.br head))
  | _ =>
    if s.hasOperands c.results.length then
      let values := s.top c.results.length
      let s := { s with draft := s.draft.addEdges c.exit values }
      .ok (s.append (.br c.exit))
    else .error .malformed

/-- Leaves a construct at the end of an arm: its results have to be all there is above its base. -/
def exitArm (s : State) (c : Construct) : Except Fault State := do
  require (s.stack.size == c.base + c.results.length)
  s.exitTo c

/-! ## Return -/

/-- Stores the operands in the fields of the structure in a slot, from field `index` on. -/
def storeFields (s : State) (slot : ValueId) (index : Nat) : List Operand → State
  | [] => s
  | v :: vs =>
    let (field, s) := s.define (.field · index slot)
    (s.append (.store v field)).storeFields slot (index + 1) vs

/-- Returns several values in a structure, for which a slot is made at the front of the function. -/
def retPacked (s : State) (fields : List ScalarType) (values : List Operand) : State :=
  let (slot, draft) := s.draft.defineAtEntry (.alloca · (.packed fields) .ret)
  let s := { s with draft }
  let s := s.storeFields slot 0 values
  let (id, s) := s.define (.loadPacked · fields slot)
  s.append (.retPacked id fields)

/-- Returns the topmost operands from the function. -/
def ret (s : State) : Except Fault State := do
  let n := s.results.length
  require (s.hasOperands n)
  match (s.top n).toList with
  | [] => (s.append .retVoid).enterDead
  | [v] => (s.append (.ret v)).enterDead
  | values =>
    let fields ← s.results.mapM (ValueType.scalar hostPointerBits)
    (s.retPacked fields values).enterDead

/-! ## Entering a construct -/

/-- Enters a construct of a given type, whose parameters are on the stack. -/
def enter (s : State) (type : FuncType) (kind : ConstructKind) (role : BlockRole) :
    Except Fault State := do
  require (s.hasOperands type.params.length)
  let types ← type.results.mapM (ValueType.scalar hostPointerBits)
  let base := s.stack.size - type.params.length
  let (exit, s) := s.newBlock role
  let (results, draft) := s.draft.addPhis exit types
  return { s with draft, constructs := { kind, exit, results, base } :: s.constructs }

/-- Enters a block. -/
def block (s : State) (type : FuncType) : Except Fault State :=
  s.enter type .block .blockEnd

/-- Enters a loop, in a block of its own. -/
def loop (s : State) (results : List ValueType) : Except Fault State :=
  let (head, s) := s.newBlock .loopBegin
  let s := (s.append (.br head)).place head
  s.enter { results } (.loop head) .loopEnd

/-- Enters the first arm of a conditional if the topmost operand is not zero, else the second. -/
def ifBlock (s : State) (type : FuncType) : Except Fault State := do
  let (v, s) ← s.pop
  let (condition, s) := s.compareZero .ne v
  let (first, s) := s.newBlock .ifThen
  let (other, s) := s.newBlock .ifElse
  let s := s.append (.condBr condition first other)
  let params := s.top type.params.length
  let s ← s.enter type (.thenArm other params) .ifEnd
  return s.place first

/-! ## Within and after a construct -/

/-- Starts the second arm of a conditional with the operands that the first one started with. -/
def startArm (s : State) (c : Construct) (other : Label) (params : Array Operand) :
    Except Fault State := do
  let s ← s.truncate c.base
  return { s with stack := s.stack ++ params }.place other

/-- Goes from the first arm of the innermost conditional to the second. The first arm is left with
    its results if its end can be reached. -/
def elseBlock (s : State) (live : Bool) : Except Fault State :=
  match s.constructs with
  | [] => .error .malformed
  | c :: rest =>
    match c.kind with
    | .thenArm other params => do
      let s ← if live then s.exitArm c else .ok s
      let s ← s.startArm c other params
      return { s with constructs := { c with kind := .elseArm } :: rest, phase := .live }
    | _ => .error .malformed

/-- The results of a construct after its end: its phis, or zeros for phis that no branch reaches. -/
def resultsAfter (s : State) (c : Construct) : List Operand :=
  let lines := s.draft.lines c.exit
  c.results.mapIdx fun i phi =>
    match lines[i]? with
    | some line => if line.isEmptyPhi then phi.type.zero else phi
    | none => phi

/-- Goes on after the end of a construct, with its results on the stack. -/
def leave (s : State) (c : Construct) (rest : List Construct) : Except Fault State := do
  let s ← s.truncate c.base
  let s := s.place c.exit
  let results := s.resultsAfter c
  return { s with
    stack := s.stack ++ results
    draft := s.draft.dropEmptyPhis c.exit
    constructs := rest
    phase := .live }

/-- Leaves the last arm of a construct, if its end can be reached. -/
def exitLast (s : State) (c : Construct) (live : Bool) : Except Fault State :=
  if live then
    match c.kind with
    | .loop _ => s.exitTo c
    | _ => s.exitArm c
  else .ok s

/-- Completes the function, returning its results if its end can be reached. -/
def finishFunction (s : State) (live : Bool) : Except Fault State := do
  let s ← if live then do
      require (s.stack.size == s.results.length)
      s.ret
    else .ok s
  return { s with phase := .finished }

/-- Closes the innermost construct, or the function. A conditional without a second arm passes its
    parameters on. -/
def endBlock (s : State) (live : Bool) : Except Fault State :=
  match s.constructs with
  | [] => s.finishFunction live
  | c :: rest => do
    let s ← s.exitLast c live
    match c.kind with
    | .thenArm other params =>
      let s ← s.startArm c other params
      let s ← s.exitTo c
      s.leave c rest
    | _ => s.leave c rest

/-- Branches out of `depth` constructs and to the one around them, or returns. -/
def br (s : State) (depth : Nat) : Except Fault State :=
  if depth = s.constructs.length then s.ret
  else
    match s.constructs[depth]? with
    | none => .error .malformed
    | some c => do
      let s ← s.exitTo c
      s.enterDead

end State

end WasmLowering.Lowering
