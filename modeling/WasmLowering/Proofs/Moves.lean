import WasmLowering.Proofs.PlainOperators

/-!
# Moves of the lowering

Every operator changes the state by a few kinds of moves: a computation is appended and its value
pushed, operands are dropped or reordered above the base, a construct is opened, a block is closed
by a branch or a return, a block that was waiting is placed. What holds of the first state and is
kept by every move holds after every operator, and so at every point of a run. A move that closes
the insertion block makes the state dead, and a move that places a block makes it live again, so
that a state is live exactly while lines may be appended.

## Key results

- `lower_moves`: an operator that can be reached is a sequence of moves
- `skip_moves`: so is one that cannot be reached
-/

namespace WasmLowering.Lowering

open Ssa

namespace State

/-! ## Combined steps -/

/-- Opens a construct with the given height and types of results. -/
def opened (s : State) (kind : ConstructKind) (role : BlockRole) (types : List ScalarType)
    (base : Nat) : State :=
  let exit := (s.draft.newBlock role).1
  let results := phiValues s.draft.nextValue types
  { s with
    draft := s.draft.newJoin role types
    constructs := { kind, exit, results, base } :: s.constructs }

/-- Opens a block that the insertion block goes on to, and goes on there. -/
def begun (s : State) (role : BlockRole) : State :=
  { s with draft := s.draft.goOn role }

/-- Opens a conditional with the given number of parameters and types of results. -/
def forked (s : State) (condition : Operand) (params : Nat) (types : List ScalarType) : State :=
  let kind := .thenArm s.draft.arms.2 (s.top params)
  let u := { s with draft := s.draft.fork condition }
  (u.opened kind .ifEnd types (s.stack.size - params)).place s.draft.arms.1

/-- Goes on in a new block if the condition holds, and traps in another one if not. -/
def guarded (s : State) (condition : Operand) : State :=
  { s with draft := s.draft.guard condition }

/-- Leaves the insertion block for the end of a construct. -/
def jumped (s : State) (exit : Label) (values : Array Operand) : State :=
  { s with draft := (s.draft.addEdges exit values).append (.br exit), phase := .dead 0 }

/-- Closes the insertion block. -/
def ended (s : State) (line : Line) : State :=
  { s with draft := s.draft.append line, phase := .dead 0 }

/-- Makes the slot of the next parameter or local and stores its first value. -/
def allotted (s : State) (type : ScalarType) (first : Operand) : State :=
  let id := s.draft.nextValue
  let d := s.draft.skipValue.append (.alloca id (.scalar type) (.ofLocal s.locals.size))
  { s with draft := d.append (.store first id), locals := s.locals.push ⟨type, id⟩ }

/-- Starts the second arm of a conditional. -/
def alternated (s : State) (c : Construct) (rest : List Construct) (other : Label)
    (params : Array Operand) : State :=
  { s with
    stack := s.stack.take c.base ++ params
    draft := s.draft.place other
    constructs := { c with kind := .elseArm } :: rest
    phase := .live }

/-- Goes on after a construct. -/
def left (s : State) (c : Construct) (rest : List Construct) : State :=
  { s with
    stack := s.stack.take c.base ++ s.resultsAfter c
    draft := (s.draft.place c.exit).dropEmptyPhis c.exit
    constructs := rest
    phase := .live }

section Fields

variable (s : State) (xs : Array Operand) (rhs : Rhs) (v : Operand) (i : Intrinsic)

-- None of these touches the open constructs, the phase or, but for the top, the stack.
@[simp] theorem constructs_computed : (s.computed rhs).constructs = s.constructs := rfl
@[simp] theorem constructs_computePush : (s.computePush rhs).constructs = s.constructs := rfl
@[simp] theorem constructs_restacked : (s.restacked xs).constructs = s.constructs := rfl
@[simp] theorem constructs_guarded : (s.guarded v).constructs = s.constructs := rfl
@[simp] theorem constructs_declare : (s.declare i).constructs = s.constructs := rfl

@[simp] theorem phase_computed : (s.computed rhs).phase = s.phase := rfl
@[simp] theorem phase_computePush : (s.computePush rhs).phase = s.phase := rfl
@[simp] theorem phase_restacked : (s.restacked xs).phase = s.phase := rfl
@[simp] theorem phase_guarded : (s.guarded v).phase = s.phase := rfl
@[simp] theorem phase_declare : (s.declare i).phase = s.phase := rfl

@[simp] theorem base_computePush : (s.computePush rhs).base = s.base := rfl
@[simp] theorem base_restacked : (s.restacked xs).base = s.base := rfl
@[simp] theorem base_guarded : (s.guarded v).base = s.base := rfl
@[simp] theorem base_declare : (s.declare i).base = s.base := rfl

@[simp] theorem stack_computePush :
    (s.computePush rhs).stack = s.stack.push (.result s.draft.nextValue rhs.type) := rfl
@[simp] theorem stack_restacked : (s.restacked xs).stack = xs := rfl
@[simp] theorem stack_guarded : (s.guarded v).stack = s.stack := rfl
@[simp] theorem stack_declare : (s.declare i).stack = s.stack := rfl

end Fields

/-- An operand that may be used: one on the stack, or one that is not computed. -/
def Holds (s : State) (v : Operand) : Prop :=
  v ∈ s.stack ∨ v.ids = []

end State

/-! ## Moves -/

/-- One change of the state of lowering. -/
inductive Move : State → State → Prop where
  /-- Makes the slot of a parameter or local. -/
  | slot {s : State} {first : Operand} (live : s.phase = .live)
      (entry : s.draft.current = Draft.entryLabel) (constant : first.ids = [])
      (type : ScalarType) : Move s (s.allotted type first)
  /-- Appends a computation and pushes its value. -/
  | compute {s : State} {rhs : Rhs} (live : s.phase = .live)
      (operands : ∀ v ∈ rhs.operands, s.Holds v)
      (slots : ∀ id ∈ rhs.slots, ∃ slot ∈ s.locals, slot.id = id) : Move s (s.computePush rhs)
  /-- Writes a local. -/
  | store {s : State} {v : Operand} {slot : Slot} (live : s.phase = .live) (value : s.Holds v)
      (mem : slot ∈ s.locals) : Move s (s.append (.store v slot.id))
  /-- Leaves a mark. -/
  | nop {s : State} (live : s.phase = .live) : Move s s.nop
  /-- Declares an intrinsic. -/
  | declare {s : State} (intrinsic : Intrinsic) : Move s (s.declare intrinsic)
  /-- Changes the operands above the base, without making up new ones. -/
  | restack {s : State} {xs : Array Operand} (base : s.base ≤ xs.size)
      (below : xs.toList.take s.base = s.stack.toList.take s.base)
      (held : ∀ v ∈ xs, s.Holds v) : Move s (s.restacked xs)
  /-- Counts constructs in dead code. -/
  | count {s : State} {depth : Nat} (dead : s.phase = .dead depth) (depth' : Nat) :
      Move s { s with phase := .dead depth' }
  /-- Completes the function. -/
  | finish {s : State} {depth : Nat} (dead : s.phase = .dead depth)
      (outermost : s.constructs = []) :
      Move s { s with phase := .finished }
  /-- Enters a block. -/
  | block {s : State} {params : Nat} {types : List ScalarType} (live : s.phase = .live)
      (arity : params ≤ s.stack.size - s.base) :
      Move s (s.opened .block .blockEnd types (s.stack.size - params))
  /-- Enters a loop. -/
  | loop {s : State} {types : List ScalarType} (live : s.phase = .live)
      (base : s.base ≤ s.stack.size) :
      Move s ((s.begun .loopBegin).opened (.loop (s.draft.newBlock .loopBegin).1) .loopEnd types
        s.stack.size)
  /-- Enters a conditional, with its condition on the stack. -/
  | fork {s : State} {xs : Array Operand} {condition : Operand} {params : Nat}
      {types : List ScalarType} (live : s.phase = .live) (stack : s.stack = xs.push condition)
      (base : s.base ≤ xs.size) (arity : params ≤ xs.size - s.base) :
      Move s ((s.restacked xs).forked condition params types)
  /-- Traps unless the condition on the stack holds. -/
  | guard {s : State} {xs : Array Operand} {condition : Operand} (live : s.phase = .live)
      (stack : s.stack = xs.push condition) (base : s.base ≤ xs.size) :
      Move s ((s.restacked xs).guarded condition)
  /-- Leaves for the end of a construct, with its results. -/
  | jump {s : State} {c : Construct} {values : Array Operand} (live : s.phase = .live)
      (mem : c ∈ s.constructs) (kind : ∀ head, c.kind ≠ .loop head)
      (arity : values.size = c.results.length) (held : ∀ v ∈ values, s.Holds v) :
      Move s (s.jumped c.exit values)
  /-- Goes back to the start of a loop. -/
  | back {s : State} {c : Construct} {head : Label} (live : s.phase = .live)
      (mem : c ∈ s.constructs) (kind : c.kind = .loop head) : Move s (s.ended (.br head))
  /-- Closes the insertion block without going anywhere. -/
  | close {s : State} {line : Line} (live : s.phase = .live) (terminator : line.isTerminator = true)
      (targets : line.targets = []) (uses : ∀ id ∈ line.uses, ∃ v ∈ s.stack, id ∈ v.ids) :
      Move s (s.ended line)
  /-- Returns several values in a structure. -/
  | retPacked {s : State} {fields : List ScalarType} {values : List Operand}
      (live : s.phase = .live) (held : ∀ v ∈ values, s.Holds v) :
      Move s { s with draft := s.draft.retPacked fields values, phase := .dead 0 }
  /-- Starts the second arm of a conditional. -/
  | alternate {s : State} {depth : Nat} {c : Construct} {rest : List Construct} {other : Label}
      {params : Array Operand} (dead : s.phase = .dead depth) (top : s.constructs = c :: rest)
      (kind : c.kind = .thenArm other params) (base : c.base ≤ s.stack.size) :
      Move s (s.alternated c rest other params)
  /-- Goes on after a construct. -/
  | leave {s : State} {depth : Nat} {c : Construct} {rest : List Construct}
      (dead : s.phase = .dead depth) (top : s.constructs = c :: rest)
      (kind : ∀ other params, c.kind ≠ .thenArm other params) (base : c.base ≤ s.stack.size) :
      Move s (s.left c rest)

/-- A sequence of moves. -/
abbrev Moves : State → State → Prop :=
  Relation.ReflTransGen Move

/-! ## Straight-line operators -/

section Straight

variable {s t : State}

private theorem holds_of_push {xs : Array Operand} {v : Operand} (h : s.stack = xs.push v) :
    s.Holds v :=
  .inl (by simp [h])

/-- Drops the topmost operands. -/
private theorem moves_drop {xs : Array Operand} (args : List Operand) (base : s.base ≤ xs.size)
    (stack : s.stack.toList = xs.toList ++ args) : Moves s (s.restacked xs) := by
  refine .single (.restack base ?_ fun v hv => .inl ?_)
  · rw [stack, List.take_append_of_le_length (by simpa using base)]
  · rw [← Array.mem_toList_iff, stack, List.mem_append, Array.mem_toList_iff]
    exact .inl hv

/-- Pushes an operand that is not computed. -/
private theorem moves_push {v : Operand} (base : s.base ≤ s.stack.size) (hv : v.ids = []) :
    Moves s (s.push v) := by
  have hmove : Move s (s.restacked (s.stack.push v)) := by
    refine .restack (by rw [Array.size_push]; omega) ?_ fun w hw => ?_
    · rw [Array.toList_push, List.take_append_of_le_length (by simpa using base)]
    · obtain hw | rfl := Array.mem_push.1 hw
      · exact .inl hw
      · exact .inr hv
  exact .single hmove

/-- A computation is two moves at most: an intrinsic is declared first. -/
private theorem moves_emitted_push {rhs : Rhs} (live : s.phase = .live)
    (operands : ∀ v ∈ rhs.operands, s.Holds v) (slots : rhs.slots = []) :
    Moves s ((s.emitted rhs).push (.result s.draft.nextValue rhs.type)) := by
  -- No computation but the reading of a local has a slot.
  have hslots : ∀ id ∈ rhs.slots, ∃ slot ∈ s.locals, slot.id = id := by simp [slots]
  cases rhs with
  | call intrinsic args =>
    refine (Relation.ReflTransGen.single (Move.declare intrinsic)).tail ?_
    exact @Move.compute (s.declare intrinsic) (.call intrinsic args) live operands hslots
  | _ => exact .single (.compute live operands hslots)

/-- A list of computations is a sequence of moves, if each of them has its operands among those that
    are held, and the values before it. The operands above `xs` are dropped in the end. -/
private theorem moves_emittedAll_of_held {xs : Array Operand} (held dropped : List Operand)
    {computations : List Rhs} (live : s.phase = .live) (base : s.base ≤ xs.size)
    (hheld : ∀ v ∈ held, s.Holds v) (stack : s.stack.toList = xs.toList ++ dropped)
    (chained : Chained held s.draft.nextValue computations) (hne : computations ≠ []) :
    Moves s ((s.restacked xs).emittedAll computations) := by
  -- By induction on the list: the value of the first computation stays on the stack as an operand
  -- of the others.
  induction computations generalizing s held dropped with
  | nil => exact absurd rfl hne
  | cons rhs rest ih =>
    obtain ⟨hops, hslots, hrest⟩ := chained
    let value : Operand := .result s.draft.nextValue rhs.type
    let u := (s.emitted rhs).push value
    have hfirst : Moves s u :=
      moves_emitted_push live (fun v hv => (hops v hv).elim (hheld v) .inr) hslots
    have hphase : u.phase = .live := by cases rhs <;> exact live
    have hbase : u.base ≤ xs.size := by cases rhs <;> exact base
    have hpush : u.stack = s.stack.push value := by cases rhs <;> rfl
    have hstack : u.stack.toList = xs.toList ++ (dropped ++ [value]) := by
      rw [hpush, Array.toList_push, stack, List.append_assoc]
    cases rest with
    | nil =>
      refine hfirst.trans (.single ?_)
      -- The last value stays on the stack, and all that it was computed from goes.
      have hlast : (s.restacked xs).emittedAll [rhs] = u.restacked (xs.push value) := by
        cases rhs <;> rfl
      rw [hlast]
      refine .restack ?_ ?_ ?_
      · rw [Array.size_push]
        exact Nat.le_succ_of_le hbase
      · have hb : u.base ≤ xs.toList.length := by simpa using hbase
        rw [hstack, Array.toList_push, List.take_append_of_le_length hb,
          List.take_append_of_le_length hb]
      · intro v hv
        refine .inl ?_
        rw [← Array.mem_toList_iff, hstack]
        obtain hv | rfl := Array.mem_push.1 hv
        · exact List.mem_append_left _ (Array.mem_toList_iff.2 hv)
        · simp
    | cons second rest =>
      -- The next computation has the next number, and may use the value before it, too.
      have hnext : u.draft.nextValue = s.draft.nextValue + 1 := by cases rhs <;> rfl
      have hheld' : ∀ v ∈ held ++ [value], u.Holds v := by
        intro v hv
        obtain hv | hv := List.mem_append.1 hv
        · exact (hheld v hv).imp_left fun h => hpush ▸ Array.mem_push_of_mem _ h
        · exact .inl (hpush ▸ List.mem_singleton.1 hv ▸ Array.mem_push_self)
      have hmoves := ih _ _ hphase hbase hheld' hstack (by rw [hnext]; exact hrest)
        (List.cons_ne_nil _ _)
      have hsame : (s.restacked xs).emittedAll (rhs :: second :: rest) =
          (u.restacked xs).emittedAll (second :: rest) := by
        cases rhs <;> rfl
      rw [hsame]
      exact hfirst.trans hmoves

private theorem moves_emittedAll {xs : Array Operand} (args : List Operand)
    {computations : List Rhs} (live : s.phase = .live) (base : s.base ≤ xs.size)
    (stack : s.stack.toList = xs.toList ++ args)
    (chained : Chained args s.draft.nextValue computations) (hne : computations ≠ []) :
    Moves s ((s.restacked xs).emittedAll computations) := by
  refine moves_emittedAll_of_held args args live base (fun v hv => .inl ?_) stack chained hne
  rw [← Array.mem_toList_iff, stack]
  exact List.mem_append_right _ hv

/-- Reading a local is a computation from its slot. -/
private theorem localGet_moves {index : UInt32} (live : s.phase = .live)
    (h : s.localGet index = .ok t) : Moves s t := by
  unfold State.localGet at h
  split at h
  · cases h
  · next slot hslot =>
    obtain rfl := Except.ok.inj h
    refine .single (.compute live (by simp [Rhs.operands]) fun id hid => ?_)
    obtain rfl : id = slot.id := by simpa [Rhs.slots] using hid
    exact ⟨slot, Array.mem_of_getElem? hslot, rfl⟩

/-- Writing a local takes its operand from the stack. -/
private theorem localSet_moves {index : UInt32} (live : s.phase = .live)
    (h : s.localSet index = .ok t) : Moves s t := by
  unfold State.localSet at h
  split at h
  · cases h
  · next slot hslot =>
    obtain ⟨⟨v, u⟩, hp, h⟩ := bind_eq_ok.1 h
    obtain ⟨xs, hs, hb, rfl⟩ := State.pop_eq_ok.1 hp
    obtain rfl := Except.ok.inj h
    -- The operand is stored while it is still on the stack, and dropped afterwards.
    have hstore : Move s (s.append (.store v slot.id)) :=
      .store live (holds_of_push hs) (Array.mem_of_getElem? hslot)
    have hstack : (s.append (.store v slot.id)).stack.toList = xs.toList ++ [v] := by
      show s.stack.toList = _
      rw [hs, Array.toList_push]
    exact (Relation.ReflTransGen.single hstore).trans (moves_drop [v] hb hstack)

/-- Writing a local may leave its operand on the stack. -/
private theorem localTee_moves {index : UInt32} (live : s.phase = .live)
    (h : s.localTee index = .ok t) : Moves s t := by
  unfold State.localTee at h
  split at h
  · cases h
  · next slot hslot =>
    obtain ⟨v, hp, h⟩ := bind_eq_ok.1 h
    obtain ⟨xs, hs, hb⟩ := State.peek_eq_ok.1 hp
    obtain rfl := Except.ok.inj h
    exact .single (.store live (holds_of_push hs) (Array.mem_of_getElem? hslot))

private theorem drop_moves (h : s.drop = .ok t) : Moves s t := by
  obtain ⟨⟨v, u⟩, hp, h⟩ := bind_eq_ok.1 h
  obtain ⟨xs, hs, hb, rfl⟩ := State.pop_eq_ok.1 hp
  obtain rfl := Except.ok.inj h
  exact moves_drop [v] hb (by rw [hs, Array.toList_push])

/-- What a checked conversion appends. -/
private theorem truncChecked_eq (s : State) (a : Operand) (target : ScalarType) (signed : Bool) :
    s.truncChecked a target signed =
      let range := TruncRange.of a.type target.bits signed
      let next := s.draft.nextValue
      let u := ((s.computed (.fcmp (if range.inclusive then .oge else .ogt) a
        (a.type.constant range.lower))).computed
        (.fcmp .olt a (a.type.constant range.upper))).computed
        (.binary .and (.result next (.int 1)) (.result (next + 1) (.int 1)))
      ((u.guarded (.result (next + 2) (.int 1))).declare ⟨.trap, []⟩).computePush
        (.cast (if signed then .fptosi else .fptoui) a target) := by
  -- The new blocks and the numbers of the comparisons are those of the draft before them.
  have hblock : ∀ (u : State) role, u.newBlock role =
      ((u.draft.newBlock role).1, { u with draft := (u.draft.newBlock role).2 }) :=
    fun _ _ => rfl
  have hnext : ∀ (u : State) rhs, (u.computed rhs).draft.nextValue = u.draft.nextValue + 1 :=
    fun _ _ => rfl
  simp only [State.truncChecked, State.compute_eq, hblock, hnext, State.guarded, Draft.guard,
    State.append, State.place, State.declare, Rhs.type, Operand.type]

/-- The comparisons of a checked conversion with the bounds of its range, and whether both hold. -/
def truncChecks (a : Operand) (target : ScalarType) (signed : Bool) (next : ValueId) : List Rhs :=
  let range := TruncRange.of a.type target.bits signed
  [.fcmp (if range.inclusive then .oge else .ogt) a (a.type.constant range.lower),
    .fcmp .olt a (a.type.constant range.upper),
    .binary .and (.result next (.int 1)) (.result (next + 1) (.int 1))]

/-- A checked conversion changes the draft, the intrinsics and the top of the stack. -/
theorem truncChecked_fields (s : State) (a : Operand) (target : ScalarType) (signed : Bool) :
    s.truncChecked a target signed = { s with
      draft := ((s.draft.assigned (truncChecks a target signed s.draft.nextValue)).guard
        (.result (s.draft.nextValue + 2) (.int 1))).assigned
          [.cast (if signed then .fptosi else .fptoui) a target]
      stack := s.stack.push (.result (s.draft.nextValue + 3) target)
      intrinsics := s.intrinsics.declare ⟨.trap, []⟩ } := by
  rw [truncChecked_eq]
  simp only [State.guarded, State.computed, State.computePush_eq, State.push, State.declare,
    truncChecks, Draft.assigned, Draft.nextValue_guard, Draft.nextValue_append,
    Draft.nextValue_skipValue, Rhs.type]

/-- The checks of a conversion leave its operand on the stack, below their outcome. -/
private theorem truncChecks_moves {xs : Array Operand} {a : Operand} (target : ScalarType)
    (signed : Bool)
    (live : s.phase = .live) (base : s.base ≤ xs.size) (stack : s.stack = xs.push a) :
    Moves s ((s.restacked (xs.push a)).emittedAll
      (truncChecks a target signed s.draft.nextValue)) := by
  have hbase : s.base ≤ (xs.push a).size := by
    rw [Array.size_push]
    exact Nat.le_succ_of_le base
  refine moves_emittedAll_of_held [a] [] live hbase (fun v hv => ?_) (by simp [stack]) ?_ ?_
  · exact List.mem_singleton.1 hv ▸ holds_of_push stack
  · simp [Chained, truncChecks, Rhs.operands, Rhs.slots, Rhs.type, ScalarType.ids_constant]
  · simp [truncChecks]

/-- A branch uses up its condition, and the operand below goes on to a computation in the new
    block. -/
private theorem guarded_moves {xs : Array Operand} {a condition : Operand} {rhs : Rhs}
    (live : s.phase = .live) (base : s.base ≤ xs.size)
    (stack : s.stack = (xs.push a).push condition)
    (chained : ∀ next, Chained [a] next [rhs]) :
    Moves s (((((s.restacked (xs.push a)).guarded condition).declare ⟨.trap, []⟩).restacked
      xs).emittedAll [rhs]) := by
  -- The condition is taken off the stack by the guard.
  have hguard : Move s ((s.restacked (xs.push a)).guarded condition) := by
    refine .guard live stack ?_
    rw [Array.size_push]
    exact Nat.le_succ_of_le base
  refine .head hguard (.head (Move.declare ⟨.trap, []⟩) ?_)
  refine moves_emittedAll [a] ?_ ?_ ?_ (chained _) (List.cons_ne_nil _ _)
  · rw [State.phase_declare, State.phase_guarded, State.phase_restacked, live]
  · rw [State.base_declare, State.base_guarded, State.base_restacked]
    exact base
  · rw [State.stack_declare, State.stack_guarded, State.stack_restacked, Array.toList_push]

/-- A checked conversion compares its operand with two bounds and goes on in a new block. -/
private theorem truncChecked_moves {xs : Array Operand} {a : Operand} (target : ScalarType)
    (signed : Bool)
    (live : s.phase = .live) (base : s.base ≤ xs.size) (stack : s.stack = xs.push a) :
    Moves s ((s.restacked xs).truncChecked a target signed) := by
  let checks := truncChecks a target signed s.draft.nextValue
  let inRange : Operand := .result (s.draft.nextValue + 2) (.int 1)
  let cast : Rhs := .cast (if signed then .fptosi else .fptoui) a target
  -- The operand stays on the stack during the checks, since the conversion needs it afterwards.
  have hresult : (s.restacked xs).truncChecked a target signed =
      ((((((s.restacked (xs.push a)).emittedAll checks).restacked (xs.push a)).guarded
        inRange).declare ⟨.trap, []⟩).restacked xs).emittedAll [cast] := by
    rw [truncChecked_eq]
    rfl
  rw [hresult]
  refine (truncChecks_moves target signed live base stack).trans ?_
  refine guarded_moves ?_ ?_ rfl fun _ => by simp [cast, Chained, Rhs.operands, Rhs.slots]
  · rw [State.phase_emittedAll, State.phase_restacked, live]
  · rw [State.base, State.constructs_emittedAll]
    exact base

/-- A conversion that is no computation is a checked one. -/
private theorem convert_moves {c : Conversion} (live : s.phase = .live) (h : s.convert c = .ok t)
    (hc : (Operator.convert c).isComputation = false) : Moves s t := by
  obtain ⟨⟨a, u⟩, hp, h⟩ := bind_eq_ok.1 h
  obtain ⟨xs, hs, hb, rfl⟩ := State.pop_eq_ok.1 hp
  obtain ⟨target, ht, h⟩ := bind_eq_ok.1 h
  cases c with
  | trunc source width signed =>
    obtain rfl := Except.ok.inj h
    exact truncChecked_moves target signed live hb hs
  | _ => cases hc

end Straight

/-! ## Operators on the control flow -/

section Control

variable {s t : State}

theorem hasOperands_iff {n : Nat} : s.hasOperands n = true ↔ n ≤ s.stack.size - s.base := by
  simp [State.hasOperands]

/-- A construct can be entered if its parameters are there and its results have native types. -/
theorem enter_eq_ok {type : FuncType} {kind : ConstructKind} {role : BlockRole} :
    s.enter type kind role = .ok t ↔
      type.params.length ≤ s.stack.size - s.base ∧
      ∃ types, type.results.mapM (ValueType.scalar hostPointerBits) = .ok types ∧
        t = s.opened kind role types (s.stack.size - type.params.length) := by
  unfold State.enter
  rw [bind_eq_ok]
  simp only [require_eq_ok, hasOperands_iff, exists_and_left, bind_eq_ok]
  refine and_congr_right fun _ => ?_
  constructor
  · intro ⟨_, types, ht, h⟩
    -- The phis are those of the results.
    rw [Draft.addPhis_fst] at h
    exact ⟨types, ht, (Except.ok.inj h).symm⟩
  · intro ⟨types, ht, h⟩
    refine ⟨(), types, ht, ?_⟩
    rw [Draft.addPhis_fst]
    exact congrArg _ h.symm

/-- The topmost operands are on the stack. -/
theorem mem_of_mem_top {n : Nat} {v : Operand} (h : v ∈ s.top n) : v ∈ s.stack := by
  rw [State.top, Array.mem_iff_getElem] at h
  obtain ⟨i, hi, rfl⟩ := h
  rw [Array.getElem_extract]
  exact Array.getElem_mem _

/-- As many operands are taken from the top as asked for, if the stack is high enough. -/
theorem size_top {n : Nat} (h : n ≤ s.stack.size) : (s.top n).size = n := by
  rw [State.top, Array.size_extract]
  omega

/-- Drops all operands above the base. -/
theorem moves_truncate (base : s.base ≤ s.stack.size) :
    Moves s (s.restacked (s.stack.take s.base)) := by
  refine moves_drop (s.stack.toList.drop s.base) ?_ ?_
  · simp [base]
  · simp

/-- Something is done with the stack cut off at a height, which it has to have. -/
private theorem truncate_bind_eq_ok {height : Nat} (f : State → State) :
    (s.truncate height >>= fun u => Except.ok (f u)) = .ok t ↔ height ≤ s.stack.size ∧
      t = f { s with stack := s.stack.take height } := by
  rw [bind_eq_ok]
  constructor
  · intro ⟨u, hu, h⟩
    obtain ⟨hb, rfl⟩ := State.truncate_eq_ok.1 hu
    exact ⟨hb, (Except.ok.inj h).symm⟩
  · intro ⟨hb, h⟩
    exact ⟨_, State.truncate_eq_ok.2 ⟨hb, rfl⟩, congrArg _ h.symm⟩

theorem enterDead_eq_ok :
    s.enterDead = .ok t ↔ s.base ≤ s.stack.size ∧
      t = { s with stack := s.stack.take s.base, phase := .dead 0 } := by
  unfold State.enterDead
  exact truncate_bind_eq_ok _

private theorem ended_enterDead_moves {line : Line} (live : s.phase = .live)
    (terminator : line.isTerminator = true) (targets : line.targets = [])
    (uses : ∀ id ∈ line.uses, ∃ v ∈ s.stack, id ∈ v.ids)
    (h : (s.append line).enterDead = .ok t) : Moves s t := by
  obtain ⟨hb, rfl⟩ := enterDead_eq_ok.1 h
  have hclose : Move s (s.ended line) := .close live terminator targets uses
  exact (Relation.ReflTransGen.single hclose).trans (@moves_truncate (s.ended line) hb)

/-- Storing fields changes the draft only. -/
private theorem storeFields_eq (s : State) (slot : ValueId) (index : Nat) (values : List Operand) :
    s.storeFields slot index values =
      { s with draft := s.draft.storeFields slot index values } := by
  induction values generalizing s index with
  | nil => rfl
  | cons v values ih =>
    have hcons : s.storeFields slot index (v :: values) =
        ((s.define (.field · index slot)).2.append (.store v s.draft.nextValue)).storeFields slot
          (index + 1) values := rfl
    rw [hcons, ih]
    rfl

/-- Returning a structure changes the draft only. -/
private theorem retPacked_eq (s : State) (fields : List ScalarType) (values : List Operand) :
    s.retPacked fields values = { s with draft := s.draft.retPacked fields values } := by
  unfold State.retPacked
  simp only [storeFields_eq]
  rfl

/-- A return leaves the state dead and empties the innermost construct. -/
theorem ret_eq_ok :
    s.ret = .ok t ↔ s.results.length ≤ s.stack.size - s.base ∧ s.base ≤ s.stack.size ∧
      ∃ fields, (2 ≤ s.results.length →
          s.results.mapM (ValueType.scalar hostPointerBits) = .ok fields) ∧
        t = { s with
          draft := s.draft.returned fields (s.top s.results.length).toList
          stack := s.stack.take s.base
          phase := .dead 0 } := by
  unfold State.ret
  rw [bind_eq_ok]
  simp only [require_eq_ok, hasOperands_iff, exists_and_left]
  refine and_congr_right fun hn => ?_
  -- As many values are returned as the function has results.
  have hsize : (s.top s.results.length).toList.length = s.results.length := by
    rw [Array.length_toList, size_top (by omega)]
  generalize (s.top s.results.length).toList = values at hsize ⊢
  -- No value, one value, or a structure of several.
  rcases values with _ | ⟨v, _ | ⟨w, values⟩⟩
  · rw [List.length_nil] at hsize
    simp only [exists_const]
    refine enterDead_eq_ok.trans (and_congr_right fun _ => ⟨fun h => ⟨[], by omega, h⟩, ?_⟩)
    rintro ⟨_, _, h⟩
    exact h
  · rw [List.length_singleton] at hsize
    simp only [exists_const]
    refine enterDead_eq_ok.trans (and_congr_right fun _ => ⟨fun h => ⟨[], by omega, h⟩, ?_⟩)
    rintro ⟨_, _, h⟩
    exact h
  · simp only [exists_const, bind_eq_ok, retPacked_eq, enterDead_eq_ok]
    rw [List.length_cons, List.length_cons] at hsize
    constructor
    · rintro ⟨fields, hf, hb, h⟩
      exact ⟨hb, fields, fun _ => hf, h⟩
    · rintro ⟨hb, fields, hf, h⟩
      exact ⟨fields, hf (by omega), hb, h⟩

/-- A return is a sequence of moves. -/
theorem ret_moves (live : s.phase = .live) (h : s.ret = .ok t) : Moves s t := by
  obtain ⟨-, hb, fields, -, rfl⟩ := ret_eq_ok.1 h
  let d := s.draft.returned fields (s.top s.results.length).toList
  have hheld : ∀ v ∈ (s.top s.results.length).toList, v ∈ s.stack := fun v hv =>
    mem_of_mem_top (Array.mem_toList_iff.1 hv)
  -- The insertion block is closed first, then the stack is emptied.
  have hclose : Move s { s with draft := d, phase := .dead 0 } := by
    simp only [d]
    match (s.top s.results.length).toList, hheld with
    | [], _ => exact .close live rfl rfl (by simp [Line.uses])
    | [v], hheld =>
      exact .close live rfl rfl fun id hid => ⟨v, hheld v List.mem_cons_self, hid⟩
    | v :: w :: values, hheld => exact .retPacked live fun u hu => .inl (hheld u hu)
  exact (Relation.ReflTransGen.single hclose).trans
    (@moves_truncate { s with draft := d, phase := .dead 0 } hb)

private theorem unreachable_moves (live : s.phase = .live) (h : s.unreachable = .ok t) :
    Moves s t :=
  ended_enterDead_moves live rfl rfl (by simp [Line.uses]) h

private theorem block_moves {type : FuncType} (live : s.phase = .live) (h : s.block type = .ok t) :
    Moves s t := by
  obtain ⟨harity, types, -, rfl⟩ := enter_eq_ok.1 h
  exact .single (.block live harity)

private theorem loop_moves {results : List ValueType} (live : s.phase = .live)
    (base : s.base ≤ s.stack.size) (h : s.loop results = .ok t) : Moves s t := by
  obtain ⟨-, types, -, rfl⟩ := enter_eq_ok.1 h
  exact .single (.loop live base)

/-- A conditional compares its condition with zero and branches to its arms. -/
theorem ifBlock_eq_ok {type : FuncType} :
    s.ifBlock type = .ok t ↔ ∃ xs v types, s.stack = xs.push v ∧ s.base ≤ xs.size ∧
      type.params.length ≤ xs.size - s.base ∧
      type.results.mapM (ValueType.scalar hostPointerBits) = .ok types ∧
      t = ((s.restacked xs).computed (.icmp .ne v v.type.zero)).forked
        (.result s.draft.nextValue (.int 1)) type.params.length types := by
  -- The conditional of a state whose condition has been compared with zero.
  let after : State → Operand → Except Fault State := fun u condition => do
    let w ← ({ u with draft := u.draft.fork condition } : State).enter type
      (.thenArm u.draft.arms.2 (u.top type.params.length)) .ifEnd
    return w.place u.draft.arms.1
  have heq : s.ifBlock type = s.pop >>= fun p => after (p.2.computed (.icmp .ne p.1 p.1.type.zero))
      (.result p.2.draft.nextValue (.int 1)) := rfl
  have hafter : ∀ u condition, after u condition = .ok t ↔
      type.params.length ≤ u.stack.size - u.base ∧
      ∃ types, type.results.mapM (ValueType.scalar hostPointerBits) = .ok types ∧
        t = u.forked condition type.params.length types := by
    intro u condition
    simp only [after, bind_eq_ok, enter_eq_ok]
    constructor
    · intro ⟨w, ⟨harity, types, htypes, hw⟩, h⟩
      rw [hw] at h
      exact ⟨harity, types, htypes, (Except.ok.inj h).symm⟩
    · intro ⟨harity, types, htypes, h⟩
      exact ⟨_, ⟨harity, types, htypes, rfl⟩, congrArg _ h.symm⟩
  rw [heq, bind_eq_ok]
  constructor
  · intro ⟨⟨v, u⟩, hp, h⟩
    obtain ⟨xs, hs, hb, rfl⟩ := State.pop_eq_ok.1 hp
    obtain ⟨harity, types, htypes, h⟩ := (hafter _ _).1 h
    exact ⟨xs, v, types, hs, hb, harity, htypes, h⟩
  · intro ⟨xs, v, types, hs, hb, harity, htypes, h⟩
    exact ⟨(v, s.restacked xs), State.pop_eq_ok.2 ⟨xs, hs, hb, rfl⟩,
      (hafter _ _).2 ⟨harity, types, htypes, h⟩⟩

/-- Entering a conditional is two moves, since its condition is compared with zero first. -/
private theorem ifBlock_moves {type : FuncType} (live : s.phase = .live)
    (h : s.ifBlock type = .ok t) :
    Moves s t := by
  obtain ⟨xs, v, types, hs, hb, harity, -, rfl⟩ := ifBlock_eq_ok.1 h
  let compare : Rhs := .icmp .ne v v.type.zero
  let condition : Operand := .result s.draft.nextValue (.int 1)
  -- The condition replaces the operand it was computed from, and is used up by the branch.
  have h₁ : Moves s ((s.restacked xs).emittedAll [compare]) := by
    refine moves_emittedAll [v] live hb (by rw [hs, Array.toList_push]) ?_ (by simp)
    simp [Chained, compare, Rhs.operands, Rhs.slots]
  refine h₁.tail ?_
  exact @Move.fork ((s.restacked xs).emittedAll [compare]) xs condition type.params.length types
    live rfl hb harity

/-- The state after a block was closed, while the operator that closes it goes on. -/
def State.closed (s : State) : State :=
  { s with phase := .dead 0 }

/-- A branch to a loop goes back to its start. One to another construct goes to its end, with its
    results from the top of the stack. -/
theorem exitTo_eq_ok {c : Construct} :
    s.exitTo c = .ok t ↔
      (∃ head, c.kind = .loop head ∧ t = s.append (.br head)) ∨
      ((∀ head, c.kind ≠ .loop head) ∧ c.results.length ≤ s.stack.size - s.base ∧
        t = { s with draft :=
          (s.draft.addEdges c.exit (s.top c.results.length)).append (.br c.exit) }) := by
  unfold State.exitTo
  split
  -- A branch to a loop goes back to its first block, without values.
  · next head hk =>
    constructor
    · intro h
      exact .inl ⟨head, hk, (Except.ok.inj h).symm⟩
    · intro h
      obtain ⟨head', hk', rfl⟩ | ⟨hk', -⟩ := h
      · rw [hk, ConstructKind.loop.injEq] at hk'
        rw [hk']
      · exact absurd hk (hk' head)
  -- Any other branch carries the results to the exit.
  · next hk =>
    simp only [hasOperands_iff]
    split
    · next hn =>
      constructor
      · intro h
        exact .inr ⟨hk, hn, (Except.ok.inj h).symm⟩
      · intro h
        obtain ⟨head', hk', -⟩ | ⟨-, -, rfl⟩ := h
        · exact absurd hk' (hk head')
        · rfl
    · next hn =>
      constructor
      · intro h
        cases h
      · intro h
        obtain ⟨head', hk', -⟩ | ⟨-, hn', -⟩ := h
        · exact absurd hk' (hk head')
        · exact absurd hn' hn

/-- Going to the end of an open construct is one move, and leaves the rest of the state as it is. -/
private theorem exitTo_move {c : Construct} (live : s.phase = .live) (mem : c ∈ s.constructs)
    (h : s.exitTo c = .ok t) :
    Move s t.closed ∧ t.stack = s.stack ∧ t.constructs = s.constructs := by
  obtain ⟨head, hk, rfl⟩ | ⟨hk, hn, rfl⟩ := exitTo_eq_ok.1 h
  · exact ⟨.back live mem hk, rfl, rfl⟩
  · refine ⟨.jump live mem hk (size_top (by omega)) fun v hv => .inl ?_, rfl, rfl⟩
    exact mem_of_mem_top hv

/-- An arm that is left has nothing but the results of its construct on the stack. -/
theorem exitArm_eq_ok {c : Construct} :
    s.exitArm c = .ok t ↔ s.stack.size = c.base + c.results.length ∧ s.exitTo c = .ok t := by
  unfold State.exitArm
  rw [bind_eq_ok]
  simp only [require_eq_ok, beq_iff_eq, exists_and_left]
  exact and_congr_right fun _ => ⟨fun ⟨_, h⟩ => h, fun h => ⟨(), h⟩⟩

/-- Leaving an arm is one move if its end can be reached, and none otherwise. -/
theorem exitLast_moves {c : Construct} {live : Bool} (phase : live = true → s.phase = .live)
    (dead : live = false → ∃ depth, s.phase = .dead depth) (mem : c ∈ s.constructs)
    (h : s.exitLast c live = .ok t) :
    (∃ depth, Moves s { t with phase := .dead depth }) ∧ t.stack = s.stack ∧
      t.constructs = s.constructs := by
  unfold State.exitLast at h
  split at h
  · next hl =>
    -- The check that nothing else is on the stack was made, where there is one.
    have hexit : s.exitTo c = .ok t := by
      split at h
      · exact h
      · exact (exitArm_eq_ok.1 h).2
    obtain ⟨hm, hs, hc⟩ := exitTo_move (phase hl) mem hexit
    exact ⟨⟨0, .single hm⟩, hs, hc⟩
  · next hl =>
    obtain rfl := Except.ok.inj h
    obtain ⟨depth, hd⟩ := dead (by simpa using hl)
    refine ⟨⟨depth, ?_⟩, rfl, rfl⟩
    rw [← hd]

/-- The second arm starts with the parameters of the conditional, in its own block. -/
theorem startArm_eq_ok {c : Construct} {other : Label} {params : Array Operand} :
    s.startArm c other params = .ok t ↔ c.base ≤ s.stack.size ∧
      t = { s with
        stack := s.stack.take c.base ++ params
        draft := s.draft.place other } := by
  unfold State.startArm
  exact truncate_bind_eq_ok _

theorem leave_eq_ok {c : Construct} {rest : List Construct} :
    s.leave c rest = .ok t ↔ c.base ≤ s.stack.size ∧ t = s.left c rest := by
  unfold State.leave
  exact truncate_bind_eq_ok _

/-- An `else` leaves the first arm of a conditional and starts the second. -/
theorem elseBlock_eq_ok {live : Bool} :
    s.elseBlock live = .ok t ↔
      ∃ c rest other params u, s.constructs = c :: rest ∧ c.kind = .thenArm other params ∧
        s.exitLast c live = .ok u ∧ c.base ≤ u.stack.size ∧
        t = u.alternated c rest other params := by
  unfold State.elseBlock
  split
  · next htop => simp [htop]
  · next c rest htop =>
    split
    · next other params hk =>
      -- The first arm is left here as it is at an `end`.
      have hlast : (if live then s.exitArm c else .ok s) = s.exitLast c live := by
        unfold State.exitLast
        rw [hk]
      have hbind : (s.exitLast c live >>= fun u => do
          let u ← u.startArm c other params
          return { u with constructs := { c with kind := .elseArm } :: rest, phase := .live }) =
          .ok t ↔ ∃ u, s.exitLast c live = .ok u ∧ c.base ≤ u.stack.size ∧
            t = u.alternated c rest other params := by
        rw [bind_eq_ok]
        refine exists_congr fun u => and_congr_right fun _ => ?_
        rw [bind_eq_ok]
        constructor
        · intro ⟨w, hw, h⟩
          obtain ⟨hb, rfl⟩ := startArm_eq_ok.1 hw
          exact ⟨hb, (Except.ok.inj h).symm⟩
        · intro ⟨hb, h⟩
          exact ⟨_, startArm_eq_ok.2 ⟨hb, rfl⟩, congrArg _ h.symm⟩
      -- What is left to see is that no other construct can have the `else`.
      rw [← hlast] at hbind
      cases live <;> (refine hbind.trans ?_; simp [htop, hk, ← hlast])
    · next hk =>
      constructor
      · intro h
        cases h
      · intro ⟨c', rest', other, params, u, hc, hk', _⟩
        rw [htop, List.cons.injEq] at hc
        exact absurd (hc.1 ▸ hk') (hk other params)

private theorem elseBlock_moves {live : Bool} (phase : live = true → s.phase = .live)
    (dead : live = false → ∃ depth, s.phase = .dead depth) (h : s.elseBlock live = .ok t) :
    Moves s t := by
  obtain ⟨c, rest, other, params, u, htop, hk, hu, hb, rfl⟩ := elseBlock_eq_ok.1 h
  have hmem : c ∈ s.constructs := by rw [htop]; exact List.mem_cons_self
  obtain ⟨⟨depth, hm⟩, -, hc⟩ := exitLast_moves phase dead hmem hu
  refine hm.tail ?_
  exact @Move.alternate { u with phase := .dead depth } depth c rest other params rfl
    (hc.trans htop) hk hb

/-- The function is completed by a return if its end can be reached, and as it is otherwise. -/
theorem finishFunction_eq_ok {live : Bool} :
    s.finishFunction live = .ok t ↔
      ∃ u, (if live then s.stack.size = s.results.length ∧ s.ret = .ok u else s = u) ∧
        t = { u with phase := .finished } := by
  cases live with
  | false =>
    have hdone : s.finishFunction false = .ok { s with phase := .finished } := rfl
    simp [hdone, eq_comm]
  | true =>
    -- The end can be reached, so the function returns there.
    have hret : s.finishFunction true = (do
        require (s.stack.size == s.results.length)
        let u ← s.ret
        return { u with phase := .finished }) := rfl
    rw [hret, bind_eq_ok]
    simp only [require_eq_ok, beq_iff_eq, bind_eq_ok, if_true]
    constructor
    · intro ⟨_, hn, u, hu, h⟩
      exact ⟨u, ⟨hn, hu⟩, (Except.ok.inj h).symm⟩
    · intro ⟨u, ⟨hn, hu⟩, h⟩
      exact ⟨(), hn, u, hu, congrArg _ h.symm⟩

/-- An `end` leaves the last arm of its construct, adds the second arm of a conditional that has
    none, and goes on after the construct. -/
theorem endBlock_eq_ok {live : Bool} {c : Construct} {rest : List Construct}
    (htop : s.constructs = c :: rest) :
    s.endBlock live = .ok t ↔
      ∃ u, s.exitLast c live = .ok u ∧
        ((∀ other params, c.kind ≠ .thenArm other params) ∧ u.leave c rest = .ok t ∨
          ∃ other params v w, c.kind = .thenArm other params ∧
            u.startArm c other params = .ok v ∧ v.exitTo c = .ok w ∧ w.leave c rest = .ok t) := by
  unfold State.endBlock
  rw [htop]
  simp only
  rw [bind_eq_ok]
  refine exists_congr fun u => and_congr_right fun _ => ?_
  split
  -- A conditional without a second arm gets an empty one.
  · next other params hk =>
    simp only [bind_eq_ok, hk, ConstructKind.thenArm.injEq]
    constructor
    · intro ⟨v, hv, w, hw, h⟩
      exact .inr ⟨other, params, v, w, ⟨rfl, rfl⟩, hv, hw, h⟩
    · intro h
      obtain ⟨hk', -⟩ | ⟨_, _, v, w, ⟨rfl, rfl⟩, hv, hw, h⟩ := h
      · exact absurd rfl (hk' other params)
      · exact ⟨v, hv, w, hw, h⟩
  · next hk =>
    constructor
    · intro h
      exact .inl ⟨hk, h⟩
    · intro h
      obtain ⟨-, h⟩ | ⟨other, params, -, -, hk', -⟩ := h
      · exact h
      · exact absurd hk' (hk other params)

/-- Without a second arm, the parameters of a conditional go to its end by way of the block of that
    arm. -/
theorem leave_otherwise (depth : Nat) {u v w : State} {c : Construct} {rest : List Construct}
    {other : Label} {params : Array Operand} (htop : u.constructs = c :: rest)
    (hk : c.kind = .thenArm other params) (hv : u.startArm c other params = .ok v)
    (hw : v.exitTo c = .ok w) (h : w.leave c rest = .ok t) :
    let u' : State := { u with phase := .dead depth }
    let x := u'.alternated c rest other params
    Move u' x ∧ Move x (x.jumped c.exit (x.top c.results.length)) ∧
      c.results.length ≤ x.stack.size - c.base ∧ c.base ≤ x.stack.size ∧
      t = (x.jumped c.exit (x.top c.results.length)).left { c with kind := .elseArm } rest := by
  intro u' x
  obtain ⟨hb, rfl⟩ := startArm_eq_ok.1 hv
  -- A conditional is no loop, so its end is where the branch of the empty arm goes.
  obtain ⟨head, hk', -⟩ | ⟨-, hn, rfl⟩ := exitTo_eq_ok.1 hw
  · rw [hk] at hk'
    cases hk'
  obtain ⟨hb', rfl⟩ := leave_eq_ok.1 h
  have hbase : State.base { u with stack := u.stack.take c.base ++ params } = c.base := by
    simp only [State.base, htop]
  have hn' : c.results.length ≤ x.stack.size - c.base := by
    rw [← hbase]
    exact hn
  refine ⟨.alternate rfl htop hk hb, ?_, hn', hb', rfl⟩
  refine @Move.jump x { c with kind := .elseArm } _ rfl List.mem_cons_self
    (fun head h => by cases h) ?_ ?_
  · exact size_top (hn'.trans (Nat.sub_le ..))
  · exact fun v hv => .inl (mem_of_mem_top hv)

/-- How a construct is left after its last arm. -/
theorem leave_left (depth : Nat) {u : State} {c : Construct} {rest : List Construct}
    (htop : u.constructs = c :: rest)
    (h : (∀ other params, c.kind ≠ .thenArm other params) ∧ u.leave c rest = .ok t ∨
      ∃ other params v w, c.kind = .thenArm other params ∧ u.startArm c other params = .ok v ∧
        v.exitTo c = .ok w ∧ w.leave c rest = .ok t) :
    ∃ (u' : State) (depth' : Nat) (kind : ConstructKind),
      Moves { u with phase := .dead depth } u' ∧ u'.phase = .dead depth' ∧
      u'.constructs = { c with kind } :: rest ∧ (∀ other params, kind ≠ .thenArm other params) ∧
      c.base ≤ u'.stack.size ∧ u'.stack.take c.base = u.stack.take c.base ∧
      t = u'.left { c with kind } rest := by
  obtain ⟨hk, h⟩ | ⟨other, params, v, w, hk, hv, hw, h⟩ := h
  · obtain ⟨hb, rfl⟩ := leave_eq_ok.1 h
    exact ⟨{ u with phase := .dead depth }, depth, c.kind, .refl, rfl, htop, hk, hb, rfl, rfl⟩
  · -- The missing arm is started, left and closed first.
    obtain ⟨hb, -⟩ := startArm_eq_ok.1 hv
    obtain ⟨h₁, h₂, -, hb', rfl⟩ := leave_otherwise depth htop hk hv hw h
    refine ⟨_, 0, .elseArm, .tail (.single h₁) h₂, rfl, rfl, (fun _ _ h => by cases h), hb', ?_,
      rfl⟩
    show (u.stack.take c.base ++ params).take c.base = _
    apply Array.toList_inj.1
    simp [hb]

/-- The end of a construct goes on after it once its last arm has been left. What was below the
    construct is still there. -/
theorem endBlock_left {live : Bool} {c : Construct} {rest : List Construct}
    (phase : live = true → s.phase = .live)
    (dead : live = false → ∃ depth, s.phase = .dead depth) (htop : s.constructs = c :: rest)
    (h : s.endBlock live = .ok t) :
    ∃ (u : State) (depth : Nat) (kind : ConstructKind), Moves s u ∧ u.phase = .dead depth ∧
      u.constructs = { c with kind } :: rest ∧ (∀ other params, kind ≠ .thenArm other params) ∧
      c.base ≤ u.stack.size ∧ u.stack.take c.base = s.stack.take c.base ∧
      t = u.left { c with kind } rest := by
  have hmem : c ∈ s.constructs := by rw [htop]; exact List.mem_cons_self
  obtain ⟨u, hu, h⟩ := (endBlock_eq_ok htop).1 h
  obtain ⟨⟨depth, hm⟩, hs, hc⟩ := exitLast_moves phase dead hmem hu
  obtain ⟨u', depth', kind, hm', hd, hc', hk, hb, hs', rfl⟩ :=
    leave_left depth (hc.trans htop) h
  exact ⟨u', depth', kind, hm.trans hm', hd, hc', hk, hb, hs'.trans (by rw [hs]), rfl⟩

/-- An `end` is a sequence of moves, whether it can be reached or not. -/
private theorem endBlock_moves {live : Bool} (phase : live = true → s.phase = .live)
    (dead : live = false → ∃ depth, s.phase = .dead depth) (h : s.endBlock live = .ok t) :
    Moves s t := by
  cases htop : s.constructs with
  | nil =>
    have hfinish : s.finishFunction live = .ok t := by
      unfold State.endBlock at h
      rw [htop] at h
      exact h
    obtain ⟨u, hu, rfl⟩ := finishFunction_eq_ok.1 hfinish
    cases live with
    | false =>
      obtain rfl : s = u := by simpa using hu
      obtain ⟨depth, hd⟩ := dead rfl
      exact .single (.finish hd htop)
    | true =>
      obtain ⟨-, hu⟩ : s.stack.size = s.results.length ∧ s.ret = .ok u := by simpa using hu
      have hmoves := ret_moves (phase rfl) hu
      obtain ⟨-, -, fields, -, rfl⟩ := ret_eq_ok.1 hu
      exact hmoves.tail (.finish rfl htop)
  | cons c rest =>
    obtain ⟨u, depth, kind, hm, hd, hc, hk, hb, -, rfl⟩ := endBlock_left phase dead htop h
    exact hm.tail (.leave hd hc hk hb)

/-- A branch is a sequence of moves. -/
private theorem br_moves {depth : Nat} (live : s.phase = .live) (h : s.br depth = .ok t) :
    Moves s t := by
  unfold State.br at h
  split at h
  -- A branch out of all constructs is a return.
  · exact ret_moves live h
  · split at h
    · cases h
    · next c hc =>
      obtain ⟨u, hu, h⟩ := bind_eq_ok.1 h
      obtain ⟨hm, hs, hcs⟩ := exitTo_move live (List.mem_of_getElem? hc) hu
      obtain ⟨hb, rfl⟩ := enterDead_eq_ok.1 h
      exact (Relation.ReflTransGen.single hm).trans (@moves_truncate u.closed hb)

end Control

/-! ## Steps -/

section Step

variable {s t : State} {op : Operator}

/-- An operator that can be reached is a sequence of moves. -/
theorem lower_moves (live : s.phase = .live) (base : s.base ≤ s.stack.size)
    (h : s.lower op = .ok t) : Moves s t := by
  by_cases hop : op.isComputation = true
  -- A computation takes its operands from the stack; the other operators are looked at one by one.
  · obtain ⟨xs, args, cs, hs, hb, hcs, rfl⟩ := (lower_eq_ok_iff hop).1 h
    exact moves_emittedAll args live hb hs (chained_computations hcs) (computations_ne_nil hcs)
  · have hphase : true = true → s.phase = .live := fun _ => live
    have hdead : true = false → ∃ depth, s.phase = .dead depth := nofun
    cases op with
    | unreachable => exact unreachable_moves live h
    | nop =>
      obtain rfl := Except.ok.inj h
      exact .single (.nop live)
    | block type => exact block_moves live h
    | loop results => exact loop_moves live base h
    | ifBlock type => exact ifBlock_moves live h
    | elseBlock => exact elseBlock_moves hphase hdead h
    | endBlock => exact endBlock_moves hphase hdead h
    | br depth => exact br_moves live h
    | ret => exact ret_moves live h
    | drop => exact drop_moves h
    | localGet index => exact localGet_moves live h
    | localSet index => exact localSet_moves live h
    | localTee index => exact localTee_moves live h
    | i32Const value | i64Const value | f32Const value | f64Const value =>
      obtain rfl := Except.ok.inj h
      exact moves_push base rfl
    | convert c => exact convert_moves live h (by simpa using hop)
    | _ => exact absurd rfl hop

/-- An operator that cannot be reached is a sequence of moves. -/
theorem skip_moves {depth : Nat} (dead : s.phase = .dead depth) (h : s.skip depth op = .ok t) :
    Moves s t := by
  have hphase : false = true → s.phase = .live := nofun
  have hdead : false = false → ∃ depth, s.phase = .dead depth := fun _ => ⟨depth, dead⟩
  unfold State.skip at h
  split at h
  -- A construct in dead code is counted.
  · obtain rfl := Except.ok.inj h
    exact .single (.count dead (depth + 1))
  · obtain rfl := Except.ok.inj h
    exact .single (.count dead (depth + 1))
  · obtain rfl := Except.ok.inj h
    exact .single (.count dead (depth + 1))
  · split at h
    · exact elseBlock_moves hphase hdead h
    · obtain rfl := Except.ok.inj h
      exact .refl
  · split at h
    · exact endBlock_moves hphase hdead h
    · -- The `end` of a skipped construct is counted back.
      obtain rfl := Except.ok.inj h
      exact .single (.count dead (depth - 1))
  · obtain rfl := Except.ok.inj h
    exact .refl

end Step

end WasmLowering.Lowering
