import WasmLowering.Module.Compile
import WasmLowering.Proofs.Reading

/-!
# Checkpoints

A fault carries the contexts it happened in. Here they are kept in another way: a computation runs
while a chain of contexts is open, it opens and closes some itself, and a fault takes the chain with
it as it is where the fault happens. In the body of a function the innermost context is changed
while the operators are read and lowered in turn, until the function is complete. Whoever opens a
context closes it, also after a fault.

Compiling a module in this way has the outcome that it has without a chain, with the contexts that
were open before added to a fault, and leaves the chain as it was.

## Key results

- `Traced.bind_lift`, `Traced.within_lift`: computations that leave the chain as it was
- `Traced.operators_run`: operators are read and lowered under a context that changes
- `Traced.compile_eq`: a compilation reports what it reports without a chain, and leaves no context
-/

namespace WasmLowering

open Ssa Lowering

/-! ## Computations under a chain of contexts -/

/-- A computation that runs while contexts are open, innermost first. It gives its outcome, and the
    contexts that are open after it. -/
def Traced (α : Type) : Type :=
  Trail → Except Fault α × Trail

variable {α β : Type}

@[simp] theorem ok_bind (a : α) (f : α → Except Fault β) : (Except.ok a >>= f) = f a := rfl

@[simp] theorem error_bind (fault : Fault) (f : α → Except Fault β) :
    (Except.error fault >>= f) = .error fault := rfl

namespace Traced

instance : Monad Traced where
  pure a := fun chain => (.ok a, chain)
  bind x f := fun chain =>
    match x chain with
    | (.ok a, inner) => f a inner
    | (.error fault, inner) => (.error fault, inner)

/-- A computation that opens no context. Its fault happens in those that are open. -/
def lift (x : Except Fault α) : Traced α := fun chain =>
  (x.mapError fun fault => { fault with trail := fault.trail ++ chain }, chain)

/-- Opens a context while a computation runs, and closes it whether there is a fault or not. -/
def within (context : Context) (x : Traced α) : Traced α := fun chain =>
  let (result, inner) := x (context :: chain)
  (result, inner.tail)

/-- Changes the innermost context. -/
def update (context : Context) : Traced Unit := fun chain =>
  (.ok (), context :: chain.tail)

@[simp] theorem lift_error (fault : Fault) (chain : Trail) :
    (lift (.error fault) : Traced α) chain =
      (.error { fault with trail := fault.trail ++ chain }, chain) := rfl

@[simp] theorem bind_lift_ok (a : α) (f : α → Traced β) : (lift (.ok a) >>= f) = f a := rfl

@[simp] theorem bind_lift_error (fault : Fault) (f : α → Traced β) :
    (lift (.error fault) >>= f) = lift (.error fault) := rfl

@[simp] theorem bind_update (context : Context) (f : Unit → Traced α) (chain : Trail) :
    (update context >>= f) chain = f () (context :: chain.tail) := rfl

/-- Computations that open no context may be lifted one by one or together. -/
private theorem bind_lift {x : Except Fault α} {f : α → Traced β} {g : α → Except Fault β}
    (h : ∀ a, f a = lift (g a)) : (lift x >>= f) = lift (x >>= g) := by
  cases x with
  | error fault => rfl
  | ok a => exact h a

/-- A context that is open while a computation runs is added to its fault. -/
private theorem within_lift (context : Context) (x : Except Fault α) :
    within context (lift x) = lift (inContext context x) := by
  funext chain
  cases x with
  | error fault => simp [within, lift, inContext, Except.mapError, Fault.within]
  | ok a => rfl

end Traced

/-! ## Decoders -/

namespace Decoder

variable {α β σ : Type}

/-- The value of a decoder and the bytes that are left, or its fault. -/
def outcome (d : Decoder α) (input : Bytes) : Except Fault (α × Bytes) :=
  match d.run input with
  | (.ok a, rest) => .ok (a, rest)
  | (.error fault, _) => .error fault

private theorem outcome_of_ok {d : Decoder α} {input rest : Bytes} {a : α}
    (h : d.run input = (.ok a, rest)) : d.outcome input = .ok (a, rest) := by
  rw [outcome, h]

private theorem outcome_of_error {d : Decoder α} {input rest : Bytes} {fault : Fault}
    (h : d.run input = (.error fault, rest)) : d.outcome input = .error fault := by
  rw [outcome, h]

/-- The outcome of two decoders, one after the other. -/
theorem outcome_bind (d : Decoder α) (f : α → Decoder β) (input : Bytes) :
    (d >>= f).outcome input = d.outcome input >>= fun p => (f p.1).outcome p.2 := by
  simp only [outcome, run_bind]
  cases d.run input with
  | mk result rest => cases result <;> rfl

@[simp] theorem outcome_pure (a : α) (input : Bytes) :
    (pure a : Decoder α).outcome input = .ok (a, input) := rfl

theorem outcome_ofExcept (x : Except Fault α) (input : Bytes) :
    (ofExcept x).outcome input = x >>= fun a => .ok (a, input) := by
  cases x <;> rfl

/-- All bytes are to be read, and none may be left. -/
theorem decodeAll_eq (d : Decoder α) (input : Bytes) :
    d.decodeAll input = d.outcome input >>= fun p => require p.2.isEmpty >>= fun _ => .ok p.1 := by
  simp only [decodeAll, outcome]
  cases d.run input with
  | mk result rest =>
    cases result with
    | error fault => rfl
    | ok a => cases rest <;> rfl

end Decoder

/-! ## Bodies -/

namespace Lowering.State

/-- Lowers the operators of a stream after `completed` others, then fails as the stream says if it
    has no end. -/
def resume (func : UInt32) (completed : Nat) (s : State) (stream : OperatorStream) :
    Except Fault State := do
  let s ← s.run func completed stream.operators
  match stream.stop with
  | none => return s
  | some (opcode, fault) =>
    .error (fault.within (.inBody func (completed + stream.operators.length) opcode))

/-- A stream from its beginning. -/
theorem resume_zero (func : UInt32) (s : State) (stream : OperatorStream) :
    s.resume func 0 stream = s.runStream func stream := by
  unfold resume
  rw [Nat.zero_add]
  rfl

theorem resume_stop (func : UInt32) (completed : Nat) (s : State) (opcode : UInt8) (fault : Fault) :
    s.resume func completed ⟨[], some (opcode, fault)⟩ =
      .error (fault.within (.inBody func completed opcode)) := rfl

theorem resume_cons (func : UInt32) (completed : Nat) (s : State) (opcode : UInt8) (op : Operator)
    (stream : OperatorStream) :
    s.resume func completed ⟨(opcode, op) :: stream.operators, stream.stop⟩ =
      inContext (.inBody func completed opcode) (s.step op) >>=
        fun t => t.resume func (completed + 1) stream := by
  simp only [resume, run, bind_assoc, List.length_cons, Nat.add_assoc, Nat.add_comm 1]

end Lowering.State

section Depth

variable {s t : State} {op : Operator} {depth : Nat}

/-- The operator that closes the function completes it. -/
theorem finished_of_nesting (hdepth : s.depth = some depth)
    (hfin : s.phase = .finished → s.constructs = []) (hnest : op.nesting depth = none)
    (h : s.step op = .ok t) : t.phase = .finished := by
  obtain ⟨ht, -⟩ := step_depth hfin h
  rw [← State.depth_eq_none, ht, hdepth, Option.bind_some, hnest]

/-- Any other operator leaves a function that is not complete. -/
theorem going_of_nesting {deeper : Nat} (hdepth : s.depth = some depth)
    (hfin : s.phase = .finished → s.constructs = []) (hnest : op.nesting depth = some deeper)
    (h : s.step op = .ok t) :
    t.depth = some deeper ∧ t.phase ≠ .finished ∧ (t.phase = .finished → t.constructs = []) := by
  obtain ⟨ht, hfin'⟩ := step_depth hfin h
  rw [hdepth, Option.bind_some, hnest] at ht
  refine ⟨ht, ?_, hfin'⟩
  rw [Ne, ← State.depth_eq_none, ht]
  simp

/-- A new function is at the depth zero, and is not complete. -/
theorem depth_of_start {type : FuncType} {locals : List ValueType} {intrinsics : IntrinsicTable}
    (h : State.start type locals intrinsics = .ok s) :
    s.depth = some 0 ∧ (s.phase = .finished → s.constructs = []) := by
  obtain ⟨-, live, -, hnone, -, -⟩ := start_moves h
  exact ⟨by rw [State.depth_of_live live, hnone, List.length_nil], by simp [live]⟩

end Depth

namespace Traced

/-- Reads and lowers operators until the function is complete, after `completed` others. The context
    says how many operators are complete, and which opcode was read last. -/
def operators (scope : BodyScope) (func : UInt32) (completed : Nat) (s : State) :
    Bytes → Traced State
  | [] => lift (.error .malformed)
  | opcode :: input => do
    update (.inBody func completed opcode)
    match h : (Decoder.operator scope opcode).run input with
    | (.error fault, _) => lift (.error fault)
    | (.ok op, rest) =>
      have : rest.length ≤ input.length := by
        simpa [h] using (Decoder.operator scope opcode).length_rest_le input
      let t ← lift (s.step op)
      update (.inBody func (completed + 1) opcode)
      if t.phase = .finished then
        lift (require rest.isEmpty)
        return t
      else operators scope func (completed + 1) t rest
termination_by input => input.length
decreasing_by
  simp only [List.length_cons]
  omega

/-- Lowers the body of a function. -/
def body (types : Array FuncType) (func : UInt32) (type : FuncType) (intrinsics : IntrinsicTable)
    (input : Bytes) : Traced State :=
  within (.inBody func 0 0) do
    let (runs, rest) ← lift (Decoder.localRuns.outcome input)
    let s ← lift (State.start type (expandRuns runs) intrinsics)
    operators (bodyScope types type runs) func 0 s rest

/-- The first operator is read and lowered, and the others after it. -/
private theorem operators_cons (scope : BodyScope) (func : UInt32) (completed : Nat) (s : State)
    (opcode : UInt8) (input : Bytes) :
    operators scope func completed s (opcode :: input) = (do
      update (.inBody func completed opcode)
      let p ← lift ((Decoder.operator scope opcode).outcome input)
      let t ← lift (s.step p.1)
      update (.inBody func (completed + 1) opcode)
      if t.phase = .finished then
        lift (require p.2.isEmpty)
        return t
      else operators scope func (completed + 1) t p.2) := by
  rw [operators]
  refine congrArg (update _ >>= ·) (funext fun _ => ?_)
  split
  · next hop =>
    rw [Decoder.outcome_of_error hop]
    rfl
  · next hop =>
    rw [Decoder.outcome_of_ok hop]
    rfl

/-- Operators that are read and lowered in turn have the outcome of their stream, and change the
    innermost context only. -/
private theorem operators_run {scope : BodyScope} {func : UInt32} {completed depth : Nat}
    {last : UInt8} {s : State} {input : Bytes} (hdepth : s.depth = some depth)
    (hfin : s.phase = .finished → s.constructs = []) (chain : Trail) :
    ∃ context, operators scope func completed s input (.inBody func completed last :: chain) =
      ((lift (s.resume func completed (.read scope depth last input)) chain).1,
        context :: chain) := by
  -- Along the stream; the state is as deep in constructs as the stream is when it is read.
  fun_induction OperatorStream.read scope depth last input generalizing s completed with
  -- There is no operator, so the context is the one of the operator before.
  | case1 depth last =>
    refine ⟨.inBody func completed last, ?_⟩
    simp [operators, State.resume_stop, Fault.within]
  -- The operator cannot be read. Its opcode is in the context already.
  | case2 depth last opcode input fault rest hop =>
    refine ⟨.inBody func completed opcode, ?_⟩
    rw [operators_cons, Decoder.outcome_of_error hop]
    simp [State.resume_stop, Fault.within]
  -- The operator completes the function.
  | case3 depth last opcode input op rest hop _ hnest =>
    rw [operators_cons, Decoder.outcome_of_ok hop]
    have hcons := State.resume_cons func completed s opcode op
      ⟨[], if rest.isEmpty then none else some (opcode, .malformed)⟩
    rw [hcons]
    cases hstep : s.step op with
    | error fault =>
      refine ⟨.inBody func completed opcode, ?_⟩
      simp [hstep, inContext, Fault.within]
    | ok t =>
      -- The counter goes on before the bytes are found to be left over.
      have hphase := finished_of_nesting hdepth hfin hnest hstep
      refine ⟨.inBody func (completed + 1) opcode, ?_⟩
      cases rest with
      | nil =>
        simp [hstep, hphase, require, inContext]
        rfl
      | cons b rest =>
        simp [hstep, hphase, require, inContext]
        rfl
  | case4 depth last opcode input op rest hop _ deeper hnest stream =>
    rename_i ih
    rw [operators_cons, Decoder.outcome_of_ok hop, State.resume_cons]
    cases hstep : s.step op with
    | error fault =>
      refine ⟨.inBody func completed opcode, ?_⟩
      simp [hstep, inContext, Fault.within]
    | ok t =>
      obtain ⟨ht, hphase, hfin'⟩ := going_of_nesting hdepth hfin hnest hstep
      obtain ⟨context, hcontext⟩ := @ih (completed + 1) t ht hfin'
      refine ⟨context, ?_⟩
      simpa [hstep, hphase, inContext] using hcontext

/-- A body has the outcome that it has without a chain. -/
private theorem body_eq (types : Array FuncType) (func : UInt32) (type : FuncType)
    (intrinsics : IntrinsicTable) (input : Bytes) :
    body types func type intrinsics input =
      lift (lowerBody types func type intrinsics input) := by
  funext chain
  unfold body lowerBody within
  cases hlocals : Decoder.localRuns.run input with
  | mk result rest =>
    cases result with
    | error fault =>
      have hread : Body.read types type.params input = .error fault := by
        rw [Body.read, hlocals]
      rw [Decoder.outcome_of_error hlocals, hread]
      simp [inContext, Fault.within]
    | ok runs =>
      rw [Decoder.outcome_of_ok hlocals, Body.read_eq hlocals]
      cases hstart : State.start type (expandRuns runs) intrinsics with
      | error fault => simp [inContext, Fault.within, hstart]
      -- The operators are read and lowered under a context that changes.
      | ok s =>
        obtain ⟨hdepth, hfin⟩ := depth_of_start hstart
        obtain ⟨context, hrun⟩ := @operators_run (bodyScope types type runs) func 0 0 0 s rest
          hdepth hfin chain
        simp [inContext, hstart, hrun, State.resume_zero, lift]

/-! ## Sections -/

/-- Lowers a number of bodies, and gives the bytes that are left. -/
def bodies : Nat → Loader → Bytes → Traced (Loader × Bytes)
  | 0, l, input => pure (l, input)
  | n + 1, l, input => do
    let (code, rest) ← lift (Decoder.sized.outcome input)
    let func := l.table.bodyFunction (.ofNat l.functions.size)
    let type ← lift (l.table.functionType func)
    let signature ← lift (type.signature hostPointerBits)
    let s ← body l.table.types func type l.intrinsics code
    let function : Function := { body := l.functions.size, signature, blocks := s.draft.finish }
    lift (l.verifier.check function)
    bodies n { l with functions := l.functions.push function, intrinsics := s.intrinsics } rest

/-- The code section. -/
def code (l : Loader) (payload : Bytes) : Traced Loader := do
  let (count, rest) ← lift (Decoder.u32.outcome payload)
  lift (require (count.toNat == l.declared))
  let (done, left) ← bodies count.toNat l rest
  lift (require left.isEmpty)
  return { done with bodies := count.toNat }

/-- The content of a custom section. -/
def names (l : Loader) (payload : Bytes) : Traced Loader := do
  let (name, rest) ← lift (Decoder.sized.outcome payload)
  if name = .ofString "name" then
    lift (require (NameMap.ofSection rest).complete)
    return l.applyNames (NameMap.ofSection rest)
  else return l

/-- The next section. -/
def frame (l : Loader) (f : Frame) : Traced Loader :=
  if f.id = 0 then within (.inSection .custom) (names l f.payload)
  else do
    lift (require (l.rank < sectionRank f.id))
    let l := { l with rank := sectionRank f.id }
    match SectionKind.ofId? f.id with
    | none => lift (.error (.of (.unknownSection f.id)))
    | some kind =>
      within (.inSection kind)
        (if kind = .code then code l f.payload
        else lift ((l.sectionDecoder kind).decodeAll f.payload))

/-- All sections, in order. -/
def frames (l : Loader) : List Frame → Traced Loader
  | [] => pure l
  | f :: fs => do
    let l ← frame l f
    frames l fs

/-- Loads a module. -/
def load (input : Bytes) : Traced Loader := do
  let (_, rest) ← lift (Decoder.moduleHeader.outcome input)
  let l ← frames {} (Framing.split rest).frames
  lift (require ((Framing.split rest).complete && l.bodies == l.declared))
  return l

/-- Compiles a module under a given name. -/
def compile (name input : Bytes) : Traced Module := do
  let l ← within .parse (load input)
  let lowered : Ssa.Module := { name, functions := l.functions, intrinsics := l.intrinsics }
  return { table := l.table, lowered }

/-- Bodies are lowered as without a chain. -/
private theorem bodies_eq (n : Nat) (l : Loader) (input : Bytes) :
    bodies n l input = lift ((Decoder.iterate Loader.bodyEntry n l).outcome input) := by
  induction n generalizing l input with
  | zero => rfl
  | succ n ih =>
    -- Both sides are now the same sequence of steps, each of which leaves the chain as it was.
    simp only [bodies, Decoder.iterate, Decoder.outcome_bind, Loader.bodyEntry, lowerFunction,
      Decoder.outcome_ofExcept, bind_assoc, body_eq, Decoder.outcome_pure, ok_bind]
    refine bind_lift fun p => bind_lift fun type => bind_lift fun signature => bind_lift fun s => ?_
    exact bind_lift fun _ => ih _ _

private theorem code_eq (l : Loader) (payload : Bytes) :
    code l payload = lift (l.codeSection.decodeAll payload) := by
  simp only [code, Decoder.decodeAll_eq, Loader.codeSection, Decoder.outcome_bind, Decoder.check,
    Decoder.outcome_ofExcept, bind_assoc, bodies_eq, Decoder.outcome_pure, ok_bind]
  exact bind_lift fun p => bind_lift fun _ => bind_lift fun q => bind_lift fun _ => rfl

/-- A custom section has the outcome that it has without a chain. -/
private theorem names_eq (l : Loader) (payload : Bytes) :
    within (.inSection .custom) (names l payload) =
      lift ((l.custom payload).mapError LoadFailure.fault) := by
  -- The content is a sequence of steps, each of which leaves the chain as it was.
  have hcontent : names l payload = lift (Decoder.sized.outcome payload >>= fun p =>
      if p.1 = .ofString "name" then
        require (NameMap.ofSection p.2).complete >>= fun _ =>
          .ok (l.applyNames (NameMap.ofSection p.2))
      else .ok l) := by
    refine bind_lift fun p => ?_
    obtain ⟨name, rest⟩ := p
    by_cases hname : name = .ofString "name"
    · simp only [if_pos hname]
      exact bind_lift fun _ => rfl
    · simp only [if_neg hname]
      rfl
  rw [hcontent, within_lift, Loader.custom]
  refine congrArg lift ?_
  cases hname : Decoder.sized.run payload with
  | mk result rest =>
    cases result with
    | error fault =>
      rw [Decoder.outcome_of_error hname]
      rfl
    | ok name =>
      rw [Decoder.outcome_of_ok hname, ok_bind]
      dsimp only
      split
      · cases (NameMap.ofSection rest).complete <;> rfl
      · rfl

/-- A section has the outcome that it has without a chain. -/
private theorem frame_eq (l : Loader) (f : Frame) :
    frame l f = lift ((l.frame f).mapError LoadFailure.fault) := by
  unfold frame
  split
  · next hid =>
    rw [Loader.frame, if_pos hid]
    exact names_eq l f.payload
  · next hid =>
    -- The warnings of a failure are of no account here.
    have hranked : (l.frame f).mapError LoadFailure.fault = l.ranked f := by
      rw [Loader.frame, if_neg hid]
      cases l.ranked f <;> rfl
    rw [hranked, Loader.ranked]
    refine bind_lift fun _ => ?_
    dsimp only
    cases SectionKind.ofId? f.id with
    | none => rfl
    | some kind =>
      dsimp only
      split
      · next hcode =>
        subst hcode
        rw [code_eq, within_lift]
        rfl
      · exact within_lift _ _

/-- The sections have the outcome that they have without a chain. -/
private theorem frames_eq (l : Loader) (fs : List Frame) :
    frames l fs = lift ((l.frames fs).mapError LoadFailure.fault) := by
  induction fs generalizing l with
  | nil => rfl
  | cons f fs ih =>
    rw [frames, frame_eq, Loader.frames]
    cases l.frame f with
    | error failure => rfl
    | ok l => exact ih l

/-- A module is loaded as without a chain. -/
private theorem load_eq (input : Bytes) :
    load input = lift ((loadModule input).mapError LoadFailure.fault) := by
  unfold load loadModule Loader.framing
  cases hheader : Decoder.moduleHeader.run input with
  | mk result rest =>
    cases result with
    | error fault =>
      rw [Decoder.outcome_of_error hheader]
      rfl
    | ok u =>
      rw [Decoder.outcome_of_ok hheader, bind_lift_ok]
      dsimp only
      rw [frames_eq]
      cases ({} : Loader).frames (Framing.split rest).frames with
      | error failure => rfl
      | ok l =>
        have hlast : (lift (require ((Framing.split rest).complete && l.bodies == l.declared)) >>=
            fun _ => pure l) = lift (Except.mapError LoadFailure.fault
              (if (Framing.split rest).complete && l.bodies == l.declared then .ok l
              else .error ⟨.malformed, l.warnings⟩)) := by
          cases (Framing.split rest).complete && l.bodies == l.declared <;> rfl
        exact hlast

/-- A compilation under a chain of contexts has the outcome of one without, where a fault is added
    the contexts of the chain, and leaves the chain as it was. -/
theorem compile_eq (name input : Bytes) :
    compile name input = lift (WasmLowering.compile name input).outcome := by
  rw [compile, load_eq, within_lift, WasmLowering.compile]
  cases loadModule input <;> rfl

end Traced

end WasmLowering
