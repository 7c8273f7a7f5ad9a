import WasmLowering.Proofs.Checkpoints
import WasmLowering.Proofs.Counts
import WasmLowering.Proofs.PlainFaults

/-!
# Where faults happen

The operators of a body are read and lowered one after another. If the lowering of a body fails,
then while the locals are set up, at an operator, or where the bytes of the body do not end with the
function. The message of the fault says how many operators were completed before, which opcode was
read last, and which function the body belongs to. A failed compilation leaves no context behind.

## Key results

- `OperatorsFail`, `BodyFails`: the ways in which a body fails, and where
- `lowerBody_eq_error`: these are all
- `Loader.AtBody.fails`: the fault of a body is that of the module
- `body_fault_reports_place`: the message of the fault
-/

namespace WasmLowering

open Ssa Lowering

/-! ## How a body fails -/

/-- Operators are read and lowered one after another while the function is not complete. Their
    opcodes are given, and the state and the bytes behind them. -/
inductive Completes (scope : BodyScope) : State → Bytes → List UInt8 → State → Bytes → Prop where
  | nil (s : State) (input : Bytes) : Completes scope s input [] s input
  | cons {s t u : State} {opcode : UInt8} {op : Operator} {input mid rest : Bytes}
      {opcodes : List UInt8} (going : s.phase ≠ .finished)
      (read : (Decoder.operator scope opcode).run input = (.ok op, mid))
      (lowered : s.step op = .ok t) (more : Completes scope t mid opcodes u rest) :
      Completes scope s (opcode :: input) (opcode :: opcodes) u rest

/-- Why the operators of a body fail, after how many of them, and with which opcode. If no opcode
    has been read it is `last`. -/
inductive OperatorsFail (scope : BodyScope) (last : UInt8) (s : State) (input : Bytes) :
    Fault → Nat → UInt8 → Prop where
  /-- The next operator cannot be read. -/
  | unread {opcodes : List UInt8} {t : State} {opcode : UInt8} {front rest : Bytes} {fault : Fault}
      (completes : Completes scope s input opcodes t (opcode :: front))
      (going : t.phase ≠ .finished)
      (fails : (Decoder.operator scope opcode).run front = (.error fault, rest)) :
      OperatorsFail scope last s input fault opcodes.length opcode
  /-- The next operator cannot be lowered. -/
  | refused {opcodes : List UInt8} {t : State} {opcode : UInt8} {op : Operator} {front rest : Bytes}
      {fault : Fault} (completes : Completes scope s input opcodes t (opcode :: front))
      (going : t.phase ≠ .finished)
      (read : (Decoder.operator scope opcode).run front = (.ok op, rest))
      (fails : t.step op = .error fault) :
      OperatorsFail scope last s input fault opcodes.length opcode
  /-- There are no bytes left, and the function is not complete. -/
  | exhausted {opcodes : List UInt8} {t : State} (completes : Completes scope s input opcodes t [])
      (going : t.phase ≠ .finished) :
      OperatorsFail scope last s input .malformed opcodes.length (opcodes.getLastD last)
  /-- The function is complete, and there are bytes left. -/
  | trailing {opcodes : List UInt8} {t : State} {b : UInt8} {rest : Bytes}
      (completes : Completes scope s input opcodes t (b :: rest)) (complete : t.phase = .finished) :
      OperatorsFail scope last s input .malformed opcodes.length (opcodes.getLastD last)

/-- Why a body fails, after how many operators, and with which opcode, which is zero if none has
    been read. -/
inductive BodyFails (types : Array FuncType) (type : FuncType) (intrinsics : IntrinsicTable)
    (input : Bytes) : Fault → Nat → UInt8 → Prop where
  | locals {fault : Fault} {rest : Bytes}
      (fails : Decoder.localRuns.run input = (.error fault, rest)) :
      BodyFails types type intrinsics input fault 0 0
  | slots {runs : List LocalRun} {fault : Fault} {rest : Bytes}
      (read : Decoder.localRuns.run input = (.ok runs, rest))
      (fails : State.start type (expandRuns runs) intrinsics = .error fault) :
      BodyFails types type intrinsics input fault 0 0
  | operators {runs : List LocalRun} {fault : Fault} {rest : Bytes} {s : State} {completed : Nat}
      {opcode : UInt8} (read : Decoder.localRuns.run input = (.ok runs, rest))
      (slots : State.start type (expandRuns runs) intrinsics = .ok s)
      (fails : OperatorsFail (bodyScope types type runs) 0 s rest fault completed opcode) :
      BodyFails types type intrinsics input fault completed opcode

section Failures

variable {scope : BodyScope} {s t : State} {input rest : Bytes} {fault : Fault}

/-- What fails behind an operator fails one operator later. -/
theorem OperatorsFail.cons {last opcode last' : UInt8} {op : Operator} {completed : Nat}
    (going : s.phase ≠ .finished)
    (read : (Decoder.operator scope opcode).run input = (.ok op, rest))
    (lowered : s.step op = .ok t) (h : OperatorsFail scope opcode t rest fault completed last') :
    OperatorsFail scope last s (opcode :: input) fault (completed + 1) last' := by
  cases h with
  | unread completes going' fails =>
    exact .unread (.cons going read lowered completes) going' fails
  | refused completes going' read' fails =>
    exact .refused (.cons going read lowered completes) going' read' fails
  -- If nothing else has been read, the last opcode is that of the operator.
  | exhausted completes going' =>
    rw [← List.getLastD_cons]
    exact .exhausted (.cons going read lowered completes) going'
  | trailing completes complete =>
    rw [← List.getLastD_cons]
    exact .trailing (.cons going read lowered completes) complete

/-- The fault of operators is plain. -/
theorem OperatorsFail.plain {last opcode : UInt8} {completed : Nat}
    (h : OperatorsFail scope last s input fault completed opcode) : fault.Plain := by
  cases h with
  | unread _ _ fails => exact (operator_fault fails).plain
  | refused _ _ _ fails => exact State.plainly_step _ _ _ fails
  | exhausted => exact plain_malformed
  | trailing => exact plain_malformed

/-- The fault of a body is plain. -/
theorem BodyFails.plain {types : Array FuncType} {type : FuncType} {intrinsics : IntrinsicTable}
    {completed : Nat} {opcode : UInt8}
    (h : BodyFails types type intrinsics input fault completed opcode) : fault.Plain := by
  cases h with
  | locals fails => exact Decoder.plainly_localRuns _ _ _ fails
  | slots _ fails => exact State.plainly_start _ _ _ _ fails
  | operators _ _ fails => exact fails.plain

/-- Operators that fail do so in one of these ways. -/
private theorem resume_eq_error {func : UInt32} {completed depth : Nat} {last : UInt8}
    (hdepth : s.depth = some depth) (hfin : s.phase = .finished → s.constructs = [])
    (h : s.resume func completed (.read scope depth last input) = .error fault) :
    ∃ plain more opcode, OperatorsFail scope last s input plain more opcode ∧
      fault = plain.within (.inBody func (completed + more) opcode) := by
  have going : s.phase ≠ .finished := by
    rw [Ne, ← State.depth_eq_none, hdepth]
    simp
  -- Along the stream, which ends where the function does or where its bytes do.
  fun_induction OperatorStream.read scope depth last input generalizing s completed with
  -- There is no opcode, so the last one is reported.
  | case1 depth last =>
    obtain rfl := Except.error.inj h
    exact ⟨_, 0, last, .exhausted (.nil s []) going, rfl⟩
  | case2 depth last opcode input unread rest hop =>
    obtain rfl := Except.error.inj h
    exact ⟨unread, 0, opcode, .unread (.nil s _) going hop, rfl⟩
  -- The operator closes the function, so there may be bytes left.
  | case3 depth last opcode input op rest hop _ hnest =>
    have hcons := State.resume_cons func completed s opcode op
      ⟨[], if rest.isEmpty then none else some (opcode, .malformed)⟩
    rw [hcons] at h
    cases hstep : s.step op with
    | error refused =>
      rw [hstep] at h
      obtain rfl := Except.error.inj h
      exact ⟨refused, 0, opcode, .refused (.nil s _) going hop hstep, rfl⟩
    -- It counts as completed before the bytes that are left are seen.
    | ok t =>
      have hphase := finished_of_nesting hdepth hfin hnest hstep
      rw [hstep] at h
      cases rest with
      | nil => cases h
      | cons b rest =>
        obtain rfl := Except.error.inj h
        exact ⟨_, 1, opcode, .trailing (.cons going hop hstep (.nil t _)) hphase, rfl⟩
  | case4 depth last opcode input op rest hop _ deeper hnest stream =>
    rename_i ih
    rw [State.resume_cons] at h
    cases hstep : s.step op with
    | error refused =>
      rw [hstep] at h
      obtain rfl := Except.error.inj h
      exact ⟨refused, 0, opcode, .refused (.nil s _) going hop hstep, rfl⟩
    | ok t =>
      -- The others fail one operator later.
      obtain ⟨ht, going', hfin'⟩ := going_of_nesting hdepth hfin hnest hstep
      rw [hstep] at h
      obtain ⟨plain, more, last', fails, hfault⟩ := @ih t (completed + 1) ht hfin' h going'
      refine ⟨plain, more + 1, last', fails.cons going hop hstep, ?_⟩
      rw [hfault, Nat.add_assoc, Nat.add_comm 1]

/-- A body that fails does so in one of these ways. -/
theorem lowerBody_eq_error {types : Array FuncType} {func : UInt32} {type : FuncType}
    {intrinsics : IntrinsicTable} (h : lowerBody types func type intrinsics input = .error fault) :
    ∃ plain completed opcode, BodyFails types type intrinsics input plain completed opcode ∧
      fault = plain.within (.inBody func completed opcode) := by
  unfold lowerBody at h
  cases hlocals : Decoder.localRuns.run input with
  | mk result rest =>
    cases result with
    | error plain =>
      rw [Body.read, hlocals] at h
      obtain rfl := Except.error.inj h
      exact ⟨plain, 0, 0, .locals hlocals, rfl⟩
    | ok runs =>
      rw [Body.read_eq hlocals] at h
      cases hstart : State.start type (expandRuns runs) intrinsics with
      | error plain =>
        simp only [inContext, ok_bind, hstart] at h
        obtain rfl := Except.error.inj h
        exact ⟨plain, 0, 0, .slots hlocals hstart, rfl⟩
      -- The function is started, so its operators fail.
      | ok s =>
        simp only [inContext, ok_bind, hstart, ← State.resume_zero] at h
        obtain ⟨hdepth, hfin⟩ := depth_of_start hstart
        obtain ⟨plain, completed, opcode, fails, hfault⟩ := resume_eq_error hdepth hfin h
        rw [Nat.zero_add] at hfault
        exact ⟨plain, completed, opcode, .operators hlocals hstart fails, hfault⟩

end Failures

/-! ## From a body to the module -/

/-- A repetition fails where its next step does. -/
theorem Decoder.iterate_fails {σ : Type} {step : σ → Decoder σ} {s t : σ} {input left rest : Bytes}
    {n m : Nat} {fault : Fault} (part : (iterate step n s).run input = (.ok t, left))
    (fails : (step t).run left = (.error fault, rest)) (hlt : n < m) :
    (iterate step m s).run input = (.error fault, rest) := by
  induction n generalizing m s input with
  | zero =>
    obtain ⟨rfl, rfl⟩ := pure_run part
    obtain ⟨m, rfl⟩ := Nat.exists_eq_succ_of_ne_zero (Nat.ne_of_gt hlt)
    exact run_bind_eq_error.2 (.inl fails)
  | succ n ih =>
    obtain ⟨m, rfl⟩ := Nat.exists_eq_succ_of_ne_zero (Nat.ne_of_gt (Nat.zero_lt_of_lt hlt))
    obtain ⟨u, mid, hu, part⟩ := run_bind_eq_ok.1 part
    exact run_bind_eq_error.2 (.inr ⟨u, mid, hu, ih part (by omega)⟩)

namespace Loader

/-- The loader has come to body number `body`: those before it have been lowered, its function has a
    type with a signature, and its bytes are `code`. -/
structure AtBody (input : Bytes) (body : Nat) (l : Loader) (type : FuncType) (code : Bytes) :
    Prop where
  place : ∃ start f count left rest, Next input start f ∧ start.ReadsBodies f count body l left ∧
    body < count.toNat ∧ Decoder.sized.run left = (.ok code, rest)
  typed : l.table.functionType (l.table.bodyFunction (.ofNat body)) = .ok type
  signature : ∃ signature, type.signature hostPointerBits = .ok signature

variable {input code : Bytes} {body : Nat} {l : Loader} {type : FuncType} {fault : Fault}

/-- The fault of a body ends the code section, and with it the module. -/
theorem AtBody.fails (h : l.AtBody input body type code)
    (hfault : lowerBody l.table.types (l.table.bodyFunction (.ofNat body)) type l.intrinsics code =
      .error fault) :
    ∃ warnings, loadModule input = .error ⟨fault.within (.inSection .code), warnings⟩ := by
  obtain ⟨⟨start, f, count, left, rest, next, reads, more, hcode⟩, typed, _, hsignature⟩ := h
  obtain ⟨hbody, -⟩ := next.size_functions reads
  -- From the inside out: the entry of the body, the code section, the frame.
  have hentry : l.bodyEntry.run left = (.error fault, rest) := by
    refine Decoder.run_bind_eq_error.2 (.inr ⟨code, rest, hcode, ?_⟩)
    rw [hbody]
    dsimp only
    rw [typed]
    refine Decoder.run_bind_eq_error.2 (.inr ⟨type, rest, rfl, ?_⟩)
    refine Decoder.run_bind_eq_error.2 (.inl ?_)
    rw [lowerFunction, hsignature, ok_bind, hfault]
    rfl
  obtain ⟨payload, number, read⟩ := reads.read
  have hsection : ({ start with rank := sectionRank SectionKind.code.id } : Loader).codeSection.run
      f.payload = (.error fault, rest) := by
    refine Decoder.run_bind_eq_error.2 (.inr ⟨count, payload, number, ?_⟩)
    refine Decoder.run_bind_eq_error.2 (.inr ⟨(), payload, ?_, ?_⟩)
    · rw [reads.declared]
      simp [Decoder.check, Decoder.ofExcept, require]
    · exact Decoder.run_bind_eq_error.2 (.inl (Decoder.iterate_fails read hentry more))
  refine ⟨start.warnings, next.fails ?_⟩
  have hranked : start.ranked f = .error (fault.within (.inSection .code)) := by
    have hrank : decide (start.rank < sectionRank f.id) = true := by
      rw [reads.id]
      exact decide_eq_true reads.rank
    rw [ranked, hrank, reads.id]
    simp only [require, if_true, ok_bind, SectionKind.ofId?_id, sectionDecoder, Decoder.decodeAll,
      hsection]
    rfl
  rw [frame, if_neg (by rw [reads.id]; decide), hranked]

end Loader

/-! ## Main result -/

/-- If the lowering of a body fails, in setting up its locals, at an operator, or where its bytes do
    not end with the function, then the module does not compile, and the message says so: it is the
    wording of the fault, the function, the number of operators completed before, and the opcode of
    the operator that failed, or of the last one that was read. Whatever contexts were open before
    are open after the failure, so that a later computation reports nothing of it. -/
theorem body_fault_reports_place {name input code : Bytes} {body : Nat} {l : Loader}
    {type : FuncType} {fault : Fault} (hsize : input.length < 2 ^ 32)
    (atBody : l.AtBody input body type code)
    (hfault : lowerBody l.table.types (l.table.bodyFunction (.ofNat body)) type l.intrinsics code =
      .error fault) :
    ∃ plain completed opcode reported,
      BodyFails l.table.types type l.intrinsics code plain completed opcode ∧
      (compile name input).outcome = .error reported ∧
      reported.message = plain.cause.text ++ .ofString ": <- iFunc=" ++
        .ofNat ((l.table.imports.get .func).size + body) ++ .ofString ", Op=" ++ .ofNat completed ++
        .ofString ", Opcode=" ++ .ofNat opcode.toNat ++
        .ofString " <- section Code <- wasm/parse" ∧
      ∀ chain, Traced.compile name input chain =
          (.error { reported with trail := reported.trail ++ chain }, chain) ∧
        ∀ (α : Type) (later : Traced α),
          later (Traced.compile name input chain).2 = later chain := by
  obtain ⟨plain, completed, opcode, fails, rfl⟩ := lowerBody_eq_error hfault
  obtain ⟨warnings, hload⟩ := atBody.fails hfault
  obtain ⟨⟨start, f, count, left, rest, next, reads, more, -⟩, -, -⟩ := atBody
  have fits := (Loader.Reached.bodies next reads).fits.mono hsize.le
  obtain ⟨hfunc, -⟩ := next.bodyFunction reads more fits
  have hout : (compile name input).outcome = .error (((plain.within (.inBody
      (l.table.bodyFunction (.ofNat body)) completed opcode)).within (.inSection .code)).within
        .parse) := by
    rw [compile, hload]
  have htraced : ∀ chain, Traced.compile name input chain =
      Traced.lift (compile name input).outcome chain := fun chain =>
    congrFun (Traced.compile_eq name input) chain
  refine ⟨plain, completed, opcode, _, fails, hout, ?_, fun chain => ⟨?_, fun α later => ?_⟩⟩
  · -- The message is the wording of the fault, all of it, and the three contexts it happened in.
    have hplain := fails.plain
    have htrail : Bytes.ofString " <- section Code <- wasm/parse" =
        Bytes.ofString " <- " ++ (Bytes.ofString "section " ++ Bytes.ofString "Code") ++
          (Bytes.ofString " <- " ++ Bytes.ofString "wasm/parse") := by decide +kernel
    have hhead : Bytes.ofString ": <- iFunc=" =
        Bytes.ofString ":" ++ (Bytes.ofString " <- " ++ Bytes.ofString "iFunc=") := by
      decide +kernel
    simp only [Fault.message, Fault.within, hplain.trail, Bytes.untilNul_eq hplain.text, Trail.text,
      List.nil_append, List.flatMap_append, List.flatMap_cons, List.flatMap_nil, List.append_nil,
      Context.text, hfunc, SectionKind.name, htrail, hhead, List.append_assoc]
  · rw [htraced, hout, Traced.lift_error]
  · rw [htraced, hout, Traced.lift_error]

/-- A module with an import, and a body that calls it after an operator without effect. -/
def callingModule : Bytes :=
  [0x00, 0x61, 0x73, 0x6D, 0x01, 0x00, 0x00, 0x00,
    0x01, 0x04, 0x01, 0x60, 0x00, 0x00,
    0x02, 0x07, 0x01, 0x01, 0x6D, 0x01, 0x66, 0x00, 0x00,
    0x03, 0x02, 0x01, 0x00,
    0x0A, 0x07, 0x01, 0x05, 0x00, 0x01, 0x10, 0x00, 0x0B]

/-- The call is the second operator of the second function. -/
theorem body_fault_of_calling :
    ∃ (l : Loader) (plain : Fault) (completed : Nat) (opcode : UInt8) (reported : Fault),
      l.AtBody callingModule 0 {} [0x00, 0x01, 0x10, 0x00, 0x0B] ∧
      BodyFails l.table.types {} l.intrinsics [0x00, 0x01, 0x10, 0x00, 0x0B] plain completed
        opcode ∧
      (compile [] callingModule).outcome = .error reported ∧
      reported.message = plain.cause.text ++ .ofString ": <- iFunc=" ++ .ofNat 1 ++
        .ofString ", Op=" ++ .ofNat completed ++ .ofString ", Opcode=" ++ .ofNat opcode.toNat ++
        .ofString " <- section Code <- wasm/parse" ∧
      reported.message = .ofString
        "instruction call: <- iFunc=1, Op=1, Opcode=16 <- section Code <- wasm/parse" ∧
      Traced.compile [] callingModule [] = (.error reported, []) := by
  -- The sections before the code declare one function after an imported one.
  let before : List Frame := [⟨1, [1, 0x60, 0, 0]⟩, ⟨2, [1, 1, 0x6D, 1, 0x66, 0, 0]⟩, ⟨3, [1, 0]⟩]
  let last : Frame := ⟨10, [1, 5, 0, 1, 0x10, 0, 0x0B]⟩
  have hsplit : (Framing.split (callingModule.drop 8)).frames = before ++ [last] := by
    decide +kernel
  have hparts : (({} : Loader).frames before).toOption.map
      (fun l => (decide (l.rank < sectionRank 10), l.declared, (l.table.imports.get .func).size,
        l.table.functionType (l.table.bodyFunction 0),
        (lowerBody l.table.types (l.table.bodyFunction 0) {} l.intrinsics
          [0, 1, 0x10, 0, 0x0B]).isOk)) = some (true, 1, 1, .ok {}, false) := by
    decide +kernel
  have htext : (compile [] callingModule).outcome.mapError Fault.message = .error (.ofString
      "instruction call: <- iFunc=1, Op=1, Opcode=16 <- section Code <- wasm/parse") := by
    decide +kernel
  cases hload : ({} : Loader).frames before with
  | error failure => simp [hload, Except.toOption] at hparts
  | ok l =>
    simp only [hload, Except.toOption, Option.map_some, Option.some.injEq, Prod.mk.injEq,
      decide_eq_true_eq] at hparts
    obtain ⟨hrank, hdeclared, himports, htype, hnot⟩ := hparts
    have atBody : ({ l with rank := sectionRank SectionKind.code.id } : Loader).AtBody callingModule
        0 {} [0x00, 0x01, 0x10, 0x00, 0x0B] :=
      ⟨⟨l, last, 1, [5, 0, 1, 0x10, 0, 0x0B], [], ⟨_, before, [], rfl, hsplit, hload⟩,
        ⟨rfl, hrank, hdeclared.symm, Nat.zero_le _, _, rfl, rfl⟩, by decide, rfl⟩, htype, _, rfl⟩
    -- The second operator of the body is not supported.
    obtain ⟨fault, hfault⟩ : ∃ fault, lowerBody l.table.types (l.table.bodyFunction 0) {}
        l.intrinsics [0, 1, 0x10, 0, 0x0B] = .error fault := by
      cases hlower : lowerBody l.table.types (l.table.bodyFunction 0) {} l.intrinsics
          [0, 1, 0x10, 0, 0x0B] with
      | error fault => exact ⟨fault, rfl⟩
      | ok s =>
        rw [hlower] at hnot
        cases hnot
    obtain ⟨plain, completed, opcode, reported, fails, hout, hmessage, hchain⟩ :=
      body_fault_reports_place (by decide) atBody hfault
    rw [hout] at htext
    have htraced := (hchain []).1
    rw [List.append_nil] at htraced
    exact ⟨_, plain, completed, opcode, reported, atBody, fails, hout,
      hmessage.trans (by rw [show (l.table.imports.get .func).size = 1 from himports]),
      Except.error.inj htext, htraced⟩

end WasmLowering
