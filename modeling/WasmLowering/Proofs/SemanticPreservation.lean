import WasmLowering.Proofs.Conditionals
import WasmLowering.Proofs.EntryBlock
import WasmLowering.Proofs.Exits

/-!
# Semantic preservation

Every step of a body is simulated by a number of steps of the lowered function, and where the run of
the body ends, so does that of the function. Hence the function returns what the body returns. The
end of a loop is lowered to a branch back to the loop's start, so only runs are considered that
leave their loops by branches.

## Key results

- `step_simulates`, `step_ends`: one step of a body
- `Simulates.ends`: a run of a body, from a point where the machine stands for it
- `lowering_preserves_runs`: a run of a body on arguments of the right types
-/

namespace WasmLowering

section Steps

variable {c c' : Config} {results depth : Nat} {op : Operator} {code : List Operator}
  {r : Config.Step}

/-- An operator without control never ends a run. -/
theorem Config.step_plain (hcode : c.code = op :: code) (hop : op.isControl = false)
    (h : c.step results = some r) : ∃ c', r = .next c' := by
  cases op with
  | nop =>
    rw [Config.step, hcode] at h
    exact ⟨_, (Option.some.inj h).symm⟩
  | drop | localGet | localSet | localTee =>
    rw [Config.step, hcode] at h
    simp only [Option.bind_eq_bind, Option.bind_eq_some_iff, Option.pure_def] at h
    obtain ⟨_, -, h⟩ := h
    exact ⟨_, (Option.some.inj h).symm⟩
  | _ =>
    obtain ⟨v, -, -, hr⟩ := Config.step_value hcode hop (by simp) (by simp) rfl h
    exact ⟨_, hr⟩

/-- A return always ends the run. -/
theorem Config.ret_eq_some (h : c.ret results = some r) : ∃ outcome, r = .ends outcome := by
  simp only [Config.ret, Option.bind_eq_bind, Option.bind_eq_some_iff, Option.pure_def] at h
  obtain ⟨_, -, h⟩ := h
  exact ⟨_, (Option.some.inj h).symm⟩

end Steps

/-- How the end of a run of a body shows in the lowered function. -/
def Config.Outcome.native : Config.Outcome → Ssa.Ending
  | returned vs => .returning (vs.map Value.native)
  | trapped => .unreachable

end WasmLowering

namespace WasmLowering.Lowering

open Ssa Draft Validation

/-! ## Ends of runs -/

section Ends

variable {body : BodyTypes} {result : NativeType} {args : List Scalar} {f : Ssa.Function}
  {last s t : State} {c c' : Config} {m : Machine} {code : List Operator}
  {outcome : Config.Outcome}

/-- The results are those of the body. -/
theorem At.results {code : List Operator} (hat : At body result last code s) :
    s.results = body.results := by
  obtain ⟨ch, ch', hagrees, -⟩ := hat.checked
  exact hagrees.results

/-- A return that both sides take. -/
theorem Simulates.returns (h : Simulates body result args last c m s) {xs vs : List Operand}
    (hret : s.ret = .ok t) (hlast : Moves t last) (hstack : s.stack.toList = xs ++ vs)
    (htyped : OperandsTyped vs s.results)
    (hstep : c.ret body.results.length = some (.ends outcome)) :
    f.Ends args m outcome.native := by
  simp only [Config.ret, Option.bind_eq_bind, Option.bind_eq_some_iff, Option.pure_def] at hstep
  obtain ⟨⟨below, values⟩, hsplit, hstep⟩ := hstep
  obtain ⟨-, -, rfl⟩ := Config.split_eq_some.1 hsplit
  obtain rfl := Config.Step.ends.inj (Option.some.inj hstep)
  rw [← h.point.results]
  exact h.running.returns h.point.disciplined h.point.ordered h.live hret hlast hstack htyped

/-- A trap stops the lowered function. -/
private theorem unreachable_ends (h : Simulates body result args last c m s)
    (hcode : c.code = .unreachable :: code) : f.Ends args m .unreachable := by
  obtain ⟨t, hlower, hm, hat⟩ := h.lower hcode
  obtain ⟨-, rfl⟩ := enterDead_eq_ok.1 hlower
  obtain ⟨rest, hrest, -, -⟩ := h.running.next h.point.disciplined hm hat.moves
    (h.point.disciplined.sound.toArranged.code_append .unreachable) (by simp [Line.isReturnSlot])
  refine ⟨m, .refl, ?_⟩
  rw [Function.step, hrest]
  rfl

/-- A return takes the results from the stack on both sides. -/
private theorem ret_ends (h : Simulates body result args last c m s) (hcode : c.code = .ret :: code)
    (hstep : c.ret body.results.length = some (.ends outcome)) : f.Ends args m outcome.native := by
  obtain ⟨t, hlower, -, hat⟩ := h.lower hcode
  obtain ⟨ch, ch', ts, fr, rest, hr, hcheck⟩ := (hcode ▸ h.point).reached h.live
  replace hcheck : ch.jump body.results = some ch' := hcheck
  simp only [Checker.jump, Option.bind_eq_bind, Option.bind_eq_some_iff] at hcheck
  obtain ⟨ch₁, hpop, -⟩ := hcheck
  obtain ⟨ts', xs, vs, -, hstack, -, hvs, -⟩ := hr.pop hpop
  exact h.returns hlower hat.moves hstack (hr.agrees.results ▸ hvs) hstep

private theorem br_ends (h : Simulates body result args last c m s) {depth : UInt32}
    (hcode : c.code = .br depth :: code) (hdepth : depth.toNat = c.labels.length)
    (hstep : c.ret body.results.length = some (.ends outcome)) : f.Ends args m outcome.native := by
  obtain ⟨t, hlower, -, hat⟩ := h.lower hcode
  rw [h.targets.length_eq] at hdepth
  replace hlower : s.br depth.toNat = .ok t := hlower
  rw [State.br, if_pos hdepth] at hlower
  obtain ⟨xs, vs, hstack, -, htyped⟩ := (hcode ▸ h.point).carries h.live
  exact h.returns hlower hat.moves hstack (htyped hdepth) hstep

/-- The end of the function returns the operands that are left. -/
private theorem endBlock_ends (h : Simulates body result args last c m s)
    (hcode : c.code = .endBlock :: code) (hlabels : c.labels = [])
    (hstep : c.ret body.results.length = some (.ends outcome)) : f.Ends args m outcome.native := by
  obtain ⟨t, hlower, -, hat⟩ := h.lower hcode
  have hks : s.constructs = [] := by
    rw [← List.length_eq_zero_iff, ← h.targets.length_eq, hlabels, List.length_nil]
  replace hlower : s.endBlock true = .ok t := hlower
  rw [State.endBlock, hks] at hlower
  obtain ⟨u, hu, rfl⟩ := finishFunction_eq_ok.1 hlower
  obtain ⟨-, hret⟩ : s.stack.size = s.results.length ∧ s.ret = .ok u := by simpa using hu
  have hfinish : Move u { u with phase := .finished } := by
    obtain ⟨-, -, fields, -, rfl⟩ := ret_eq_ok.1 hret
    exact .finish rfl hks
  -- The validator knows the types of what is left on the stack.
  obtain ⟨ch, ch', ts, fr, rest, hr, hcheck⟩ := (hcode ▸ h.point).reached h.live
  obtain ⟨fr', ch₁, hleave, -⟩ := Checker.endBlock_eq_some hcheck
  obtain ⟨xs, vs, hstack, -, hvs⟩ := hr.arm hleave
  have hagree := hr.split ▸ hr.frames
  rw [hks] at hagree
  cases hagree with
  | function kind stop height =>
    refine h.returns hret ((Relation.ReflTransGen.single hfinish).trans hat.moves) hstack ?_ hstep
    rw [hr.agrees.results, ← stop]
    exact hvs

/-! ## Steps and runs -/

/-- A step of a body is simulated by steps of the lowered function. -/
theorem step_simulates (hl : Lowered f last) (hfinished : last.phase = .finished)
    (h : Simulates body result args last c m s) (hloop : c.leavesLoop = false)
    (hstep : c.step body.results.length = some (.next c')) :
    ∃ m' t, f.Leads args m m' ∧ Simulates body result args last c' m' t := by
  cases hcode : c.code with
  | nil =>
    rw [Config.step, hcode] at hstep
    cases hstep
  | cons op code =>
    by_cases hop : op.isControl = false
    -- An operator without control is run as a whole.
    · obtain ⟨t, m', ht, hat, hcode', hlabels, hleads, hrun⟩ :=
        plain_runs hl (hcode ▸ h.point) h.live hop hcode h.running hstep
      have hm := step_moves h.point.framed ht
      rw [State.step, h.live] at ht
      -- An operator without control leaves the labels as they are.
      obtain ⟨hconstructs, hphase, -⟩ := lower_plain hop ht
      refine ⟨m', t, hleads, hcode' ▸ hat, hphase.trans h.live, hrun, ?_⟩
      rw [hlabels, hconstructs]
      refine h.targets.moves h.point.disciplined h.point.framed hm (fun _ hk => hk)
        (by rw [hconstructs]; exact fun _ hk => hk) ?_
      rw [hcode', hcode, afterEnd_cons (Operator.nesting_plain hop 0)]
    rw [Config.step, hcode] at hstep
    cases op with
    | block type =>
      obtain rfl := Config.Step.next.inj (Option.some.inj hstep)
      obtain ⟨t, ht⟩ := block_simulates h hcode
      exact ⟨m, t, .refl, ht⟩
    | loop results =>
      obtain rfl := Config.Step.next.inj (Option.some.inj hstep)
      exact loop_simulates hl h hcode
    | ifBlock type => exact ifBlock_simulates hl hfinished h hcode hstep
    | elseBlock =>
      -- There is a construct to leave, or the body would be stuck.
      cases hlabels : c.labels with
      | nil =>
        simp only [hlabels] at hstep
        cases hstep
      | cons label labels =>
        simp only [hlabels] at hstep
        obtain rfl := Config.Step.next.inj (Option.some.inj hstep)
        exact elseBlock_simulates hl hfinished h hcode hlabels
    | endBlock =>
      cases hlabels : c.labels with
      -- At the end of the body the run ends, which is not a step.
      | nil =>
        simp only [hlabels] at hstep
        obtain ⟨outcome, hends⟩ := Config.ret_eq_some hstep
        cases hends
      | cons label labels =>
        simp only [hlabels] at hstep
        obtain rfl := Config.Step.next.inj (Option.some.inj hstep)
        -- Leaving a loop by its end was excluded.
        refine endBlock_simulates hl h hcode hlabels ?_
        simpa [Config.leavesLoop, hcode, hlabels] using hloop
    | br depth =>
      simp only at hstep
      split at hstep
      · obtain ⟨outcome, hends⟩ := Config.ret_eq_some hstep
        cases hends
      · exact br_simulates hl hfinished h hcode hstep
    | ret =>
      obtain ⟨outcome, hends⟩ := Config.ret_eq_some hstep
      cases hends
    | unreachable => cases Option.some.inj hstep
    | _ => exact absurd rfl hop

/-- Where a step ends the run of a body, the run of the lowered function ends. -/
theorem step_ends (h : Simulates body result args last c m s)
    (hstep : c.step body.results.length = some (.ends outcome)) :
    f.Ends args m outcome.native := by
  cases hcode : c.code with
  | nil =>
    rw [Config.step, hcode] at hstep
    cases hstep
  | cons op code =>
    -- Only control can end a run.
    by_cases hop : op.isControl = false
    · obtain ⟨c', hnext⟩ := Config.step_plain hcode hop hstep
      cases hnext
    rw [Config.step, hcode] at hstep
    cases op with
    | unreachable =>
      obtain rfl := Config.Step.ends.inj (Option.some.inj hstep)
      exact unreachable_ends h hcode
    | endBlock =>
      cases hlabels : c.labels with
      | nil =>
        simp only [hlabels] at hstep
        exact endBlock_ends h hcode hlabels hstep
      | cons label labels =>
        simp only [hlabels] at hstep
        cases Option.some.inj hstep
    | br depth =>
      simp only at hstep
      split at hstep
      next hdepth => exact br_ends h hcode hdepth hstep
      · obtain ⟨_, _, -, hnext⟩ := Config.branch_eq_some hstep
        cases hnext
    | ret => exact ret_ends h hcode hstep
    | block | loop => cases Option.some.inj hstep
    | ifBlock type =>
      obtain ⟨_, _, -, ⟨-, hnext⟩ | ⟨-, _, -, hnext⟩ | ⟨-, -, hnext⟩⟩ :=
        Config.ifBlock_eq_some hstep <;> cases hnext
    | elseBlock =>
      cases hlabels : c.labels with
      | nil =>
        simp only [hlabels] at hstep
        cases hstep
      | cons label labels =>
        simp only [hlabels] at hstep
        cases Option.some.inj hstep
    | _ => exact absurd rfl hop

/-- The run of a lowered function ends as the run of the body does. -/
theorem Simulates.ends (hl : Lowered f last) (hfinished : last.phase = .finished)
    (h : Simulates body result args last c m s) (hends : c.Ends body.results.length outcome) :
    f.Ends args m outcome.native := by
  obtain ⟨c', hleads, hstep⟩ := hends
  -- The run of the function is put together along the run of the body.
  induction hleads using Relation.ReflTransGen.head_induction_on generalizing m s with
  | refl => exact step_ends h hstep
  | head hfirst _ ih =>
    obtain ⟨m₁, t, hleads, ht⟩ := step_simulates hl hfinished h hfirst.1 hfirst.2
    obtain ⟨m', hleads', hend⟩ := ih ht
    exact ⟨m', hleads.trans hleads', hend⟩

end Ends

/-! ## Functions -/

section Functions

variable {s t : State}

/-- The operators of a body make no slots. -/
theorem steps_locals {ops : List Operator} (h : s.steps ops = .ok t) : t.locals = s.locals := by
  induction ops generalizing s with
  | nil =>
    obtain rfl := Except.ok.inj h
    rfl
  | cons op ops ih =>
    obtain ⟨u, hu, h⟩ := steps_cons.1 h
    exact (ih h).trans (step_reopens hu).2

/-- The slots stay in the entry block. -/
theorem State.Allots.steps (h : s.Allots) (hd : s.Disciplined) (hf : s.Framed)
    {ops : List Operator} (hsteps : s.steps ops = .ok t) : t.Allots := by
  intro i slot hslot
  rw [steps_locals hsteps] at hslot
  exact (Moves.extended (steps_moves hf hsteps) hd hd.sound.entry_mem hd.sound.entry_placed).mem
    (h i slot hslot)

/-- A function whose body was lowered from the first operator to the last. -/
theorem lowered_of_steps {f : Ssa.Function} {type : FuncType} {locals : List ValueType}
    {intrinsics : IntrinsicTable} {ops : List Operator}
    (hstart : State.start type locals intrinsics = .ok s) (hsteps : s.steps ops = .ok t)
    (hblocks : f.blocks = t.draft.finish) : Lowered f t := by
  have hm := (start_moves hstart).1
  have hd₀ := State.disciplined_initial type intrinsics
  have hf₀ := State.framed_initial type intrinsics
  have hd := Moves.disciplined hm hd₀
  have hf := Moves.framed hm hf₀
  have hmt := steps_moves hf hsteps
  -- The slots are allotted before the first operator.
  have hallots : s.Allots := by
    obtain ⟨slots, rfl, hconstant, -⟩ := start_allots hstart
    exact (allotAll_moves hd₀ (State.allots_initial type intrinsics) rfl rfl hconstant).2
  exact ⟨hblocks, Moves.disciplined hmt hd,
    Moves.scoped (hm.trans hmt) hd₀ hf₀ (State.scoped_initial type intrinsics),
    hallots.steps hd hf hsteps⟩

/-- A body that was validated and lowered to its end runs as its lowering does. -/
private theorem executes_of_ends {f : Ssa.Function} {type : FuncType} {locals : List ValueType}
    {intrinsics : IntrinsicTable} {ops : List Operator} {result : NativeType} {c c' : Checker}
    (hstart : State.start type locals intrinsics = .ok s)
    (hagrees : Agrees (.of type locals) result c s) (hrun : c.run (.of type locals) ops = some c')
    (hsteps : s.steps ops = .ok t) (hfinished : t.phase = .finished)
    (hblocks : f.blocks = t.draft.finish) {args : List Value}
    (hargs : args.map Value.type = type.params) {outcome : Config.Outcome}
    (hends : (Config.start locals ops args).Ends type.results.length outcome) :
    f.Executes (args.map Value.native) outcome.native := by
  obtain ⟨hm, live, -, hconstructs, -, -⟩ := start_moves hstart
  have hd₀ := State.disciplined_initial type intrinsics
  have hf₀ := State.framed_initial type intrinsics
  have hf := Moves.framed hm hf₀
  have hl := lowered_of_steps hstart hsteps hblocks
  have hat : At (.of type locals) result t ops s :=
    ⟨hf, Moves.disciplined hm hd₀, Moves.ordered hm hd₀ hf₀ (State.ordered_initial type intrinsics),
      (steps_locals hsteps).symm, hsteps, c, c', hagrees, hrun⟩
  -- After the entry block, the machine stands where the body starts.
  obtain ⟨m, hleads, hrunning⟩ := entry_runs hl hstart hat.moves hat.locals hargs
  have hsimulates : Simulates (.of type locals) result (args.map Value.native) t
      (Config.start locals ops args) m s := by
    refine ⟨hat, live, hrunning, ?_⟩
    rw [hconstructs]
    exact .nil
  obtain ⟨m', hleads', hend⟩ := hsimulates.ends hl hfinished hends
  obtain ⟨b, blocks, hfirst, hlabel, hlines⟩ := hl.first_block (hm.trans hat.moves)
  refine ⟨b, blocks, hfirst, m', ?_, hend⟩
  rw [hlabel, hlines]
  exact hleads.trans hleads'

/-- Once the validator has closed the function, the lowering has completed it. -/
private theorem finished_of_agrees {body : BodyTypes} {result : NativeType} {c : Checker}
    (h : Agrees body result c s) (hend : c.frames = []) : s.phase = .finished := by
  cases h.position with
  -- Before the end some frame is open.
  | live ts phase vals typed frames =>
    obtain ⟨fr, rest, hfr⟩ := frames.eq_cons
    rw [hend] at hfr
    cases hfr
  | dead inner fr rest ts phase split =>
    rw [hend] at split
    cases List.append_eq_nil_iff.1 split.symm |>.2
  | finished phase => exact phase

/-- A valid body is read as it was written. -/
private theorem read_body {types : Array FuncType} {type : FuncType} {runs : List LocalRun}
    {ops : List Operator} {input : Bytes} (form : BodyForm types runs ops input)
    (few : declaredLocals runs ≤ 50000) {c : Checker}
    (hrun : (Checker.start type.results).run (.of type (expandRuns runs)) ops = some c)
    (hend : c.frames = []) :
    ∃ body, Body.read types type.params input = .ok body ∧ body.locals = expandRuns runs ∧
      body.stream.operators.map Prod.snd = ops ∧ body.stream.stop = none := by
  cases form with
  | @mk count locals code number declared operators =>
    have hruns := @localRuns_run code.flatten _ _ _ number declared few
    -- The checker and the reader know the same locals.
    have hlocals : (BodyTypes.of type (expandRuns runs)).locals.length =
        (bodyScope types type runs).localCount := by
      simp [BodyTypes.of, bodyScope]
    have hframed : (Checker.start type.results).Framed :=
      ⟨by simp [Checker.start], by simp [Checker.start]⟩
    obtain ⟨hops, hstop⟩ := @read_valid (bodyScope types type runs) _ _ _ operators hlocals _ _ 0
      hframed rfl hrun hend 0
    exact ⟨_, @Body.read_eq types type _ _ _ hruns, rfl, hops, hstop⟩

/-- A valid body is lowered, and the lowered function does what the body does. If a run of the body
    on arguments of the right types returns values, without falling off the end of a loop, then the
    run of the function on the same arguments returns the same values: none as void, one as it is,
    several in a structure. If the run of the body gets to an `unreachable`, so does that of the
    function. -/
theorem lowering_preserves_runs {types : Array FuncType} {type : FuncType} {runs : List LocalRun}
    {ops : List Operator} {input : Bytes} (form : BodyForm types runs ops input)
    (few : declaredLocals runs ≤ 50000) (valid : accepts type (expandRuns runs) ops = true)
    (index : Nat) (func : UInt32) (intrinsics : IntrinsicTable) :
    ∃ f table, lowerFunction types index func type intrinsics input = .ok (f, table) ∧
      ∀ args : List Value, args.map Value.type = type.params →
        (∀ vs, (Config.start (expandRuns runs) ops args).Ends type.results.length (.returned vs) →
          f.Executes (args.map Value.native) (.returning (vs.map Value.native))) ∧
        ((Config.start (expandRuns runs) ops args).Ends type.results.length .trapped →
          f.Executes (args.map Value.native) .unreachable) := by
  simp only [accepts, Bool.and_eq_true, Option.any_eq_true, beq_iff_eq] at valid
  obtain ⟨⟨htype, hknown⟩, c', hrun, hend⟩ := valid
  obtain ⟨signature, hsignature, hresult⟩ := exists_signature htype
  obtain ⟨body, hbody, hlocals, hops, hstop⟩ := read_body form few hrun hend
  -- Validation and lowering start together, and come to the end together.
  obtain ⟨start, hstart, hagrees⟩ := start_agrees intrinsics htype hknown hresult
  have hm := (start_moves hstart).1
  have hd := Moves.disciplined hm (State.disciplined_initial ..)
  have hf := Moves.framed hm (State.framed_initial ..)
  obtain ⟨last, hlast, hagrees'⟩ := steps_agree hagrees hd hf hrun
  have hlower := (@lowerFunction_eq_ok types index func ..).2 ⟨signature, body, start, last,
    hsignature, hbody, hlocals ▸ hstart, (congrArg start.steps hops).trans hlast, hstop, rfl, rfl⟩
  have hfinished : last.phase = .finished := finished_of_agrees hagrees' hend
  refine ⟨_, _, hlower, fun args hargs => ⟨fun vs hends => ?_, fun hends => ?_⟩⟩
  · exact executes_of_ends hstart hagrees hrun hlast hfinished rfl hargs hends
  · exact executes_of_ends hstart hagrees hrun hlast hfinished rfl hargs hends

/-- A loop that is left by a branch out of a conditional in it: it adds up the numbers from its
    argument down to zero, and the function returns the sum along with the zero. -/
theorem lowering_preserves_runs_sum :
    ∃ f table, lowerFunction #[] 0 0 { params := [.i32], results := [.i32, .i32] } {}
        [0x01, 0x01, 0x7F, 0x02, 0x40, 0x03, 0x40, 0x20, 0x00, 0x45, 0x04, 0x40, 0x0C, 0x02, 0x0B,
          0x20, 0x01, 0x20, 0x00, 0x6A, 0x21, 0x01, 0x20, 0x00, 0x41, 0x01, 0x6B, 0x21, 0x00,
          0x0C, 0x00, 0x0B, 0x0B, 0x20, 0x01, 0x20, 0x00, 0x0B] = .ok (f, table) ∧
      f.Executes [.int 32 3] (.retPacked [.int 32 6, .int 32 0]) := by
  have zero : UnsignedForm 32 (0 : UInt32).toNat [0x00] := .last 0 (by decide) (by decide)
  have one : UnsignedForm 32 (1 : UInt32).toNat [0x01] := .last 1 (by decide) (by decide)
  have two : UnsignedForm 32 (2 : UInt32).toNat [0x02] := .last 2 (by decide) (by decide)
  -- A loop that adds up the numbers from its argument down to one.
  let ops : List Operator :=
    [.block {}, .loop [], .localGet 0, .eqz .w32, .ifBlock {}, .br 2, .endBlock,
      .localGet 1, .localGet 0, .intBinary .w32 .add, .localSet 1,
      .localGet 0, .i32Const 1, .intBinary .w32 .sub, .localSet 0, .br 0, .endBlock, .endBlock,
      .localGet 1, .localGet 0, .endBlock]
  have form : BodyForm #[] [⟨1, .i32⟩] ops
      [0x01, 0x01, 0x7F, 0x02, 0x40, 0x03, 0x40, 0x20, 0x00, 0x45, 0x04, 0x40, 0x0C, 0x02, 0x0B,
        0x20, 0x01, 0x20, 0x00, 0x6A, 0x21, 0x01, 0x20, 0x00, 0x41, 0x01, 0x6B, 0x21, 0x00,
        0x0C, 0x00, 0x0B, 0x0B, 0x20, 0x01, 0x20, 0x00, 0x0B] :=
    @BodyForm.mk _ _ _ [0x01] [[0x01, 0x7F]]
      [[0x02, 0x40], [0x03, 0x40], [0x20, 0x00], [0x45], [0x04, 0x40], [0x0C, 0x02], [0x0B],
        [0x20, 0x01], [0x20, 0x00], [0x6A], [0x21, 0x01], [0x20, 0x00], [0x41, 0x01], [0x6B],
        [0x21, 0x00], [0x0C, 0x00], [0x0B], [0x0B], [0x20, 0x01], [0x20, 0x00], [0x0B]]
      one (.cons (@LocalRunForm.mk ⟨1, .i32⟩ [0x01] one rfl) .nil)
      (.cons (.block .empty) (.cons (.loop .empty) (.cons (.localGet zero) (.cons (.plain rfl)
        (.cons (.ifBlock .empty) (.cons (.br two) (.cons (.plain rfl) (.cons (.localGet one)
          (.cons (.localGet zero) (.cons (.plain rfl) (.cons (.localSet one)
            (.cons (.localGet zero) (.cons (.i32Const (.lastNonneg 1 (by decide) (by decide)))
              (.cons (.plain rfl) (.cons (.localSet zero) (.cons (.br zero) (.cons (.plain rfl)
                (.cons (.plain rfl) (.cons (.localGet one) (.cons (.localGet zero)
                  (.cons (.plain rfl) .nil)))))))))))))))))))))
  have hends : (Config.start (expandRuns [⟨1, .i32⟩]) ops [.i32 3]).Ends 2
      (.returned [.i32 6, .i32 0]) :=
    @Config.ends_of_outcome? 2 50 _ _ (by decide +kernel)
  obtain ⟨f, table, h, hruns⟩ := @lowering_preserves_runs _
    { params := [.i32], results := [.i32, .i32] } _ _ _ form (by decide) (by decide) 0 0 {}
  exact ⟨f, table, h, (hruns [.i32 3] rfl).1 _ hends⟩

end Functions

end WasmLowering.Lowering
