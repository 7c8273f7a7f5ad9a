import WasmLowering.Proofs.Agreement
import WasmLowering.Proofs.Reading

/-!
# Valid bodies

A body that passes validation is read up to its end and lowered without a fault, whatever the form
it is written in. While it is lowered, the operand stack has the types that the validator gives it,
and all returns have the type of the function's result.

## Key results

- `read_valid`: the operators of a valid body are read, and nothing is left
- `valid_bodies_lower`: valid bodies are lowered
-/

namespace WasmLowering

open Validation

namespace Validation.Checker

variable {body : BodyTypes} {c c' : Checker} {op : Operator}

/-- The locals that a valid operator refers to exist. -/
private theorem localIndex_lt (h : c.step body op = some c') {index : UInt32}
    (hindex : op.localIndex? = some index) : index.toNat < body.locals.length := by
  -- Each operator on a local looks its type up, and is not valid without one.
  have hsignature : ∀ f : ValueType → List ValueType × List ValueType,
      c.replace (body.locals[index.toNat]?.map f) = some c' → index.toNat < body.locals.length := by
    intro f h
    by_contra hlt
    simp [replace, List.getElem?_eq_none (Nat.le_of_not_lt hlt)] at h
  cases op with
  | localGet i | localSet i | localTee i =>
    obtain rfl := Option.some.inj hindex
    exact hsignature _ h
  | _ => cases hindex

/-- Validation opens and closes frames as the operators say. -/
private theorem length_frames_step {depth : Nat} (hf : c.Framed)
    (hdepth : c.frames.length = depth + 1) (h : c.step body op = some c') :
    op.nesting depth = none ∧ c'.frames = [] ∨
      ∃ deeper, op.nesting depth = some deeper ∧ c'.frames.length = deeper + 1 := by
  have hframes := (step_framed hf h).2.2
  cases op with
  | block | loop | ifBlock =>
    obtain ⟨fr, hfr⟩ := hframes
    exact .inr ⟨depth + 1, rfl, by simp [hfr, hdepth]⟩
  | unreachable | br | ret | elseBlock =>
    obtain ⟨fr, rest, hold, hnew⟩ := hframes
    exact .inr ⟨depth, rfl, by simpa [hold, hnew] using hdepth⟩
  | endBlock =>
    obtain ⟨fr, hold⟩ := hframes
    have hlength : c'.frames.length = depth := by simpa [hold] using hdepth
    cases depth with
    | zero => exact .inl ⟨rfl, List.length_eq_zero_iff.1 hlength⟩
    | succ depth => exact .inr ⟨depth, rfl, hlength⟩
  -- All other operators leave the frames as they are.
  | _ => exact .inr ⟨depth, rfl, by rw [show c'.frames = c.frames from hframes, hdepth]⟩

/-- Validation of a list of operators is validation of its parts. -/
private theorem run_append {xs ys : List Operator} :
    c.run body (xs ++ ys) = some c' ↔ ∃ c₁, c.run body xs = some c₁ ∧ c₁.run body ys = some c' := by
  induction xs generalizing c with
  | nil => simp [run]
  | cons op xs ih =>
    simp only [List.cons_append, run, Option.bind_eq_bind, Option.bind_eq_some_iff, ih]
    grind

end Validation.Checker

/-! ## Reading -/

/-- The operators of a valid body are read up to the end of the function, and nothing is left. -/
theorem read_valid {scope : BodyScope} {body : BodyTypes} {ops : List Operator}
    {code : List Bytes} (forms : List.Forall₂ (OperatorForm scope.types) ops code)
    (hlocals : body.locals.length = scope.localCount) {c c' : Checker} {depth : Nat}
    (hf : c.Framed) (hdepth : c.frames.length = depth + 1) (hrun : c.run body ops = some c')
    (hend : c'.frames = []) (last : UInt8) :
    (OperatorStream.read scope depth last code.flatten).operators.map Prod.snd = ops ∧
      (OperatorStream.read scope depth last code.flatten).stop = none := by
  induction forms generalizing c depth last with
  | nil =>
    -- Before the end of the function, its frame is still open.
    obtain rfl := Option.some.inj hrun
    simp [hend] at hdepth
  | @cons op bytes ops code form forms ih =>
    simp only [Checker.run, Option.bind_eq_bind, Option.bind_eq_some_iff] at hrun
    obtain ⟨_, -, c₁, hstep, hrun⟩ := hrun
    obtain ⟨opcode, immediates, rfl, hread⟩ := operator_run form fun index hindex =>
      hlocals ▸ Checker.localIndex_lt hstep hindex
    rw [List.flatten_cons, List.cons_append]
    obtain ⟨hnest, hnone⟩ | ⟨deeper, hnest, hlength⟩ :=
      Checker.length_frames_step hf hdepth hstep
    · -- The function is closed: validation lets nothing follow.
      cases forms with
      | nil =>
        have hclosed := hread []
        rw [List.append_nil] at hclosed
        simp [read_closed hclosed hnest]
      | cons => simp [Checker.run, hnone] at hrun
    · obtain ⟨hops, hstop⟩ := ih (Checker.step_framed hf hstep).1 hlength hrun opcode
      rw [read_cons (hread _) hnest]
      exact ⟨congrArg (op :: ·) hops, hstop⟩

namespace Lowering

open Ssa

/-- A body of a known type has a signature. -/
theorem exists_signature {type : FuncType} (h : type.isKnown = true) :
    ∃ signature, type.signature hostPointerBits = .ok signature ∧
      resultType hostPointerBits type.results = .ok signature.result := by
  simp only [FuncType.isKnown, Bool.and_eq_true] at h
  obtain ⟨params, hparams⟩ := exists_mapM_scalar h.1
  obtain ⟨fields, hfields⟩ := exists_mapM_scalar h.2
  have hresult : ∃ result, resultType hostPointerBits type.results = .ok result := by
    -- There is a native type for no result, for one, and for several together.
    rcases hresults : type.results with _ | ⟨t, _ | ⟨u, ts⟩⟩
    · exact ⟨_, rfl⟩
    · rw [hresults, List.mapM_cons] at hfields
      obtain ⟨type, htype, -⟩ := bind_eq_ok.1 hfields
      exact ⟨.scalar type, bind_eq_ok.2 ⟨type, htype, rfl⟩⟩
    · rw [hresults] at hfields
      exact ⟨.packed fields, bind_eq_ok.2 ⟨fields, hfields, rfl⟩⟩
  obtain ⟨result, hresult⟩ := hresult
  exact ⟨{ result, params }, bind_eq_ok.2 ⟨params, hparams, bind_eq_ok.2 ⟨result, hresult, rfl⟩⟩,
    hresult⟩

/-- A valid body is lowered without a fault, whatever the form it is written in. Between any two of
    its operators, where the code can be reached, the operands have the native types of those of the
    validator, in the same order. Every return is of the type of the function's result. -/
theorem valid_bodies_lower {types : Array FuncType} {type : FuncType} {runs : List LocalRun}
    {ops : List Operator} {input : Bytes} (form : BodyForm types runs ops input)
    (few : declaredLocals runs ≤ 50000) (valid : accepts type (expandRuns runs) ops = true)
    (index : Nat) (func : UInt32) (intrinsics : IntrinsicTable) :
    ∃ f table, lowerFunction types index func type intrinsics input = .ok (f, table) ∧
      (∀ done s, Boundary types type intrinsics input done s →
        ∃ c, (Checker.start type.results).run (.of type (expandRuns runs)) done = some c ∧
          (s.phase = .live → ∃ ts, c.vals = (ts.map some).reverse ∧
            OperandsTyped s.stack.toList ts)) ∧
      resultType hostPointerBits type.results = .ok f.signature.result ∧
      ∀ b ∈ f.blocks, ∀ line ∈ b.lines.toList,
        line.Returns f.signature.result b.lines.toList := by
  simp only [accepts, Bool.and_eq_true, Option.any_eq_true, beq_iff_eq] at valid
  obtain ⟨⟨htype, hknown⟩, c', hrun, hend⟩ := valid
  obtain ⟨signature, hsignature, hresult⟩ := exists_signature htype
  cases form with
  | @mk count locals code number declared operators =>
  -- Reading gives the locals and the operators.
  have hruns := @localRuns_run code.flatten _ _ _ number declared few
  have hlocals : (BodyTypes.of type (expandRuns runs)).locals.length =
      (bodyScope types type runs).localCount := by
    simp [BodyTypes.of, bodyScope]
  have hframed : (Checker.start type.results).Framed :=
    ⟨by simp [Checker.start], by simp [Checker.start]⟩
  obtain ⟨hops, hstop⟩ :=
    @read_valid (bodyScope types type runs) _ _ _ operators hlocals _ _ 0 hframed rfl hrun hend 0
  have hbody := @Body.read_eq types type _ _ _ hruns
  -- Lowering goes along with validation.
  obtain ⟨start, hstart, hagrees⟩ := start_agrees intrinsics htype hknown hresult
  have hm := (start_moves hstart).1
  have hd := Moves.disciplined hm (State.disciplined_initial ..)
  have hf := Moves.framed hm (State.framed_initial ..)
  obtain ⟨last, hlast, hagrees'⟩ := steps_agree hagrees hd hf hrun
  have hlower := (@lowerFunction_eq_ok types index func ..).2 ⟨signature, _, start, last,
    hsignature, hbody, hstart, (congrArg start.steps hops).trans hlast, hstop, rfl, rfl⟩
  refine ⟨_, _, hlower, fun done s hs => ?_, hresult, fun b hb line hline => ?_⟩
  · obtain ⟨body', start', hbody', hstart', ⟨rest, hprefix⟩, hsteps⟩ := hs
    obtain rfl := Except.ok.inj (hbody.symm.trans hbody')
    obtain rfl := Except.ok.inj (hstart.symm.trans hstart')
    rw [← hprefix.trans hops] at hrun
    obtain ⟨c, hdone, -⟩ := Checker.run_append.1 hrun
    obtain ⟨t, ht, hposition⟩ := steps_agree hagrees hd hf hdone
    obtain rfl := Except.ok.inj (hsteps.symm.trans ht)
    refine ⟨c, hdone, fun live => ?_⟩
    -- The position of the validator in live code has the types of the operands.
    cases hposition.position with
    | live ts _ vals typed => exact ⟨ts, vals, typed⟩
    | dead _ _ _ _ phase => rw [live] at phase; cases phase
    | finished phase => rw [live] at phase; cases phase
  · have hnumbered := (Moves.disciplined (steps_moves hf hlast) hd).sound.numbered
    obtain ⟨hl, hlines⟩ := (Draft.mem_finish hnumbered).1 hb
    rw [hlines] at hline ⊢
    exact hagrees'.returning _ hl line hline

/-- A block that is left by a branch, with an addition of operands that are not there behind it. -/
theorem valid_bodies_lower_polymorphic :
    ∃ f table, lowerFunction #[] 0 0 { results := [.i32] } {}
        [0x00, 0x02, 0x7F, 0x41, 0x01, 0x0C, 0x00, 0x6A, 0x0B, 0x0B] = .ok (f, table) ∧
      resultType hostPointerBits [.i32] = .ok f.signature.result := by
  have form : BodyForm #[] []
      [.block { results := [.i32] }, .i32Const 1, .br 0, .intBinary .w32 .add, .endBlock, .endBlock]
      [0x00, 0x02, 0x7F, 0x41, 0x01, 0x0C, 0x00, 0x6A, 0x0B, 0x0B] :=
    @BodyForm.mk _ _ _ [0x00] []
      [[0x02, 0x7F], [0x41, 0x01], [0x0C, 0x00], [0x6A], [0x0B], [0x0B]]
      (.last 0 (by decide) (by decide)) .nil
      (.cons (.block (.result .i32 rfl)) (.cons (.i32Const (.lastNonneg 1 (by decide) (by decide)))
        (.cons (.br (.last 0 (by decide) (by decide))) (.cons (.plain rfl) (.cons (.plain rfl)
          (.cons (.plain rfl) .nil))))))
  obtain ⟨f, table, h, -, hresult, -⟩ :=
    @valid_bodies_lower _ { results := [.i32] } _ _ _ form (by decide) (by decide) 0 0 {}
  exact ⟨f, table, h, hresult⟩

end Lowering

end WasmLowering
