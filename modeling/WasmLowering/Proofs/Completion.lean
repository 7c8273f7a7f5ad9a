import WasmLowering.Proofs.Nesting

/-!
# Completion of bodies

A body is read until the `end` that closes the function. The lowering follows the same count: the
constructs that are open, in the code that is lowered and in dead code together, are as many as the
operators have opened and not closed. So a body that is read to its end leaves no construct open.

## Key results

- `step_depth`, `steps_depth`: the state is as deep as the operators say
- `read_nestings`: a stream without a fault closes the function
- `finished_of_stop_eq_none`: the state after such a stream
-/

namespace WasmLowering

/-- The number of open constructs after a list of operators; there is none after the function. -/
def Operator.nestings (depth : Option Nat) (ops : List Operator) : Option Nat :=
  ops.foldl (fun depth op => depth.bind (op.nesting ·)) depth

@[simp] theorem Operator.nestings_nil (depth : Option Nat) : nestings depth [] = depth := rfl

@[simp] theorem Operator.nestings_cons (depth : Option Nat) (op : Operator) (ops : List Operator) :
    nestings depth (op :: ops) = nestings (depth.bind (op.nesting ·)) ops := rfl

/-- Nothing is open behind the function, whatever follows. -/
theorem Operator.nestings_none (ops : List Operator) : nestings none ops = none := by
  induction ops with
  | nil => rfl
  | cons op ops ih => simpa using ih

theorem Operator.nesting_eq_none {op : Operator} {depth : Nat} :
    op.nesting depth = none ↔ op = .endBlock ∧ depth = 0 := by
  cases op <;> simp [Operator.nesting]

/-- Operators without control do not change the nesting. -/
theorem Operator.nesting_plain {op : Operator} (hop : op.isControl = false) (depth : Nat) :
    op.nesting depth = some depth := by
  cases op with
  | block | loop | ifBlock | endBlock => cases hop
  | _ => rfl

/-- A stream without a fault ends with the function. -/
theorem read_nestings {scope : BodyScope} {depth : Nat} {last : UInt8} {input : Bytes}
    (h : (OperatorStream.read scope depth last input).stop = none) :
    Operator.nestings (some depth)
      ((OperatorStream.read scope depth last input).operators.map Prod.snd) = none := by
  fun_induction OperatorStream.read scope depth last input with
  -- Only the operator that closes the function ends a stream without a fault, as in the third case.
  | case1 => simp at h
  | case2 => simp at h
  | case3 depth last opcode rest op tail hop _ hnest => simp [hnest]
  | case4 depth last opcode rest op tail hop _ deeper hnest stream ih => simpa [hnest] using ih h

namespace Lowering

open Ssa

/-- The number of constructs that are open in the code, those in dead code included. -/
def State.depth (s : State) : Option Nat :=
  match s.phase with
  | .live => some s.constructs.length
  | .dead depth => some (s.constructs.length + depth)
  | .finished => none

section Depth

variable {s t : State}

theorem State.depth_of_live (live : s.phase = .live) : s.depth = some s.constructs.length := by
  simp [depth, live]

theorem State.depth_of_dead {depth : Nat} (dead : s.phase = .dead depth) :
    s.depth = some (s.constructs.length + depth) := by
  simp [State.depth, dead]

/-- The function is complete exactly when nothing is open, not even the function. -/
theorem State.depth_eq_none : s.depth = none ↔ s.phase = .finished := by
  unfold depth
  split <;> simp_all

/-- An `else` makes the code live and leaves as many constructs open. -/
theorem elseBlock_depth {live : Bool} (h : s.elseBlock live = .ok t) :
    t.depth = some s.constructs.length ∧ t.phase = .live := by
  obtain ⟨c, rest, other, params, u, htop, -, -, -, rfl⟩ := elseBlock_eq_ok.1 h
  simp [State.depth, State.alternated, htop]

/-- An `end` closes a construct, after which the code is live, or the function. -/
theorem endBlock_depth {live : Bool} (h : s.endBlock live = .ok t) :
    t.depth = Operator.endBlock.nesting s.constructs.length ∧
      (t.phase = .finished → t.constructs = []) ∧ ∀ d, t.phase ≠ .dead d := by
  cases htop : s.constructs with
  -- The outermost `end` completes the function, after an implicit return if the code is live.
  | nil =>
    have hfin : s.finishFunction live = .ok t := by
      unfold State.endBlock at h
      rwa [htop] at h
    obtain ⟨u, hu, rfl⟩ := finishFunction_eq_ok.1 hfin
    refine ⟨rfl, fun _ => ?_, by simp⟩
    cases live with
    | false =>
      obtain rfl : s = u := by simpa using hu
      exact htop
    | true =>
      obtain ⟨-, hret⟩ : _ ∧ s.ret = .ok u := by simpa using hu
      obtain ⟨-, -, fields, -, rfl⟩ := ret_eq_ok.1 hret
      exact htop
  | cons c rest =>
    -- Any other `end` leaves its construct, after the missing arm of a conditional if there is
    -- none.
    have hleave : ∃ u : State, u.leave c rest = .ok t := by
      obtain ⟨u, -, ⟨-, h⟩ | ⟨_, _, v, w, -, -, -, h⟩⟩ := (endBlock_eq_ok htop).1 h
      · exact ⟨u, h⟩
      · exact ⟨w, h⟩
    obtain ⟨u, hu⟩ := hleave
    obtain ⟨-, rfl⟩ := leave_eq_ok.1 hu
    simp [State.depth, State.left, Operator.nesting]

/-- Operators that leave the code keep its constructs open, and none is counted in dead code yet. -/
theorem lower_depth {op : Operator} (live : s.phase = .live) (h : s.lower op = .ok t) :
    t.depth = op.nesting s.constructs.length ∧ (t.phase = .finished → t.constructs = []) ∧
      ∀ d, t.phase = .dead d → d = 0 := by
  by_cases hop : op.isControl = false
  · obtain ⟨hc, hp, -⟩ := lower_plain hop h
    rw [State.depth_of_live (hp.trans live), Operator.nesting_plain hop, hc]
    simp [hp, live]
  -- What makes the code dead leaves the constructs open.
  have hdead : ∀ u : State, u.constructs = s.constructs → u.enterDead = .ok t →
      t.depth = some s.constructs.length ∧ (t.phase = .finished → t.constructs = []) ∧
        ∀ d, t.phase = .dead d → d = 0 := by
    intro u hu h
    obtain ⟨-, rfl⟩ := enterDead_eq_ok.1 h
    simp [State.depth, hu]
  have hret : s.ret = .ok t → t.depth = some s.constructs.length ∧
      (t.phase = .finished → t.constructs = []) ∧ ∀ d, t.phase = .dead d → d = 0 := by
    intro h
    obtain ⟨-, -, fields, -, rfl⟩ := ret_eq_ok.1 h
    simp [State.depth]
  cases op with
  | unreachable => exact hdead (s.append .unreachable) rfl h
  | block type =>
    obtain ⟨-, types, -, rfl⟩ := enter_eq_ok.1 h
    simp [State.depth, State.opened, live, Operator.nesting]
  | loop results =>
    obtain ⟨-, types, -, rfl⟩ := enter_eq_ok.1 h
    simp [State.depth, State.opened, State.append, State.place, live, Operator.nesting]
  | ifBlock type =>
    obtain ⟨xs, v, types, -, -, -, -, rfl⟩ := ifBlock_eq_ok.1 h
    simp [State.depth, State.forked, State.opened, State.place, live, Operator.nesting]
  | elseBlock =>
    obtain ⟨hdepth, hlive⟩ := elseBlock_depth h
    exact ⟨hdepth, by simp [hlive], by simp [hlive]⟩
  | endBlock =>
    obtain ⟨hdepth, hfin, hdead⟩ := endBlock_depth h
    exact ⟨hdepth, hfin, fun d hd => absurd hd (hdead d)⟩
  | br depth =>
    replace h : s.br depth.toNat = .ok t := h
    unfold State.br at h
    split at h
    · exact hret h
    · split at h
      · cases h
      · obtain ⟨u, hu, h⟩ := bind_eq_ok.1 h
        refine hdead u ?_ h
        -- A branch changes the code and the construct that it targets, but not which ones are open.
        obtain ⟨head, -, rfl⟩ | ⟨-, -, rfl⟩ := exitTo_eq_ok.1 hu
        · rfl
        · rfl
  | ret => exact hret h
  | _ => exact absurd rfl hop

/-- The state is as deep as the operators say, and when it is finished no construct is open. -/
theorem step_depth {op : Operator} (hs : s.phase = .finished → s.constructs = [])
    (h : s.step op = .ok t) :
    t.depth = s.depth.bind (op.nesting ·) ∧ (t.phase = .finished → t.constructs = []) := by
  unfold State.step at h
  split at h
  · next live =>
    rw [State.depth_of_live live]
    obtain ⟨hdepth, hfin, -⟩ := lower_depth live h
    exact ⟨hdepth, hfin⟩
  · next depth dead =>
    rw [State.depth_of_dead dead]
    unfold State.skip at h
    split at h
    -- An `else` is one of the live construct outside if no skipped construct is open.
    case h_4 =>
      split at h
      · next h0 =>
        subst h0
        obtain ⟨hdepth, hlive⟩ := elseBlock_depth h
        exact ⟨hdepth, by simp [hlive]⟩
      · obtain rfl := Except.ok.inj h
        simp [State.depth, dead, Operator.nesting]
    -- So is an `end`, which otherwise closes a skipped construct.
    case h_5 =>
      split at h
      · next h0 =>
        subst h0
        obtain ⟨hdepth, hfin, -⟩ := endBlock_depth h
        exact ⟨hdepth, hfin⟩
      · next h0 =>
        obtain rfl := Except.ok.inj h
        simp only [State.depth, Operator.nesting, Option.bind_some]
        rw [if_neg (by omega)]
        exact ⟨congrArg some (by omega), nofun⟩
    -- Other operators in dead code are skipped without a trace.
    case h_6 hblock hloop hif helse hend =>
      obtain rfl := Except.ok.inj h
      have hnest : ∀ n, op.nesting n = some n := by
        intro n
        cases op with
        | block type => exact absurd rfl (hblock type)
        | loop results => exact absurd rfl (hloop results)
        | ifBlock type => exact absurd rfl (hif type)
        | endBlock => exact absurd rfl hend
        | _ => rfl
      simp [State.depth, dead, hnest]
    all_goals
      obtain rfl := Except.ok.inj h
      simp [State.depth, Operator.nesting, Nat.add_assoc]
  · next finished =>
    obtain rfl := Except.ok.inj h
    rw [State.depth_eq_none.2 finished]
    exact ⟨rfl, hs⟩

/-- After some operators, the state is as deep as they say. -/
theorem steps_depth {ops : List Operator} (hs : s.phase = .finished → s.constructs = [])
    (h : s.steps ops = .ok t) :
    t.depth = Operator.nestings s.depth ops ∧ (t.phase = .finished → t.constructs = []) := by
  induction ops generalizing s with
  | nil =>
    obtain rfl := Except.ok.inj h
    exact ⟨rfl, hs⟩
  | cons op ops ih =>
    obtain ⟨u, hu, h⟩ := steps_cons.1 h
    obtain ⟨hdepth, hfin⟩ := step_depth hs hu
    obtain ⟨hdepth', hfin'⟩ := ih hfin h
    exact ⟨by rw [hdepth', hdepth, Operator.nestings_cons], hfin'⟩

/-- A body that is read to its end leaves the function complete and no construct open. -/
theorem finished_of_stop_eq_none {types : Array FuncType} {type : FuncType}
    {intrinsics : IntrinsicTable} {input : Bytes} {body : Body} {start last : State}
    (hbody : Body.read types type.params input = .ok body)
    (hstart : State.start type body.locals intrinsics = .ok start)
    (hlast : start.steps (body.stream.operators.map Prod.snd) = .ok last)
    (hstop : body.stream.stop = none) : last.phase = .finished ∧ last.constructs = [] := by
  obtain ⟨-, live, -, hc, -, -⟩ := start_moves hstart
  obtain ⟨hdepth, hfin⟩ := steps_depth (by simp [live]) hlast
  -- The stream was read from the start of the body, where nothing is open.
  have hnest : Operator.nestings (some 0) (body.stream.operators.map Prod.snd) = none := by
    unfold Body.read at hbody
    split at hbody
    · cases hbody
    · obtain rfl := Except.ok.inj hbody
      exact read_nestings hstop
  rw [State.depth_of_live live, hc, List.length_nil, hnest] at hdepth
  have finished := State.depth_eq_none.1 hdepth
  exact ⟨finished, hfin finished⟩

end Depth

end Lowering

end WasmLowering
