import WasmLowering.Proofs.Run

/-!
# Independence of the intrinsics

A module declares an intrinsic at its first use, so the body of a function meets the intrinsics of
the bodies before it. No operator looks at them: with other intrinsics, or as another function of
the module, a body is lowered to the same signature and blocks.
-/

namespace WasmLowering.Lowering

open Ssa

/-- The state with other intrinsics. -/
def State.declaring (s : State) (i : IntrinsicTable) : State :=
  { s with intrinsics := i }

section Operators

variable {s t : State} (i : IntrinsicTable)

/-! ## Operators on the control flow -/

/-- A construct is entered with any intrinsics. -/
private theorem enter_declaring {type : FuncType} {kind : ConstructKind} {role : BlockRole}
    (h : s.enter type kind role = .ok t) :
    (s.declaring i).enter type kind role = .ok (t.declaring i) := by
  obtain ⟨arity, types, htypes, rfl⟩ := enter_eq_ok.1 h
  exact enter_eq_ok.2 ⟨arity, types, htypes, rfl⟩

private theorem ifBlock_declaring {type : FuncType} (h : s.ifBlock type = .ok t) :
    (s.declaring i).ifBlock type = .ok (t.declaring i) := by
  obtain ⟨xs, v, types, stack, base, arity, htypes, rfl⟩ := ifBlock_eq_ok.1 h
  exact ifBlock_eq_ok.2 ⟨xs, v, types, stack, base, arity, htypes, rfl⟩

private theorem enterDead_declaring (h : s.enterDead = .ok t) :
    (s.declaring i).enterDead = .ok (t.declaring i) := by
  obtain ⟨base, rfl⟩ := enterDead_eq_ok.1 h
  exact enterDead_eq_ok.2 ⟨base, rfl⟩

private theorem ret_declaring (h : s.ret = .ok t) : (s.declaring i).ret = .ok (t.declaring i) := by
  obtain ⟨arity, base, fields, hfields, rfl⟩ := ret_eq_ok.1 h
  exact ret_eq_ok.2 ⟨arity, base, fields, hfields, rfl⟩

private theorem exitTo_declaring {c : Construct} (h : s.exitTo c = .ok t) :
    (s.declaring i).exitTo c = .ok (t.declaring i) := by
  apply exitTo_eq_ok.2
  obtain ⟨head, kind, rfl⟩ | ⟨kind, arity, rfl⟩ := exitTo_eq_ok.1 h
  · exact .inl ⟨head, kind, rfl⟩
  · exact .inr ⟨kind, arity, rfl⟩

/-- An arm ends with any intrinsics. -/
private theorem exitLast_declaring {c : Construct} {live : Bool} (h : s.exitLast c live = .ok t) :
    (s.declaring i).exitLast c live = .ok (t.declaring i) := by
  unfold State.exitLast at h ⊢
  split at h
  · next hlive =>
    rw [if_pos hlive]
    -- The arm is left, with a check of its height if it is one of two.
    split at h
    · exact exitTo_declaring i h
    · obtain ⟨size, h⟩ := exitArm_eq_ok.1 h
      exact exitArm_eq_ok.2 ⟨size, exitTo_declaring i h⟩
  · next hlive =>
    obtain rfl := Except.ok.inj h
    rw [if_neg hlive]

private theorem elseBlock_declaring {live : Bool} (h : s.elseBlock live = .ok t) :
    (s.declaring i).elseBlock live = .ok (t.declaring i) := by
  obtain ⟨c, rest, other, params, u, top, kind, hu, base, rfl⟩ := elseBlock_eq_ok.1 h
  exact elseBlock_eq_ok.2
    ⟨c, rest, other, params, u.declaring i, top, kind, exitLast_declaring i hu, base, rfl⟩

private theorem leave_declaring {c : Construct} {rest : List Construct}
    (h : s.leave c rest = .ok t) : (s.declaring i).leave c rest = .ok (t.declaring i) := by
  obtain ⟨base, rfl⟩ := leave_eq_ok.1 h
  exact leave_eq_ok.2 ⟨base, rfl⟩

/-- A construct, or the function, ends with any intrinsics. -/
private theorem endBlock_declaring {live : Bool} (h : s.endBlock live = .ok t) :
    (s.declaring i).endBlock live = .ok (t.declaring i) := by
  cases top : s.constructs with
  | nil =>
    have hend : ∀ u : State, u.constructs = [] → u.endBlock live = u.finishFunction live := by
      intro u hu
      unfold State.endBlock
      rw [hu]
    rw [hend s top] at h
    rw [hend (s.declaring i) top]
    obtain ⟨u, hu, rfl⟩ := finishFunction_eq_ok.1 h
    refine finishFunction_eq_ok.2 ⟨u.declaring i, ?_, rfl⟩
    cases live with
    | false =>
      obtain rfl : s = u := by simpa using hu
      rfl
    | true =>
      obtain ⟨size, hret⟩ : s.stack.size = s.results.length ∧ s.ret = .ok u := by simpa using hu
      exact ⟨size, ret_declaring i hret⟩
  | cons c rest =>
    obtain ⟨u, hu, h⟩ := (endBlock_eq_ok top).1 h
    refine (@endBlock_eq_ok (s.declaring i) _ live c rest top).2
      ⟨u.declaring i, exitLast_declaring i hu, ?_⟩
    obtain ⟨kind, h⟩ | ⟨other, params, v, w, kind, hv, hw, h⟩ := h
    · exact .inl ⟨kind, leave_declaring i h⟩
    -- The missing arm is started, left and closed.
    · obtain ⟨base, rfl⟩ := startArm_eq_ok.1 hv
      refine .inr ⟨other, params, _, w.declaring i, kind, startArm_eq_ok.2 ⟨base, rfl⟩, ?_, ?_⟩
      · exact exitTo_declaring i hw
      · exact leave_declaring i h

/-- A branch is taken with any intrinsics. -/
private theorem br_declaring {depth : Nat} (h : s.br depth = .ok t) :
    (s.declaring i).br depth = .ok (t.declaring i) := by
  have hcs : (s.declaring i).constructs = s.constructs := rfl
  unfold State.br at h ⊢
  rw [hcs]
  split at h
  · next hd =>
    rw [if_pos hd]
    exact ret_declaring i h
  · next hd =>
    rw [if_neg hd]
    split at h
    · cases h
    · next c hc =>
      obtain ⟨u, hu, h⟩ := bind_eq_ok.1 h
      exact bind_eq_ok.2 ⟨u.declaring i, exitTo_declaring i hu, enterDead_declaring i h⟩

/-! ## Straight-line operators -/

private theorem pop_declaring {v : Operand} (h : s.pop = .ok (v, t)) :
    (s.declaring i).pop = .ok (v, t.declaring i) := by
  obtain ⟨xs, stack, base, rfl⟩ := State.pop_eq_ok.1 h
  exact State.pop_eq_ok.2 ⟨xs, stack, base, rfl⟩

/-- A local is read with any intrinsics. -/
private theorem localGet_declaring {index : UInt32} (h : s.localGet index = .ok t) :
    (s.declaring i).localGet index = .ok (t.declaring i) := by
  unfold State.localGet at h ⊢
  have hlocals : (s.declaring i).locals = s.locals := rfl
  rw [hlocals]
  split at h
  · cases h
  · next slot hslot =>
    obtain rfl := Except.ok.inj h
    rfl

/-- A local is written with any intrinsics. -/
private theorem localSet_declaring {index : UInt32} (h : s.localSet index = .ok t) :
    (s.declaring i).localSet index = .ok (t.declaring i) := by
  unfold State.localSet at h ⊢
  have hlocals : (s.declaring i).locals = s.locals := rfl
  rw [hlocals]
  split at h
  · cases h
  · next slot hslot =>
    obtain ⟨⟨v, u⟩, hp, h⟩ := bind_eq_ok.1 h
    obtain rfl := Except.ok.inj h
    exact bind_eq_ok.2 ⟨(v, u.declaring i), pop_declaring i hp, rfl⟩

/-- A local is written, and its value kept, with any intrinsics. -/
private theorem localTee_declaring {index : UInt32} (h : s.localTee index = .ok t) :
    (s.declaring i).localTee index = .ok (t.declaring i) := by
  unfold State.localTee at h ⊢
  have hlocals : (s.declaring i).locals = s.locals := rfl
  rw [hlocals]
  split at h
  · cases h
  · next slot hslot =>
    obtain ⟨v, hp, h⟩ := bind_eq_ok.1 h
    obtain rfl := Except.ok.inj h
    exact bind_eq_ok.2 ⟨v, State.peek_eq_ok.2 (State.peek_eq_ok.1 hp), rfl⟩

private theorem emittedAll_declaring (s : State) (cs : List Rhs) :
    ∃ j, (s.declaring i).emittedAll cs = (s.emittedAll cs).declaring j := by
  obtain rfl | ⟨init, rhs, rfl⟩ := List.eq_nil_or_concat cs
  · exact ⟨i, rfl⟩
  · rw [List.concat_eq_append, State.emittedAll_concat s, State.emittedAll_concat (s.declaring i)]
    exact ⟨_, rfl⟩

/-- A conversion with a check declares what aborts after the intrinsics that are there. -/
private theorem convert_declaring {c : Conversion} (h : s.convert c = .ok t)
    (hc : (Operator.convert c).isComputation = false) :
    ∃ j, (s.declaring i).convert c = .ok (t.declaring j) := by
  obtain ⟨⟨a, u⟩, hp, h⟩ := bind_eq_ok.1 h
  obtain ⟨target, htarget, h⟩ := bind_eq_ok.1 h
  cases c with
  | trunc source width signed =>
    obtain rfl := Except.ok.inj h
    refine ⟨i.declare ⟨.trap, []⟩, bind_eq_ok.2 ⟨(a, u.declaring i), pop_declaring i hp, ?_⟩⟩
    refine bind_eq_ok.2 ⟨target, htarget, congrArg Except.ok ?_⟩
    show (u.declaring i).truncChecked a target signed = _
    rw [truncChecked_fields, truncChecked_fields]
    rfl
  | _ => cases hc

/-! ## Steps -/

/-- An operator is lowered alike. It may declare an intrinsic, to which the others do not matter. -/
private theorem lower_declaring {op : Operator} (h : s.lower op = .ok t) :
    ∃ j, (s.declaring i).lower op = .ok (t.declaring j) := by
  -- A computation may declare intrinsics, but its lines do not depend on those declared before.
  by_cases hop : op.isComputation = true
  · obtain ⟨xs, args, cs, stack, base, hcs, rfl⟩ := (lower_eq_ok_iff hop).1 h
    obtain ⟨j, hj⟩ := emittedAll_declaring i (s.restacked xs) cs
    exact ⟨j, (lower_eq_ok_iff hop).2 ⟨xs, args, cs, stack, base, hcs, hj.symm⟩⟩
  · cases op with
    | unreachable => exact ⟨i, enterDead_declaring i h⟩
    | nop =>
      obtain rfl := Except.ok.inj h
      exact ⟨i, rfl⟩
    | block type => exact ⟨i, enter_declaring i h⟩
    | loop results => exact ⟨i, enter_declaring i h⟩
    | ifBlock type => exact ⟨i, ifBlock_declaring i h⟩
    | elseBlock => exact ⟨i, elseBlock_declaring i h⟩
    | endBlock => exact ⟨i, endBlock_declaring i h⟩
    | br depth => exact ⟨i, br_declaring i h⟩
    | ret => exact ⟨i, ret_declaring i h⟩
    | drop =>
      obtain ⟨⟨v, u⟩, hp, h⟩ := bind_eq_ok.1 h
      obtain rfl := Except.ok.inj h
      exact ⟨i, bind_eq_ok.2 ⟨(v, u.declaring i), pop_declaring i hp, rfl⟩⟩
    | localGet index => exact ⟨i, localGet_declaring i h⟩
    | localSet index => exact ⟨i, localSet_declaring i h⟩
    | localTee index => exact ⟨i, localTee_declaring i h⟩
    | i32Const value | i64Const value | f32Const value | f64Const value =>
      obtain rfl := Except.ok.inj h
      exact ⟨i, rfl⟩
    | convert c => exact convert_declaring i h (by simpa using hop)
    | _ => exact absurd rfl hop

/-- Operators are skipped alike. -/
private theorem skip_declaring {depth : Nat} {op : Operator} (h : s.skip depth op = .ok t) :
    (s.declaring i).skip depth op = .ok (t.declaring i) := by
  cases op with
  | block type | loop results | ifBlock type =>
    obtain rfl := Except.ok.inj h
    rfl
  -- An `else` or an `end` of depth zero ends the dead code.
  | elseBlock =>
    by_cases hd : depth = 0
    · simp only [State.skip, hd, if_true] at h ⊢
      exact elseBlock_declaring i h
    · simp only [State.skip, hd, if_false] at h ⊢
      obtain rfl := Except.ok.inj h
      rfl
  | endBlock =>
    by_cases hd : depth = 0
    · simp only [State.skip, hd, if_true] at h ⊢
      exact endBlock_declaring i h
    · simp only [State.skip, hd, if_false] at h ⊢
      obtain rfl := Except.ok.inj h
      rfl
  | _ =>
    obtain rfl := Except.ok.inj h
    rfl

/-- An operator has the same effect with any intrinsics. -/
private theorem step_declaring {op : Operator} (h : s.step op = .ok t) :
    ∃ j, (s.declaring i).step op = .ok (t.declaring j) := by
  have hphase : (s.declaring i).phase = s.phase := rfl
  unfold State.step at h ⊢
  rw [hphase]
  split at h
  · exact lower_declaring i h
  · exact ⟨i, skip_declaring i h⟩
  · obtain rfl := Except.ok.inj h
    exact ⟨i, rfl⟩

/-- Operators have the same effect with any intrinsics, each with those declared before it. -/
private theorem steps_declaring {ops : List Operator} (h : s.steps ops = .ok t) :
    ∃ j, (s.declaring i).steps ops = .ok (t.declaring j) := by
  induction ops generalizing s i with
  | nil =>
    obtain rfl := Except.ok.inj h
    exact ⟨i, rfl⟩
  | cons op ops ih =>
    obtain ⟨u, hu, h⟩ := steps_cons.1 h
    -- The first operator may have declared more, and the others go on from there.
    obtain ⟨j, hj⟩ := step_declaring i hu
    obtain ⟨k, hk⟩ := ih j h
    exact ⟨k, steps_cons.2 ⟨u.declaring j, hj, hk⟩⟩

/-! ## Functions -/

private theorem allotAll_declaring (slots : List (ScalarType × Operand)) :
    (s.declaring i).allotAll slots = (s.allotAll slots).declaring i := by
  induction slots generalizing s with
  | nil => rfl
  | cons slot slots ih => exact @ih (s.allotted slot.1 slot.2)

end Operators

/-- A body is lowered to the same signature and blocks whatever its place in the module and the
    intrinsics declared before it. -/
theorem lowerFunction_independent {types : Array FuncType} {index : Nat} {func : UInt32}
    {type : FuncType} {intrinsics table : IntrinsicTable} {input : Bytes} {f : Ssa.Function}
    (h : lowerFunction types index func type intrinsics input = .ok (f, table)) (index' : Nat)
    (func' : UInt32) (intrinsics' : IntrinsicTable) :
    ∃ table', lowerFunction types index' func' type intrinsics' input =
      .ok ({ f with body := index' }, table') := by
  obtain ⟨signature, body, start, last, hsignature, hbody, hstart, hlast, hstop, rfl, rfl⟩ :=
    lowerFunction_eq_ok.1 h
  obtain ⟨params, scalars, hparams, hscalars, rfl⟩ := start_eq_ok.1 hstart
  have hstart' := start_eq_ok.2 ⟨params, scalars, hparams, hscalars,
    (@allotAll_declaring (State.initial type intrinsics) intrinsics' _).symm⟩
  obtain ⟨table', hlast'⟩ := steps_declaring intrinsics' hlast
  exact ⟨table', lowerFunction_eq_ok.2 ⟨signature, body, _, _, hsignature, hbody, hstart', hlast',
    hstop, rfl, rfl⟩⟩

end WasmLowering.Lowering
