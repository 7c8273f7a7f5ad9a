import WasmLowering.Proofs.Matching
import WasmLowering.Proofs.Persistence
import WasmLowering.Proofs.Typing

/-!
# What lies beneath a construct

The height at which a construct was entered bounds what the operators inside it can see. With other
operands beneath the base of the innermost construct, every operator does the same, and it leaves
those operands where they are. So a construct takes its parameters from the stack, puts one operand
for each of its results in their place, and neither looks at nor changes anything else.

## Key results

- `step_onto`, `Inside.steps_onto`: operators do not see what is below the base
- `steps_construct`: what a construct does to the state, from its first operator to its `end`
-/

namespace WasmLowering

open Ssa

/-- The number of operands that an operator takes for the construct it opens, and the declared
    results of the construct. -/
def Operator.construct? : Operator → Option (Nat × List ValueType)
  | .block type => some (type.params.length, type.results)
  | .loop results => some (0, results)
  | .ifBlock type => some (type.params.length + 1, type.results)
  | _ => none

namespace Lowering

/-! ## Other operands at the bottom -/

/-- The operands with others in the place of the lowest ones. -/
def onto (low xs : Array Operand) : Array Operand :=
  low ++ xs.drop low.size

section Onto

variable {low xs ys : Array Operand}

private theorem toList_onto : (onto low xs).toList = low.toList ++ xs.toList.drop low.size := by
  simp [onto, List.take_of_length_le]

private theorem size_onto (h : low.size ≤ xs.size) : (onto low xs).size = xs.size := by
  simp [onto]
  omega

/-- What is put on top stays on top. -/
private theorem onto_append (h : low.size ≤ xs.size) : onto low (xs ++ ys) = onto low xs ++ ys := by
  apply Array.toList_inj.1
  simp [toList_onto, List.drop_append_of_le_length (show low.size ≤ xs.toList.length by simpa)]

private theorem onto_appendList {vs : List Operand} (h : low.size ≤ xs.size) :
    onto low (xs ++ vs) = onto low xs ++ vs := by
  apply Array.toList_inj.1
  rw [Array.toList_appendList, toList_onto, Array.toList_appendList, toList_onto,
    List.append_assoc, List.drop_append_of_le_length (show low.size ≤ xs.toList.length by simpa)]

private theorem onto_push (h : low.size ≤ xs.size) (v : Operand) :
    onto low (xs.push v) = (onto low xs).push v := by
  have := @onto_append low xs #[v] h
  simpa using this

private theorem onto_take {n : Nat} (h : low.size ≤ n) :
    onto low (xs.take n) = (onto low xs).take n := by
  apply Array.toList_inj.1
  simp [toList_onto, List.take_append, List.drop_take, List.take_of_length_le, h]

private theorem extract_onto {n : Nat} (h : low.size ≤ n) (hn : n ≤ xs.size) :
    (onto low xs).extract n (onto low xs).size = xs.extract n xs.size := by
  rw [size_onto (h.trans hn)]
  apply Array.toList_inj.1
  simp [toList_onto, List.drop_append, h]
  rw [List.drop_eq_nil_of_le (show low.toList.length ≤ n by simpa), List.nil_append]

private theorem onto_onto {low' : Array Operand} (h : low.size = low'.size) :
    onto low' (onto low xs) = onto low' xs := by
  apply Array.toList_inj.1
  simp [toList_onto, ← h]

private theorem onto_take_self {n : Nat} (h : n ≤ xs.size) : onto (xs.take n) xs = xs := by
  apply Array.toList_inj.1
  simp [toList_onto, h]

end Onto

/-- The state with other operands at the bottom of the stack. -/
def State.onto (s : State) (low : Array Operand) : State :=
  { s with stack := Lowering.onto low s.stack }

section Operators

variable {s t : State} {low : Array Operand}

private theorem size_stack_onto (h : low.size ≤ s.stack.size) :
    (s.onto low).stack.size = s.stack.size :=
  size_onto h

private theorem top_onto {n : Nat} (h : n + low.size ≤ s.stack.size) :
    (s.onto low).top n = s.top n := by
  have hsize : (s.onto low).stack.size = s.stack.size := size_stack_onto (by omega)
  have hextract := @extract_onto low s.stack (s.stack.size - n) (by omega) (by omega)
  unfold State.top
  rw [hsize]
  rwa [size_onto (by omega)] at hextract

/-! ## Straight-line operators -/

private theorem pop_onto {v : Operand} (hlow : low.size ≤ s.base) (h : s.pop = .ok (v, t)) :
    (s.onto low).pop = .ok (v, t.onto low) := by
  obtain ⟨xs, stack, base, rfl⟩ := State.pop_eq_ok.1 h
  refine State.pop_eq_ok.2 ⟨Lowering.onto low xs, ?_, ?_, rfl⟩
  · show Lowering.onto low s.stack = _
    rw [stack, onto_push (hlow.trans base)]
  · rw [size_onto (hlow.trans base)]
    exact base

/-- Computations push above the bottom. -/
private theorem emittedAll_onto (cs : List Rhs) (h : low.size ≤ s.stack.size) :
    (s.onto low).emittedAll cs = (s.emittedAll cs).onto low := by
  -- No computation looks at the stack.
  have hemitted : ∀ (u : State) (rhs : Rhs), (u.onto low).emitted rhs = (u.emitted rhs).onto low :=
    fun u rhs => by cases rhs <;> rfl
  induction cs generalizing s with
  | nil => rfl
  | cons rhs rest ih =>
    cases rest with
    | nil =>
      have hpush := onto_push h (.result s.draft.nextValue rhs.type)
      have hstack : (s.emitted rhs).stack = s.stack := by rw [State.emitted_eq]
      simp only [State.emittedAll, hemitted]
      simp only [State.onto, State.push, hstack, hpush]
    | cons rhs' rest =>
      -- Only the last value is pushed.
      have hstack : (s.emitted rhs).stack = s.stack := by rw [State.emitted_eq]
      show ((s.onto low).emitted rhs).emittedAll (rhs' :: rest) = _
      rw [hemitted, ih (by rwa [hstack])]
      rfl

/-- An operator that consists of computations. -/
private theorem computation_onto {op : Operator} (hop : op.isComputation = true)
    (hlow : low.size ≤ s.base) (h : s.lower op = .ok t) :
    (s.onto low).lower op = .ok (t.onto low) := by
  obtain ⟨xs, args, cs, stack, base, hcs, rfl⟩ := (lower_eq_ok_iff hop).1 h
  have hxs : low.size ≤ xs.size := hlow.trans base
  refine (lower_eq_ok_iff hop).2 ⟨Lowering.onto low xs, args, cs, ?_, ?_, hcs, ?_⟩
  · show (Lowering.onto low s.stack).toList = _
    rw [toList_onto, stack, toList_onto, List.append_assoc,
      List.drop_append_of_le_length (show low.size ≤ xs.toList.length by simpa)]
  · rw [size_onto hxs]
    exact base
  · exact (@emittedAll_onto (s.restacked xs) low cs hxs).symm

/-- A checked conversion takes its operand from above the bottom. -/
private theorem convert_onto {c : Conversion} (hlow : low.size ≤ s.base) (h : s.convert c = .ok t)
    (hc : (Operator.convert c).isComputation = false) :
    (s.onto low).convert c = .ok (t.onto low) := by
  obtain ⟨⟨a, u⟩, hp, h⟩ := bind_eq_ok.1 h
  obtain ⟨target, htarget, h⟩ := bind_eq_ok.1 h
  cases c with
  | trunc source width signed =>
    have hu : low.size ≤ u.stack.size := by
      obtain ⟨xs, -, base, rfl⟩ := State.pop_eq_ok.1 hp
      exact hlow.trans base
    obtain rfl := Except.ok.inj h
    refine bind_eq_ok.2 ⟨(a, u.onto low), pop_onto hlow hp, ?_⟩
    refine bind_eq_ok.2 ⟨target, htarget, congrArg Except.ok ?_⟩
    show (u.onto low).truncChecked a target signed = _
    rw [truncChecked_fields, truncChecked_fields]
    simp only [State.onto, onto_push hu]
  | _ => cases hc

/-- A store to a local takes its operand from above the bottom. -/
private theorem localSet_onto {index : UInt32} (hlow : low.size ≤ s.base)
    (h : s.localSet index = .ok t) : (s.onto low).localSet index = .ok (t.onto low) := by
  have hlocals : (s.onto low).locals = s.locals := rfl
  unfold State.localSet at h ⊢
  rw [hlocals]
  split at h
  · cases h
  · next slot hslot =>
    obtain ⟨⟨v, u⟩, hp, h⟩ := bind_eq_ok.1 h
    obtain rfl := Except.ok.inj h
    exact bind_eq_ok.2 ⟨(v, u.onto low), pop_onto hlow hp, rfl⟩

/-- A store that keeps its operand looks above the bottom. -/
private theorem localTee_onto {index : UInt32} (hlow : low.size ≤ s.base)
    (h : s.localTee index = .ok t) : (s.onto low).localTee index = .ok (t.onto low) := by
  have hlocals : (s.onto low).locals = s.locals := rfl
  unfold State.localTee at h ⊢
  rw [hlocals]
  split at h
  · cases h
  · next slot hslot =>
    obtain ⟨v, hp, h⟩ := bind_eq_ok.1 h
    obtain ⟨xs, stack, base⟩ := State.peek_eq_ok.1 hp
    obtain rfl := Except.ok.inj h
    -- The stack above the bottom has the same top.
    refine bind_eq_ok.2 ⟨v, State.peek_eq_ok.2 ⟨Lowering.onto low xs, ?_, ?_⟩, rfl⟩
    · show Lowering.onto low s.stack = _
      rw [stack, onto_push (hlow.trans base)]
    · rw [size_onto (hlow.trans base)]
      exact base

private theorem push_onto (h : low.size ≤ s.stack.size) (v : Operand) :
    (s.onto low).push v = (s.push v).onto low := by
  simp only [State.onto, State.push, onto_push h]

/-- A read of a local pushes its value. -/
private theorem localGet_onto {index : UInt32} (hs : low.size ≤ s.stack.size)
    (h : s.localGet index = .ok t) : (s.onto low).localGet index = .ok (t.onto low) := by
  have hlocals : (s.onto low).locals = s.locals := rfl
  unfold State.localGet at h ⊢
  rw [hlocals]
  split at h
  · cases h
  · next slot hslot =>
    obtain rfl := Except.ok.inj h
    exact congrArg Except.ok
      (@push_onto (s.computed (.load slot.type slot.id)) low hs
        (.result s.draft.nextValue slot.type))

/-! ## Operators on the control flow -/

private theorem enter_onto {type : FuncType} {kind : ConstructKind} {role : BlockRole}
    (hs : low.size ≤ s.stack.size) (h : s.enter type kind role = .ok t) :
    (s.onto low).enter type kind role = .ok (t.onto low) := by
  obtain ⟨arity, types, htypes, rfl⟩ := enter_eq_ok.1 h
  refine enter_eq_ok.2 ⟨?_, types, htypes, ?_⟩
  · rw [size_stack_onto hs]
    exact arity
  · rw [size_stack_onto hs]
    rfl

/-- A conditional takes its condition from above the bottom. -/
private theorem ifBlock_onto {type : FuncType} (hs : low.size + type.params.length < s.stack.size)
    (h : s.ifBlock type = .ok t) : (s.onto low).ifBlock type = .ok (t.onto low) := by
  obtain ⟨xs, v, types, stack, base, arity, htypes, rfl⟩ := ifBlock_eq_ok.1 h
  rw [stack, Array.size_push] at hs
  have hxs : low.size ≤ xs.size := by omega
  refine ifBlock_eq_ok.2 ⟨Lowering.onto low xs, v, types, ?_, ?_, ?_, htypes, ?_⟩
  · show Lowering.onto low s.stack = _
    rw [stack, onto_push hxs]
  · rw [size_onto hxs]
    exact base
  · rw [size_onto hxs]
    exact arity
  -- The parameters that are kept for the second arm are the same.
  · let u := (s.restacked xs).computed (.icmp .ne v v.type.zero)
    have htop : (u.onto low).top type.params.length = u.top type.params.length :=
      top_onto (show _ ≤ xs.size by omega)
    have hsize : (u.onto low).stack.size = u.stack.size := size_onto hxs
    show (u.forked _ _ _).onto low = (u.onto low).forked _ _ _
    unfold State.forked
    rw [htop, hsize]
    rfl

private theorem enterDead_onto (hlow : low.size ≤ s.base) (h : s.enterDead = .ok t) :
    (s.onto low).enterDead = .ok (t.onto low) := by
  obtain ⟨base, rfl⟩ := enterDead_eq_ok.1 h
  refine enterDead_eq_ok.2 ⟨?_, ?_⟩
  · rw [size_stack_onto (hlow.trans base)]
    exact base
  · simp only [State.onto, onto_take hlow]
    rfl

/-- A return takes its results from above the bottom. -/
private theorem ret_onto (hlow : low.size ≤ s.base) (h : s.ret = .ok t) :
    (s.onto low).ret = .ok (t.onto low) := by
  obtain ⟨arity, base, fields, hfields, rfl⟩ := ret_eq_ok.1 h
  refine ret_eq_ok.2 ⟨?_, ?_, fields, hfields, ?_⟩
  · rw [size_stack_onto (hlow.trans base)]
    exact arity
  · rw [size_stack_onto (hlow.trans base)]
    exact base
  · -- The results are the same operands.
    have htop : (s.onto low).top s.results.length = s.top s.results.length := top_onto (by omega)
    show _ = ({ s.onto low with
      draft := s.draft.returned fields ((s.onto low).top s.results.length).toList
      stack := (Lowering.onto low s.stack).take s.base
      phase := .dead 0 } : State)
    rw [htop, ← onto_take hlow]
    rfl

/-- Leaving a construct takes the results from above the bottom. -/
private theorem exitTo_onto {c : Construct} (hlow : low.size ≤ s.base) (hb : s.base ≤ s.stack.size)
    (h : s.exitTo c = .ok t) : (s.onto low).exitTo c = .ok (t.onto low) := by
  apply exitTo_eq_ok.2
  obtain ⟨head, kind, rfl⟩ | ⟨kind, arity, rfl⟩ := exitTo_eq_ok.1 h
  · exact .inl ⟨head, kind, rfl⟩
  · refine .inr ⟨kind, ?_, ?_⟩
    · rw [size_stack_onto (hlow.trans hb)]
      exact arity
    · rw [top_onto (by omega)]
      rfl

/-- The last arm is left at the same height. -/
private theorem exitLast_onto {c : Construct} {live : Bool} (hlow : low.size ≤ s.base)
    (hb : s.base ≤ s.stack.size) (h : s.exitLast c live = .ok t) :
    (s.onto low).exitLast c live = .ok (t.onto low) := by
  unfold State.exitLast at h ⊢
  split at h
  · next hlive =>
    rw [if_pos hlive]
    split at h
    · exact exitTo_onto hlow hb h
    · -- The height above the base is the same.
      obtain ⟨size, h⟩ := exitArm_eq_ok.1 h
      refine exitArm_eq_ok.2 ⟨?_, exitTo_onto hlow hb h⟩
      rw [size_stack_onto (hlow.trans hb)]
      exact size
  · next hlive =>
    obtain rfl := Except.ok.inj h
    rw [if_neg hlive]

/-- The base is that of the innermost construct. -/
private theorem base_of_cons {c : Construct} {rest : List Construct}
    (top : s.constructs = c :: rest) :
    s.base = c.base := by
  unfold State.base
  rw [top]

/-- Leaving the last arm changes neither the stack nor the constructs. -/
private theorem exitLast_frame {c : Construct} {live : Bool} (h : s.exitLast c live = .ok t) :
    t.stack = s.stack ∧ t.constructs = s.constructs := by
  -- A branch only adds lines.
  have hexit : ∀ {t : State}, s.exitTo c = .ok t →
      t.stack = s.stack ∧ t.constructs = s.constructs := by
    intro t h
    obtain ⟨head, -, rfl⟩ | ⟨-, -, rfl⟩ := exitTo_eq_ok.1 h
    · exact ⟨rfl, rfl⟩
    · exact ⟨rfl, rfl⟩
  unfold State.exitLast at h
  split at h
  · split at h
    · exact hexit h
    · exact hexit (exitArm_eq_ok.1 h).2
  · obtain rfl := Except.ok.inj h
    exact ⟨rfl, rfl⟩

/-- A second arm starts on the same bottom. -/
private theorem elseBlock_onto {live : Bool} (hlow : low.size ≤ s.base) (hb : s.base ≤ s.stack.size)
    (h : s.elseBlock live = .ok t) : (s.onto low).elseBlock live = .ok (t.onto low) := by
  obtain ⟨c, rest, other, params, u, top, kind, hu, base, rfl⟩ := elseBlock_eq_ok.1 h
  have hc : low.size ≤ c.base := base_of_cons top ▸ hlow
  refine elseBlock_eq_ok.2 ⟨c, rest, other, params, u.onto low, top, kind,
    exitLast_onto hlow hb hu, ?_, ?_⟩
  · rw [size_stack_onto (hc.trans base)]
    exact base
  · have htake : low.size ≤ (u.stack.take c.base).size := by simp; omega
    simp only [State.onto, State.alternated, onto_append htake, onto_take hc]

/-- The results of a construct are put above the bottom. -/
private theorem leave_onto {c : Construct} {rest : List Construct} (hc : low.size ≤ c.base)
    (h : s.leave c rest = .ok t) : (s.onto low).leave c rest = .ok (t.onto low) := by
  obtain ⟨base, rfl⟩ := leave_eq_ok.1 h
  refine leave_eq_ok.2 ⟨?_, ?_⟩
  · rw [size_stack_onto (hc.trans base)]
    exact base
  · have htake : low.size ≤ (s.stack.take c.base).size := by simp; omega
    simp only [State.onto, State.left, onto_appendList htake, onto_take hc]
    rfl

private theorem startArm_onto {c : Construct} {other : Label} {params : Array Operand}
    (hc : low.size ≤ c.base) (h : s.startArm c other params = .ok t) :
    (s.onto low).startArm c other params = .ok (t.onto low) := by
  obtain ⟨base, rfl⟩ := startArm_eq_ok.1 h
  refine startArm_eq_ok.2 ⟨?_, ?_⟩
  · rw [size_stack_onto (hc.trans base)]
    exact base
  · have htake : low.size ≤ (s.stack.take c.base).size := by simp; omega
    simp only [State.onto, onto_append htake, onto_take hc]

/-- A second arm starts at the height of its construct or above. -/
private theorem startArm_height {c : Construct} {other : Label} {params : Array Operand}
    (h : s.startArm c other params = .ok t) :
    t.constructs = s.constructs ∧ c.base ≤ t.stack.size := by
  obtain ⟨base, rfl⟩ := startArm_eq_ok.1 h
  refine ⟨rfl, ?_⟩
  show c.base ≤ (s.stack.take c.base ++ params).size
  simp
  omega

/-- The end of a construct or of the function. -/
private theorem endBlock_onto {live : Bool} (hlow : low.size ≤ s.base) (hb : s.base ≤ s.stack.size)
    (h : s.endBlock live = .ok t) : (s.onto low).endBlock live = .ok (t.onto low) := by
  cases top : s.constructs with
  -- The end of the function returns, if it can be reached.
  | nil =>
    have hend : ∀ u : State, u.constructs = [] → u.endBlock live = u.finishFunction live := by
      intro u hu
      unfold State.endBlock
      rw [hu]
    rw [hend s top] at h
    rw [hend (s.onto low) top]
    obtain ⟨u, hu, rfl⟩ := finishFunction_eq_ok.1 h
    refine finishFunction_eq_ok.2 ⟨u.onto low, ?_, rfl⟩
    cases live with
    | false =>
      obtain rfl : s = u := by simpa using hu
      rfl
    | true =>
      obtain ⟨size, hret⟩ : s.stack.size = s.results.length ∧ s.ret = .ok u := by simpa using hu
      refine ⟨?_, ret_onto hlow hret⟩
      rw [size_stack_onto (hlow.trans hb)]
      exact size
  | cons c rest =>
    have hc : low.size ≤ c.base := base_of_cons top ▸ hlow
    obtain ⟨u, hu, h⟩ := (endBlock_eq_ok top).1 h
    refine (@endBlock_eq_ok (s.onto low) _ live c rest top).2
      ⟨u.onto low, exitLast_onto hlow hb hu, ?_⟩
    -- A conditional without its second arm passes through that arm first.
    obtain ⟨kind, h⟩ | ⟨other, params, v, w, kind, hv, hw, h⟩ := h
    · exact .inl ⟨kind, leave_onto hc h⟩
    · obtain ⟨hv', hheight⟩ := startArm_height hv
      have hbase : v.base = c.base :=
        base_of_cons (hv'.trans ((exitLast_frame hu).2.trans top))
      exact .inr ⟨other, params, v.onto low, w.onto low, kind, startArm_onto hc hv,
        exitTo_onto (hbase ▸ hc) (hbase ▸ hheight) hw, leave_onto hc h⟩

/-- A branch takes its operands from above the bottom. -/
private theorem br_onto {depth : Nat} (hlow : low.size ≤ s.base) (hb : s.base ≤ s.stack.size)
    (h : s.br depth = .ok t) : (s.onto low).br depth = .ok (t.onto low) := by
  have hcs : (s.onto low).constructs = s.constructs := rfl
  unfold State.br at h ⊢
  rw [hcs]
  split at h
  -- Out of all constructs it is a return.
  · next hd =>
    rw [if_pos hd]
    exact ret_onto hlow h
  · next hd =>
    rw [if_neg hd]
    split at h
    · cases h
    · next c hc =>
      obtain ⟨u, hu, h⟩ := bind_eq_ok.1 h
      have hbase : u.base = s.base := by
        obtain ⟨head, -, rfl⟩ | ⟨-, -, rfl⟩ := exitTo_eq_ok.1 hu
        · rfl
        · rfl
      exact bind_eq_ok.2 ⟨u.onto low, exitTo_onto hlow hb hu, enterDead_onto (hbase ▸ hlow) h⟩

/-! ## Steps -/

/-- With another bottom, an operator in live code does the same. -/
private theorem lower_onto {op : Operator} (hlow : low.size ≤ s.base) (hb : s.base ≤ s.stack.size)
    (h : s.lower op = .ok t) : (s.onto low).lower op = .ok (t.onto low) := by
  have hs : low.size ≤ s.stack.size := hlow.trans hb
  -- Computations are all treated alike.
  by_cases hop : op.isComputation = true
  · exact computation_onto hop hlow h
  · cases op with
    | unreachable => exact @enterDead_onto (s.append .unreachable) t low hlow h
    | nop =>
      obtain rfl := Except.ok.inj h
      rfl
    | block type => exact enter_onto hs h
    | loop results => exact @enter_onto (s.begun .loopBegin) t low _ _ _ hs h
    | ifBlock type =>
      -- The parameters and the condition lie above the base.
      refine ifBlock_onto ?_ h
      obtain ⟨xs, v, types, stack, base, arity, -, -⟩ := ifBlock_eq_ok.1 h
      rw [stack, Array.size_push]
      omega
    | elseBlock => exact elseBlock_onto hlow hb h
    | endBlock => exact endBlock_onto hlow hb h
    | br depth => exact br_onto hlow hb h
    | ret => exact ret_onto hlow h
    | drop =>
      obtain ⟨⟨v, u⟩, hp, h⟩ := bind_eq_ok.1 h
      obtain rfl := Except.ok.inj h
      exact bind_eq_ok.2 ⟨(v, u.onto low), pop_onto hlow hp, rfl⟩
    | localGet index => exact localGet_onto hs h
    | localSet index => exact localSet_onto hlow h
    | localTee index => exact localTee_onto hlow h
    | i32Const value | i64Const value | f32Const value | f64Const value =>
      obtain rfl := Except.ok.inj h
      exact congrArg Except.ok (push_onto hs _)
    | convert c => exact convert_onto hlow h (by simpa using hop)
    | _ => exact absurd rfl hop

/-- With another bottom, an operator in dead code does the same. -/
private theorem skip_onto {depth : Nat} {op : Operator} (hlow : low.size ≤ s.base)
    (hb : s.base ≤ s.stack.size) (h : s.skip depth op = .ok t) :
    (s.onto low).skip depth op = .ok (t.onto low) := by
  cases op with
  | block type | loop results | ifBlock type =>
    obtain rfl := Except.ok.inj h
    rfl
  -- The arm in which the code became dead ends, or one in dead code does.
  | elseBlock =>
    by_cases hd : depth = 0
    · simp only [State.skip, hd, if_true] at h ⊢
      exact elseBlock_onto hlow hb h
    · simp only [State.skip, hd, if_false] at h ⊢
      obtain rfl := Except.ok.inj h
      rfl
  | endBlock =>
    by_cases hd : depth = 0
    · simp only [State.skip, hd, if_true] at h ⊢
      exact endBlock_onto hlow hb h
    · simp only [State.skip, hd, if_false] at h ⊢
      obtain rfl := Except.ok.inj h
      rfl
  | _ =>
    obtain rfl := Except.ok.inj h
    rfl

/-- With other operands below the base, an operator does the same and leaves them there. -/
theorem step_onto {op : Operator} (hlow : low.size ≤ s.base) (hb : s.base ≤ s.stack.size)
    (h : s.step op = .ok t) : (s.onto low).step op = .ok (t.onto low) := by
  have hphase : (s.onto low).phase = s.phase := rfl
  unfold State.step at h ⊢
  rw [hphase]
  split at h
  · exact lower_onto hlow hb h
  · exact skip_onto hlow hb h
  · obtain rfl := Except.ok.inj h
    rfl

/-- Operators succeed or fail whatever lies below the base. -/
private theorem step_onto_iff {op : Operator} (hlow : low.size ≤ s.base)
    -- The operands at the bottom are put back in the other direction.
    (hb : s.base ≤ s.stack.size) :
    (s.onto low).step op = .ok t ↔ ∃ u, s.step op = .ok u ∧ t = u.onto low := by
  constructor
  · intro h
    -- Putting the operands back gives the step of the state itself.
    have hs : low.size ≤ s.stack.size := hlow.trans hb
    have hsize : (s.stack.take low.size).size = low.size := by simpa using hs
    have hback : (s.onto low).onto (s.stack.take low.size) = s := by
      simp only [State.onto, onto_onto hsize.symm, onto_take_self hs]
    have hstep : s.step op = .ok (t.onto (s.stack.take low.size)) := by
      have := @step_onto (s.onto low) t (s.stack.take low.size) op (hsize.trans_le hlow)
        (by rw [size_stack_onto hs]; exact hb) h
      rwa [hback] at this
    exact ⟨_, hstep, Except.ok.inj (h.symm.trans (step_onto hlow hb hstep))⟩
  · rintro ⟨u, h, rfl⟩
    exact step_onto hlow hb h

end Operators

/-! ## Inside a construct -/

section Inner

variable {s t : State} {low : Array Operand} {c : Construct} {outer : List Construct}
  {depth deeper : Nat} {ops : List Operator}

/-- The state stays inside a construct up to its `end`. -/
theorem Inside.steps (h : Inside c outer depth s) (hsteps : s.steps ops = .ok t)
    (hnest : Operator.nestings (some depth) ops = some deeper) :
    ∃ kind, Inside { c with kind } outer deeper t := by
  induction ops generalizing s c depth with
  | nil =>
    obtain rfl := Except.ok.inj hsteps
    obtain rfl := Option.some.inj hnest
    exact ⟨c.kind, h⟩
  | cons op ops ih =>
    obtain ⟨u, hu, hsteps⟩ := steps_cons.1 hsteps
    rw [Operator.nestings_cons, Option.bind_some] at hnest
    cases hop : op.nesting depth with
    | none => simp [hop, Operator.nestings_none] at hnest
    | some next =>
      rw [hop] at hnest
      -- The first operator stays inside, and then the others do.
      obtain ⟨kind, hinside, -⟩ := h.step hu hop
      obtain ⟨kind', hlast⟩ := ih hinside hsteps hnest
      exact ⟨kind', hlast⟩

/-- The base of the innermost construct is not below that of one around it. -/
theorem Inside.base_le (h : Inside c outer depth s) (hf : s.Framed) : c.base ≤ s.base := by
  obtain ⟨inner, hsplit⟩ := h.split
  exact hf.base_le (by simp [hsplit])

/-- A run inside a construct does not see what is beneath the construct. -/
theorem Inside.steps_onto (h : Inside c outer depth s) (hf : s.Framed)
    (hlow : low.size ≤ c.base) (hsteps : s.steps ops = .ok t)
    (hnest : Operator.nestings (some depth) ops = some deeper) :
    (s.onto low).steps ops = .ok (t.onto low) := by
  -- The base of the innermost construct never goes below that of the construct.
  induction ops generalizing s c depth with
  | nil =>
    obtain rfl := Except.ok.inj hsteps
    rfl
  | cons op ops ih =>
    obtain ⟨u, hu, hsteps⟩ := steps_cons.1 hsteps
    rw [Operator.nestings_cons, Option.bind_some] at hnest
    cases hop : op.nesting depth with
    | none => simp [hop, Operator.nestings_none] at hnest
    | some next =>
      rw [hop] at hnest
      obtain ⟨kind, hinside, -⟩ := h.step hu hop
      have hframed := Moves.framed (step_moves hf hu) hf
      exact steps_cons.2 ⟨u.onto low, step_onto (hlow.trans (h.base_le hf)) hf.height hu,
        ih hinside hframed hlow hsteps hnest⟩

end Inner

/-! ## Whole constructs -/

section Constructs

variable {s t : State} {low : Array Operand} {op : Operator} {taken : Nat}
  {results : List ValueType} {inner : List Operator}

/-- A construct is opened right below the operands that it takes. -/
theorem step_opens (hop : op.construct? = some (taken, results)) (live : s.phase = .live)
    (hf : s.Framed) (h : s.step op = .ok t) :
    ∃ c, t.constructs = c :: s.constructs ∧ t.phase = .live ∧ Declares c results ∧
      taken + s.base ≤ s.stack.size ∧ c.base = s.stack.size - taken ∧
      t.stack.toList.take c.base = s.stack.toList.take c.base := by
  have hb := hf.height
  have hlower : s.lower op = .ok t := by
    unfold State.step at h
    rwa [live] at h
  have htypes : ∀ {types : List ScalarType} {next : ValueId},
      results.mapM (ValueType.scalar hostPointerBits) = .ok types →
        results.mapM (ValueType.scalar hostPointerBits) =
          .ok ((phiValues next types).map Operand.type) := by
    intro types next h
    rw [map_type_phiValues, h]
  cases op with
  | block type =>
    obtain ⟨rfl, rfl⟩ := Prod.mk.inj (Option.some.inj hop)
    obtain ⟨arity, types, hresults, rfl⟩ := enter_eq_ok.1 hlower
    exact ⟨_, rfl, live, htypes hresults, by omega, rfl, rfl⟩
  | loop declared =>
    obtain ⟨rfl, rfl⟩ := Prod.mk.inj (Option.some.inj hop)
    obtain ⟨-, types, hresults, rfl⟩ := enter_eq_ok.1 hlower
    exact ⟨_, rfl, live, htypes hresults, by omega, rfl, rfl⟩
  | ifBlock type =>
    -- The condition is taken from above the parameters.
    obtain ⟨rfl, rfl⟩ := Prod.mk.inj (Option.some.inj hop)
    obtain ⟨xs, v, types, stack, base, arity, hresults, rfl⟩ := ifBlock_eq_ok.1 hlower
    have hsize : s.stack.size = xs.size + 1 := by rw [stack, Array.size_push]
    refine ⟨_, rfl, live, htypes hresults, by omega, ?_, ?_⟩
    · show xs.size - _ = _
      omega
    · show xs.toList.take (xs.size - _) = s.stack.toList.take (xs.size - _)
      rw [stack, Array.toList_push, List.take_append_of_le_length]
      rw [Array.length_toList]
      omega
  | _ => cases hop

/-- A construct takes its operands from the top of the stack. -/
private theorem step_opens_onto (hop : op.construct? = some (taken, results))
    (live : s.phase = .live) (hlow : low.size + taken ≤ s.stack.size) (h : s.step op = .ok t) :
    (s.onto low).step op = .ok (t.onto low) := by
  have hs : low.size ≤ s.stack.size := by omega
  have hphase : (s.onto low).phase = .live := live
  unfold State.step at h ⊢
  rw [hphase]
  rw [live] at h
  cases op with
  | block type => exact enter_onto hs h
  | loop declared => exact @enter_onto (s.begun .loopBegin) t low _ _ _ hs h
  | ifBlock type =>
    obtain ⟨rfl, -⟩ := Prod.mk.inj (Option.some.inj hop)
    exact ifBlock_onto (by omega) h
  | _ => cases hop

/-- The `end` of a construct puts its results where its parameters were. -/
private theorem step_closes {c : Construct} {outer : List Construct} (hs : s.AtArmEnd)
    (top : s.constructs = c :: outer) (h : s.step .endBlock = .ok t) :
    t.constructs = outer ∧ t.phase = .live ∧
      ∃ values, t.stack.toList = s.stack.toList.take c.base ++ values ∧
        values.map Operand.type = c.results.map Operand.type := by
  -- The arm that ends is live or dead.
  obtain ⟨live, hphase, hend⟩ : ∃ live : Bool,
      (if live then s.phase = .live else s.phase = .dead 0) ∧ s.endBlock live = .ok t := by
    unfold State.step at h
    obtain hphase | hphase := hs <;> rw [hphase] at h
    · exact ⟨true, hphase, h⟩
    · exact ⟨false, hphase, h⟩
  have hlive : live = true → s.phase = .live := fun h => by simpa [h] using hphase
  have hdead : live = false → ∃ depth, s.phase = .dead depth :=
    fun h => ⟨0, by simpa [h] using hphase⟩
  obtain ⟨u, depth, kind, -, -, -, -, -, hstack, rfl⟩ := endBlock_left hlive hdead top hend
  refine ⟨rfl, rfl, u.resultsAfter { c with kind }, ?_, map_type_resultsAfter u _⟩
  show (u.stack.take c.base ++ u.resultsAfter { c with kind }).toList = _
  rw [Array.toList_appendList, hstack]
  simp

/-- From its first operator to its `end`, a construct puts one operand for each result in the place
    of the operands it takes, keeps what is beneath them and does not see it. -/
theorem steps_construct (hd : s.Disciplined) (hf : s.Framed) (live : s.phase = .live)
    (hop : op.construct? = some (taken, results))
    (hinner : Operator.nestings (some 0) inner = some 0)
    (h : s.steps (op :: (inner ++ [Operator.endBlock])) = .ok t) :
    t.constructs = s.constructs ∧ t.phase = .live ∧ taken + s.base ≤ s.stack.size ∧
      (∃ values, t.stack.toList = s.stack.toList.take (s.stack.size - taken) ++ values ∧
        results.mapM (ValueType.scalar hostPointerBits) = .ok (values.map Operand.type)) ∧
      ∀ low : Array Operand, low.size + taken ≤ s.stack.size →
        (s.onto low).steps (op :: (inner ++ [Operator.endBlock])) = .ok (t.onto low) := by
  -- The state is `u` behind the first operator, `v` before the `end` and `w` behind it.
  obtain ⟨u, hu, h⟩ := steps_cons.1 h
  obtain ⟨v, hv, h⟩ := steps_append.1 h
  obtain ⟨w, hw, h⟩ := steps_cons.1 h
  obtain rfl := Except.ok.inj h
  obtain ⟨c, htop, hlive, hdeclares, hheight, hbase, hbelow⟩ := step_opens hop live hf hu
  have hmoves := step_moves hf hu
  have hframed := Moves.framed hmoves hf
  have hinside : Inside c s.constructs 0 u :=
    ⟨⟨[], htop⟩, by rw [State.depth_of_live hlive, htop, List.length_cons, Nat.zero_add]⟩
  obtain ⟨kind, hlast⟩ := hinside.steps hv hinner
  obtain ⟨hvtop, hvend⟩ := hlast.top
  obtain ⟨hconstructs, hphase, values, hstack, htypes⟩ := step_closes hvend hvtop hw
  -- Up to the `end`, what is beneath the construct stays.
  have hopen : c ∈ u.constructs := by simp [htop]
  have hopen' : { c with kind } ∈ v.constructs := by simp [hvtop]
  obtain ⟨-, -, hkept, -⟩ := Moves.stays_open (steps_moves hframed hv)
    (Moves.disciplined hmoves hd) hframed hopen hopen' rfl
  refine ⟨hconstructs, hphase, hheight, ⟨values, ?_, ?_⟩, fun low hlow => ?_⟩
  · rw [hstack, ← hbase, ← hbelow]
    exact congrArg (· ++ values) hkept
  · rw [htypes]
    exact hdeclares
  · have hc : low.size ≤ c.base := by omega
    have hvframed := Moves.framed (steps_moves hframed hv) hframed
    have hwonto : (v.onto low).step .endBlock = .ok (w.onto low) :=
      step_onto (hc.trans (hlast.base_le hvframed)) hvframed.height hw
    exact steps_cons.2 ⟨u.onto low, step_opens_onto hop live hlow hu, steps_append.2 ⟨v.onto low,
      hinside.steps_onto hframed hc hv hinner, steps_cons.2 ⟨w.onto low, hwonto, rfl⟩⟩⟩

end Constructs

/-! ## Boundaries -/

/-- The states in which the operands above the base are counted while an operator is lowered: the
    state before the operator, that of a conditional without its condition, and that of the second
    arm which a conditional lacks. -/
inductive CountsIn (s u : State) : Operator → Prop where
  | before (op : Operator) (stack : u.stack = s.stack) (constructs : u.constructs = s.constructs) :
      CountsIn s u op
  | condition {type : FuncType} {v : Operand} {w : State} (pop : s.pop = .ok (v, w))
      (stack : u.stack = w.stack) (constructs : u.constructs = w.constructs) :
      CountsIn s u (.ifBlock type)
  | otherwise {live : Bool} {c : Construct} {rest : List Construct} {other : Label}
      {params : Array Operand} {w : State} (top : s.constructs = c :: rest)
      (exit : s.exitLast c live = .ok w) (start : w.startArm c other params = .ok u) :
      CountsIn s u .endBlock

/-- Where operands are counted, the stack is not below the base. -/
theorem CountsIn.height {s u : State} {op : Operator} (h : CountsIn s u op) (hf : s.Framed) :
    u.base ≤ u.stack.size := by
  cases h with
  | before _ stack constructs =>
    unfold State.base
    rw [stack, constructs]
    exact hf.height
  | condition pop stack constructs =>
    obtain ⟨xs, -, base, rfl⟩ := State.pop_eq_ok.1 pop
    unfold State.base
    rw [stack, constructs]
    exact base
  | otherwise top exit start =>
    -- The arm starts at the base of its construct.
    obtain ⟨hconstructs, hheight⟩ := startArm_height start
    rw [base_of_cons (hconstructs.trans ((exitLast_frame exit).2.trans top))]
    exact hheight

/-- A construct cannot touch the operands beneath it. Between any two operators, the heights at
    which the open constructs were entered do not decrease from the outermost to the innermost one,
    and the stack is not lower than the last of them. So wherever operands are counted there are as
    many as the difference of both heights, and no operator takes or sees an operand below the base.
    From its first operator to its `end`, a construct exchanges the operands it takes for one of the
    native type for each declared result, and it keeps the constructs around it and all operands
    beneath. -/
theorem constructs_keep_operands {types : Array FuncType} {type : FuncType}
    {intrinsics : IntrinsicTable} {input : Bytes} {done : List Operator} {s : State}
    (h : Boundary types type intrinsics input done s) :
    (s.constructs.map Construct.base).Pairwise (· ≥ ·) ∧ s.base ≤ s.stack.size ∧
    (∀ op u, CountsIn s u op → u.base ≤ u.stack.size ∧
      ∀ n, u.hasOperands n = true ↔ u.base + n ≤ u.stack.size) ∧
    (∀ op low t, low.size ≤ s.base →
      ((s.onto low).step op = .ok t ↔ ∃ u, s.step op = .ok u ∧ t = u.onto low)) ∧
    ∀ op taken results inner t, s.phase = .live → op.construct? = some (taken, results) →
      Operator.nestings (some 0) inner = some 0 →
      s.steps (op :: (inner ++ [Operator.endBlock])) = .ok t →
      t.constructs = s.constructs ∧ t.phase = .live ∧ taken + s.base ≤ s.stack.size ∧
      (∃ values, t.stack.toList = s.stack.toList.take (s.stack.size - taken) ++ values ∧
        results.mapM (ValueType.scalar hostPointerBits) = .ok (values.map Operand.type)) ∧
      ∀ low : Array Operand, low.size + taken ≤ s.stack.size →
        (s.onto low).steps (op :: (inner ++ [Operator.endBlock])) = .ok (t.onto low) := by
  obtain ⟨-, hf⟩ := h.moves
  refine ⟨hf.nested, hf.height, fun op u hu => ⟨hu.height hf, fun n => ?_⟩,
    fun op low t hlow => step_onto_iff hlow hf.height,
    fun op taken results inner t live hop hinner hsteps =>
      steps_construct h.disciplined hf live hop hinner hsteps⟩
  have hheight := hu.height hf
  rw [hasOperands_iff]
  omega

/-- A conditional with a parameter and a result, one arm of which goes on in dead code. -/
theorem constructs_keep_operands_conditional :
    ∃ s t, Boundary #[{ params := [.i32], results := [.i32] }] {} {}
        [0x00, 0x41, 0x05, 0x41, 0x07, 0x41, 0x01, 0x04, 0x00, 0x1A, 0x41, 0x03, 0x0C, 0x00, 0x02,
          0x40, 0x0B, 0x05, 0x0B, 0x1A, 0x1A, 0x0B]
        [.i32Const 5, .i32Const 7, .i32Const 1] s ∧
      s.steps (.ifBlock { params := [.i32], results := [.i32] } :: (([.drop, .i32Const 3, .br 0,
        .block {}, .endBlock, .elseBlock] : List Operator) ++ [Operator.endBlock])) = .ok t ∧
      t.constructs = s.constructs ∧ t.phase = .live ∧
      ∃ values, t.stack.toList = [.int 32 5] ++ values ∧
        [ValueType.i32].mapM (ValueType.scalar hostPointerBits) =
          .ok (values.map Operand.type) := by
  have hbody : Body.read #[{ params := [.i32], results := [.i32] }] []
      [0x00, 0x41, 0x05, 0x41, 0x07, 0x41, 0x01, 0x04, 0x00, 0x1A, 0x41, 0x03, 0x0C, 0x00, 0x02,
        0x40, 0x0B, 0x05, 0x0B, 0x1A, 0x1A, 0x0B] =
      .ok ⟨[], [(0x41, .i32Const 5), (0x41, .i32Const 7), (0x41, .i32Const 1),
        (0x04, .ifBlock { params := [.i32], results := [.i32] }), (0x1A, .drop),
        (0x41, .i32Const 3), (0x0C, .br 0), (0x02, .block {}), (0x0B, .endBlock),
        (0x05, .elseBlock), (0x0B, .endBlock), (0x1A, .drop), (0x1A, .drop), (0x0B, .endBlock)],
        none⟩ := by decide +kernel
  have hstart : State.start {} [] {} = .ok (State.initial {} {}) := rfl
  -- The five lies beneath the parameter and the condition.
  obtain ⟨s, hs, hphase, hstack⟩ : ∃ s, (State.initial {} {}).steps
      [.i32Const 5, .i32Const 7, .i32Const 1] = .ok s ∧ s.phase = .live ∧
      s.stack.toList.take (s.stack.size - 2) = [.int 32 5] := ⟨_, rfl, rfl, rfl⟩
  have hok : ((State.initial {} {}).steps
      (([.i32Const 5, .i32Const 7, .i32Const 1] : List Operator) ++
        Operator.ifBlock { params := [.i32], results := [.i32] } ::
          (([.drop, .i32Const 3, .br 0, .block {}, .endBlock, .elseBlock] : List Operator) ++
            [Operator.endBlock]))).toOption.isSome = true := by decide +kernel
  obtain ⟨t, ht⟩ := exists_ok_of_isSome hok
  obtain ⟨s', hs', ht⟩ := steps_append.1 ht
  obtain rfl := Except.ok.inj (hs.symm.trans hs')
  have hb : Boundary #[{ params := [.i32], results := [.i32] }] {} {}
      [0x00, 0x41, 0x05, 0x41, 0x07, 0x41, 0x01, 0x04, 0x00, 0x1A, 0x41, 0x03, 0x0C, 0x00, 0x02,
        0x40, 0x0B, 0x05, 0x0B, 0x1A, 0x1A, 0x0B]
      [.i32Const 5, .i32Const 7, .i32Const 1] s :=
    ⟨_, _, hbody, hstart, by simp [List.cons_prefix_cons], hs⟩
  obtain ⟨-, -, -, -, hconstruct⟩ := constructs_keep_operands hb
  obtain ⟨hconstructs, hlive, -, ⟨values, hvalues, htypes⟩, -⟩ :=
    hconstruct (.ifBlock { params := [.i32], results := [.i32] }) 2 [.i32]
      [.drop, .i32Const 3, .br 0, .block {}, .endBlock, .elseBlock] t hphase rfl rfl ht
  exact ⟨s, t, hb, ht, hconstructs, hlive, values, by rw [hvalues, hstack], htypes⟩

end Lowering

end WasmLowering
