import WasmLowering.Proofs.Discipline
import WasmLowering.Proofs.Returns
import WasmLowering.Proofs.Validation

/-!
# Typing of the operand stack

The lowering keeps no types of its own; it takes the types it needs from the operands on its stack.
On operands of the native types that a valid operator takes, it gives operands of the native types
that the operator gives.

## Key results

- `OperandsTyped`: operands of the native types of value types
- `computations_typed`: the computations of an operator give a value of the right type
- `lower_typed`: an operator without control can be lowered on operands of the types it takes
- `ret_typed`, `exitTo_typed`: so can the operators that leave a construct
-/

namespace WasmLowering

open Ssa Validation

namespace Lowering

/-! ## Operands -/

/-- The operands are of the native types of the value types. -/
def OperandsTyped (vs : List Operand) (ts : List ValueType) : Prop :=
  List.Forall₂ (fun v t => t.scalar hostPointerBits = .ok v.type) vs ts

section OperandsTyped

variable {vs ws : List Operand} {ts us : List ValueType}

theorem OperandsTyped.append (h : OperandsTyped vs ts) (h' : OperandsTyped ws us) :
    OperandsTyped (vs ++ ws) (ts ++ us) :=
  List.rel_append h h'

theorem OperandsTyped.single {v : Operand} {t : ValueType}
    (h : t.scalar hostPointerBits = .ok v.type) : OperandsTyped [v] [t] :=
  .cons h .nil

/-- The operands of a part of the types. -/
theorem OperandsTyped.split (h : OperandsTyped vs (ts ++ us)) :
    ∃ xs args, vs = xs ++ args ∧ OperandsTyped xs ts ∧ OperandsTyped args us :=
  ⟨vs.take ts.length, vs.drop ts.length, (List.take_append_drop ..).symm,
    List.forall₂_take_append vs ts us h, List.forall₂_drop_append vs ts us h⟩

theorem OperandsTyped.take (h : OperandsTyped vs ts) (n : Nat) :
    OperandsTyped (vs.take n) (ts.take n) :=
  List.forall₂_take n h

/-- There is one operand of one type. -/
theorem OperandsTyped.unary {t : ValueType} (h : OperandsTyped vs [t]) :
    ∃ v, vs = [v] ∧ t.scalar hostPointerBits = .ok v.type := by
  cases h with
  | cons hv h =>
    cases h
    exact ⟨_, rfl, hv⟩

/-- There are two operands of two types. -/
theorem OperandsTyped.binary {t u : ValueType} (h : OperandsTyped vs [t, u]) :
    ∃ v w, vs = [v, w] ∧ t.scalar hostPointerBits = .ok v.type ∧
      u.scalar hostPointerBits = .ok w.type := by
  cases h with
  | cons hv h =>
    obtain ⟨w, rfl, hw⟩ := OperandsTyped.unary h
    exact ⟨_, w, rfl, hv, hw⟩

/-- There are three operands of three types. -/
theorem OperandsTyped.ternary {t u x : ValueType} (h : OperandsTyped vs [t, u, x]) :
    ∃ v w y, vs = [v, w, y] ∧ t.scalar hostPointerBits = .ok v.type ∧
      u.scalar hostPointerBits = .ok w.type ∧ x.scalar hostPointerBits = .ok y.type := by
  cases h with
  | cons hv h =>
    obtain ⟨w, y, rfl, hw, hy⟩ := OperandsTyped.binary h
    exact ⟨_, w, y, rfl, hv, hw, hy⟩

end OperandsTyped

/-- Only the types of the operands matter. -/
theorem OperandsTyped.congr {vs ws : List Operand} {ts : List ValueType} (h : OperandsTyped vs ts)
    (heq : ws.map Operand.type = vs.map Operand.type) : OperandsTyped ws ts := by
  -- Nothing of an operand but its type is looked at.
  have htypes : ∀ xs : List Operand, OperandsTyped xs ts ↔
      List.Forall₂ (fun type t => t.scalar hostPointerBits = .ok type) (xs.map Operand.type)
        ts := by
    intro xs
    rw [List.forall₂_map_left_iff]
    rfl
  rw [htypes, heq, ← htypes]
  exact h

/-- Known types have native types. -/
theorem exists_mapM_scalar {ts : List ValueType} (h : knownTypes ts = true) :
    ∃ types, ts.mapM (ValueType.scalar hostPointerBits) = .ok types := by
  induction ts with
  | nil => exact ⟨[], rfl⟩
  | cons t ts ih =>
    simp only [knownTypes, List.all_cons, Bool.and_eq_true] at h
    obtain ⟨types, htypes⟩ := ih h.2
    -- Only a code that stands for no type has no native type.
    have hscalar : ∃ type, t.scalar hostPointerBits = .ok type := by
      cases t with
      | other code => cases h.1
      | _ => exact ⟨_, rfl⟩
    obtain ⟨type, htype⟩ := hscalar
    refine ⟨type :: types, ?_⟩
    rw [List.mapM_cons, htype, htypes]
    rfl

/-- Operands of the native types of a list of value types. -/
theorem operandsTyped_of_mapM {ts : List ValueType}
    (h : ts.mapM (ValueType.scalar hostPointerBits) = .ok (vs.map Operand.type)) :
    OperandsTyped vs ts := by
  induction ts generalizing vs with
  | nil =>
    have hnil : vs.map Operand.type = [] := (Except.ok.inj h).symm
    rw [List.map_eq_nil_iff.1 hnil]
    exact .nil
  | cons t ts ih =>
    rw [List.mapM_cons, bind_eq_ok] at h
    obtain ⟨type, htype, h⟩ := h
    obtain ⟨types, htypes, h⟩ := bind_eq_ok.1 h
    cases vs with
    | nil => cases Except.ok.inj h
    | cons v vs =>
      obtain ⟨rfl, rfl⟩ := List.cons.inj (Except.ok.inj h)
      exact .cons htype (ih htypes)

/-! ## Operators without control -/

section Plain

variable {body : BodyTypes} {op : Operator} {ins outs : List ValueType}

/-- On operands of the types it takes, an operator computes a value of the type it gives. -/
theorem computations_typed {args : List Operand} (hop : op.isComputation = true)
    (ht : HasType body op ins outs) (hargs : OperandsTyped args ins) (next : ValueId) :
    ∃ cs rhs out, op.computations next args = some (cs ++ [rhs]) ∧ outs = [out] ∧
      out.scalar hostPointerBits = .ok rhs.type := by
  cases ht with
  | drop t => cases hop
  | select t =>
    obtain ⟨a, b, v, rfl, ha, -, -⟩ := hargs.ternary
    exact ⟨[_], _, t, rfl, rfl, ha⟩
  -- All others have a signature, which fixes the operands and the result.
  | of hsig =>
    cases op with
    | selectTyped type =>
      have hsig : (if type.isKnown then some ([type, type, .i32], [type]) else none) =
        some (ins, outs) := hsig
      split at hsig
      · obtain ⟨rfl, rfl⟩ := Prod.mk.inj (Option.some.inj hsig)
        obtain ⟨a, b, v, rfl, ha, -, -⟩ := hargs.ternary
        exact ⟨[_], _, type, rfl, rfl, ha⟩
      · cases hsig
    | eqz width =>
      obtain ⟨rfl, rfl⟩ := Prod.mk.inj (Option.some.inj hsig)
      obtain ⟨a, rfl, ha⟩ := hargs.unary
      exact ⟨[_], _, .i32, rfl, rfl, rfl⟩
    | intCompare width op | floatCompare width op =>
      obtain ⟨rfl, rfl⟩ := Prod.mk.inj (Option.some.inj hsig)
      obtain ⟨a, b, rfl, ha, -⟩ := hargs.binary
      exact ⟨[_], _, .i32, rfl, rfl, rfl⟩
    | bitCount width op =>
      obtain ⟨rfl, rfl⟩ := Prod.mk.inj (Option.some.inj hsig)
      obtain ⟨a, rfl, ha⟩ := hargs.unary
      cases op <;> exact ⟨[], _, width.type, rfl, rfl, ha⟩
    | intBinary width op | rotate width op =>
      obtain ⟨rfl, rfl⟩ := Prod.mk.inj (Option.some.inj hsig)
      obtain ⟨a, b, rfl, ha, -⟩ := hargs.binary
      exact ⟨[], _, width.type, rfl, rfl, ha⟩
    | shift width op =>
      obtain ⟨rfl, rfl⟩ := Prod.mk.inj (Option.some.inj hsig)
      obtain ⟨a, b, rfl, ha, -⟩ := hargs.binary
      exact ⟨[_], _, width.type, rfl, rfl, ha⟩
    | floatUnary width op =>
      obtain ⟨rfl, rfl⟩ := Prod.mk.inj (Option.some.inj hsig)
      obtain ⟨a, rfl, ha⟩ := hargs.unary
      refine ⟨[], _, width.type, rfl, rfl, ?_⟩
      cases op <;> exact ha
    | floatBinary width op =>
      obtain ⟨rfl, rfl⟩ := Prod.mk.inj (Option.some.inj hsig)
      obtain ⟨a, b, rfl, ha, -⟩ := hargs.binary
      refine ⟨[], _, width.type, rfl, rfl, ?_⟩
      cases op <;> exact ha
    | convert c =>
      obtain ⟨rfl, rfl⟩ := Prod.mk.inj (Option.some.inj hsig)
      obtain ⟨a, rfl, ha⟩ := hargs.unary
      cases c with
      | trunc source target signed => cases hop
      | convert source target signed => exact ⟨[], _, _, rfl, rfl, target.scalar_type⟩
      | reinterpretAsInt width => exact ⟨[], _, _, rfl, rfl, width.scalar_type⟩
      | reinterpretAsFloat width => exact ⟨[], _, _, rfl, rfl, width.scalar_type⟩
      | _ => exact ⟨[], _, _, rfl, rfl, rfl⟩
    | signExtend width bits =>
      have hsig : (if width.extendsFrom bits then some ([width.type], [width.type]) else none) =
        some (ins, outs) := hsig
      split at hsig
      · obtain ⟨rfl, rfl⟩ := Prod.mk.inj (Option.some.inj hsig)
        obtain ⟨a, rfl, ha⟩ := hargs.unary
        exact ⟨[_], _, width.type, rfl, rfl, ha⟩
      · cases hsig
    | truncSat source target signed =>
      obtain ⟨rfl, rfl⟩ := Prod.mk.inj (Option.some.inj hsig)
      obtain ⟨a, rfl, ha⟩ := hargs.unary
      exact ⟨[], _, target.type, rfl, rfl, target.scalar_type⟩
    | select => cases hsig
    | _ => cases hop

/-- A state goes on from another one within the same constructs. -/
structure Continues (s t : State) : Prop where
  constructs : t.constructs = s.constructs
  locals : t.locals = s.locals
  results : t.results = s.results
  phase : t.phase = s.phase

/-- The slots are of the native types of the locals. -/
def SlotsTyped (slots : Array Slot) (ts : List ValueType) : Prop :=
  List.Forall₂ (fun slot t => t.scalar hostPointerBits = .ok slot.type) slots.toList ts

/-- The slot of a local has the native type of the local. -/
theorem SlotsTyped.get {slots : Array Slot} {ts : List ValueType} {i : Nat} {t : ValueType}
    (h : SlotsTyped slots ts) (ht : ts[i]? = some t) :
    ∃ slot, slots[i]? = some slot ∧ t.scalar hostPointerBits = .ok slot.type := by
  obtain ⟨hlen, hget⟩ := List.forall₂_iff_get.1 h
  obtain ⟨hi, rfl⟩ := List.getElem?_eq_some_iff.1 ht
  have hi' : i < slots.toList.length := by omega
  refine ⟨slots.toList[i], ?_, hget i hi' hi⟩
  rw [← Array.getElem?_toList, List.getElem?_eq_getElem hi']

variable {s : State} {xs : List Operand} {args : List Operand} {result : NativeType}

/-- An operator without control can be lowered on operands of the types it takes, and gives operands
    of the types it gives. -/
theorem lower_typed (ht : HasType body op ins outs) (hs : s.draft.Sound s.waiting true)
    (hstack : s.stack.toList = xs ++ args) (hargs : OperandsTyped args ins)
    (hbase : s.base ≤ xs.length) (hlocals : SlotsTyped s.locals body.locals)
    (hret : s.draft.Returning result) :
    ∃ t vs, s.lower op = .ok t ∧ t.stack.toList = xs ++ vs ∧ OperandsTyped vs outs ∧
      Continues s t ∧ t.draft.Returning result := by
  have ha := hs.toArranged
  have hbase' : s.base ≤ xs.toArray.size := by simpa using hbase
  by_cases hop : op.isComputation = true
  -- The value is of the type that the signature of the operator says.
  · obtain ⟨cs, rhs, out, hcs, rfl, hout⟩ := computations_typed hop ht hargs s.draft.nextValue
    refine ⟨(s.restacked xs.toArray).emittedAll (cs ++ [rhs]),
      [.result (s.draft.nextValue + cs.length) rhs.type], ?_, ?_, .single hout, ?_, ?_⟩
    · exact (lower_eq_ok_iff hop).2 ⟨xs.toArray, args, _, by simpa using hstack, hbase', hcs, rfl⟩
    · rw [State.emittedAll_concat]
      simp [State.restacked]
    · rw [State.emittedAll_concat]
      exact ⟨rfl, rfl, rfl, rfl⟩
    · rw [State.emittedAll_concat]
      exact hret.assigned ha _
  · -- One operand is popped or looked at by the operators that are not computations.
    have hpop : ∀ v, args = [v] → s.stack = xs.toArray.push v := by
      intro v hv
      rw [← Array.toList_inj, hstack, hv, Array.toList_push]
    -- A constant leaves the stack as it is, with one operand more.
    have hconst : ∀ (v : Operand) (t : ValueType), s.lower op = .ok (s.push v) → args = [] →
        t.scalar hostPointerBits = .ok v.type →
        ∃ u vs, s.lower op = .ok u ∧ u.stack.toList = xs ++ vs ∧
          OperandsTyped vs [t] ∧ Continues s u ∧ u.draft.Returning result := by
      intro v t hlower hnil hv
      refine ⟨s.push v, [v], hlower, ?_, .single hv, ⟨rfl, rfl, rfl, rfl⟩, hret⟩
      rw [State.push, Array.toList_push, hstack, hnil, List.append_nil]
    cases ht with
    | drop t =>
      obtain ⟨v, rfl, -⟩ := hargs.unary
      refine ⟨s.restacked xs.toArray, [], ?_, by simp [State.restacked], .nil,
        ⟨rfl, rfl, rfl, rfl⟩, hret⟩
      exact bind_eq_ok.2 ⟨_, State.pop_eq_ok.2 ⟨_, hpop v rfl, hbase', rfl⟩, rfl⟩
    | select t => exact absurd rfl hop
    | of hsig =>
      cases op with
      | nop =>
        obtain ⟨rfl, rfl⟩ := Prod.mk.inj (Option.some.inj hsig)
        cases hargs
        exact ⟨s.nop, [], rfl, hstack, .nil, ⟨rfl, rfl, rfl, rfl⟩,
          hret.skipValue.append ha.skipValue _ rfl⟩
      | i32Const value | i64Const value | f32Const value | f64Const value =>
        obtain ⟨rfl, rfl⟩ := Prod.mk.inj (Option.some.inj hsig)
        cases hargs
        exact hconst _ _ rfl rfl rfl
      | localGet index =>
        obtain ⟨t, hlocal, hsig⟩ := Option.map_eq_some_iff.1 hsig
        obtain ⟨rfl, rfl⟩ := Prod.mk.inj hsig
        cases hargs
        obtain ⟨slot, hslot, htype⟩ := hlocals.get hlocal
        -- The slot has a type of its own, which is that of the local.
        refine ⟨s.computePush (.load slot.type slot.id),
          [.result s.draft.nextValue slot.type], ?_, ?_, .single htype, ⟨rfl, rfl, rfl, rfl⟩,
          hret.skipValue.append ha.skipValue _ rfl⟩
        · show s.localGet index = _
          unfold State.localGet
          rw [hslot]
        · rw [State.stack_computePush, Array.toList_push, hstack, List.append_nil]
          rfl
      | localSet index =>
        obtain ⟨t, hlocal, hsig⟩ := Option.map_eq_some_iff.1 hsig
        obtain ⟨rfl, rfl⟩ := Prod.mk.inj hsig
        obtain ⟨v, rfl, -⟩ := hargs.unary
        obtain ⟨slot, hslot, -⟩ := hlocals.get hlocal
        refine ⟨(s.restacked xs.toArray).append (.store v slot.id), [], ?_, ?_, .nil,
          ⟨rfl, rfl, rfl, rfl⟩, hret.append ha _ rfl⟩
        · show s.localSet index = _
          unfold State.localSet
          rw [hslot]
          exact bind_eq_ok.2 ⟨_, State.pop_eq_ok.2 ⟨_, hpop v rfl, hbase', rfl⟩, rfl⟩
        · show xs.toArray.toList = _
          rw [List.append_nil]
      | localTee index =>
        obtain ⟨t, hlocal, hsig⟩ := Option.map_eq_some_iff.1 hsig
        obtain ⟨rfl, rfl⟩ := Prod.mk.inj hsig
        obtain ⟨v, rfl, hv⟩ := hargs.unary
        obtain ⟨slot, hslot, -⟩ := hlocals.get hlocal
        refine ⟨s.append (.store v slot.id), [v], ?_, hstack, .single hv, ⟨rfl, rfl, rfl, rfl⟩,
          hret.append ha _ rfl⟩
        show s.localTee index = _
        unfold State.localTee
        rw [hslot]
        exact bind_eq_ok.2 ⟨v, State.peek_eq_ok.2 ⟨_, hpop v rfl, hbase'⟩, rfl⟩
      | convert c =>
        obtain ⟨rfl, rfl⟩ := Prod.mk.inj (Option.some.inj hsig)
        obtain ⟨a, rfl, -⟩ := hargs.unary
        cases c with
        | trunc source target signed =>
          refine ⟨(s.restacked xs.toArray).truncChecked a target.scalar signed,
            [.result (s.draft.nextValue + 3) target.scalar], ?_, ?_, .single target.scalar_type,
            ?_, ?_⟩
          · refine bind_eq_ok.2 ⟨_, State.pop_eq_ok.2 ⟨_, hpop a rfl, hbase', rfl⟩, ?_⟩
            exact bind_eq_ok.2 ⟨_, target.scalar_type, rfl⟩
          · rw [truncChecked_fields]
            simp [State.restacked]
          · rw [truncChecked_fields]
            exact ⟨rfl, rfl, rfl, rfl⟩
          · rw [truncChecked_fields]
            -- The comparisons, the branch and the conversion each keep what the function returns.
            have hchecked := hs.assigned (truncChecks a target.scalar signed s.draft.nextValue)
            have hguarded := (hret.assigned ha _).guard hchecked.toArranged
              (.result (s.draft.nextValue + 2) (.int 1))
            exact hguarded.assigned (hchecked.guard _).toArranged _
        | _ => exact absurd rfl hop
      | drop | unreachable | block | loop | ifBlock | elseBlock | endBlock | br | ret => cases hsig
      | _ => exact absurd rfl hop

end Plain

/-! ## Leaving a construct -/

section Leave

variable {s : State} {xs vs : List Operand} {result : NativeType}

/-- The topmost operands. -/
theorem toList_top (h : s.stack.toList = xs ++ vs) : (s.top vs.length).toList = vs := by
  have hsize : s.stack.size = xs.length + vs.length := by
    rw [← Array.length_toList, h, List.length_append]
  rw [State.top, Array.toList_extract, h, hsize, Nat.add_sub_cancel]
  simp

/-- Values of the declared types can be returned. -/
theorem ret_typed (ha : s.draft.Arranged s.waiting) (hstack : s.stack.toList = xs ++ vs)
    (htyped : OperandsTyped vs s.results) (hbase : s.base ≤ xs.length)
    (hresult : resultType hostPointerBits s.results = .ok result)
    (hret : s.draft.Returning result) :
    ∃ d, s.ret = .ok { s with draft := d, stack := s.stack.take s.base, phase := .dead 0 } ∧
      d.Returning result := by
  have hlen : vs.length = s.results.length := htyped.length_eq
  have hsize : s.stack.size = xs.length + vs.length := by
    rw [← Array.length_toList, hstack, List.length_append]
  have htop : (s.top s.results.length).toList = vs := hlen ▸ toList_top hstack
  -- The number of results says how they are returned, and what type that is.
  have hdraft : ∃ fields, (2 ≤ s.results.length →
      s.results.mapM (ValueType.scalar hostPointerBits) = .ok fields) ∧
      (s.draft.returned fields vs).Returning result := by
    generalize s.results = results at htyped hresult
    cases htyped with
    | nil =>
      obtain rfl := Except.ok.inj hresult
      exact ⟨[], nofun, hret.close ha rfl⟩
    | @cons v t vs ts hv htyped =>
      cases htyped with
      | nil =>
        obtain ⟨type, htype, h⟩ := bind_eq_ok.1 hresult
        obtain rfl := Except.ok.inj h
        obtain rfl := Except.ok.inj (htype.symm.trans hv)
        exact ⟨[], nofun, hret.close ha rfl⟩
      | @cons w u vs ts hw htyped =>
        obtain ⟨fields, hfields, h⟩ := bind_eq_ok.1 hresult
        obtain rfl := Except.ok.inj h
        exact ⟨fields, fun _ => hfields, hret.retPacked ha (v :: w :: vs)⟩
  obtain ⟨fields, hfields, hd⟩ := hdraft
  refine ⟨s.draft.returned fields vs, ret_eq_ok.2 ⟨by omega, by omega, fields, hfields, ?_⟩, hd⟩
  rw [htop]

/-- An open construct can be left with its results, and a loop can be gone back to. -/
theorem exitTo_typed {k : Construct} {waiting : List Label} (ha : s.draft.Arranged waiting)
    (hexit : k.exit ∈ waiting)
    (harity : (∀ head, k.kind ≠ .loop head) → k.results.length ≤ s.stack.size - s.base)
    (hret : s.draft.Returning result) :
    ∃ d, s.exitTo k = .ok { s with draft := d } ∧ d.Arranged waiting ∧ d.Returning result := by
  -- Going back to a loop takes nothing along, and any other branch the results.
  by_cases hk : ∃ head, k.kind = .loop head
  · obtain ⟨head, hk⟩ := hk
    exact ⟨_, exitTo_eq_ok.2 (.inl ⟨head, hk, rfl⟩), ha.append _, hret.append ha _ rfl⟩
  · have hk' : ∀ head, k.kind ≠ .loop head := fun head h => hk ⟨head, h⟩
    exact ⟨_, exitTo_eq_ok.2 (.inr ⟨hk', harity hk', rfl⟩), (ha.modifyLines ..).append _,
      hret.jump ha (ha.waiting_mem _ hexit) _⟩

/-- The last arm of the innermost construct can be left with nothing but its results. -/
theorem exitLast_typed {k : Construct} {live : Bool} (ha : s.draft.Arranged s.waiting)
    (mem : k ∈ s.constructs) (hbase : s.base = k.base)
    (hsize : live = true → s.stack.size = k.base + k.results.length)
    (hret : s.draft.Returning result) :
    ∃ d, s.exitLast k live = .ok { s with draft := d } ∧ d.Arranged s.waiting ∧
      d.Returning result := by
  unfold State.exitLast
  cases live with
  | false => exact ⟨s.draft, rfl, ha, hret⟩
  | true =>
    have hsize := hsize rfl
    obtain ⟨d, hexit, hd, hret'⟩ := exitTo_typed ha (State.exit_mem_waiting mem)
      (fun _ => by omega) hret
    refine ⟨d, ?_, hd, hret'⟩
    rw [if_pos rfl]
    -- With or without a check of the height, the arm is left in the same way.
    split
    · exact hexit
    · exact exitArm_eq_ok.2 ⟨hsize, hexit⟩

/-- What the results of a construct are after its end does not change their types. -/
theorem map_type_resultsAfter (s : State) (k : Construct) :
    (s.resultsAfter k).map Operand.type = k.results.map Operand.type := by
  -- The zero of a type is of this type.
  have hzero : ∀ type : ScalarType, type.zero.type = type := by
    intro type
    cases type <;> rfl
  apply List.ext_getElem?
  intro i
  simp only [State.resultsAfter, List.getElem?_map, List.getElem?_mapIdx, Option.map_map]
  cases k.results[i]? with
  | none => rfl
  | some phi =>
    simp only [Option.map_some, Function.comp]
    split
    · split
      · rw [hzero]
      · rfl
    · rfl

end Leave

end Lowering

end WasmLowering
