import WasmLowering.Proofs.Run
import WasmLowering.Proofs.Validation

/-!
# Nesting of constructs

The open constructs of a state are those that the operators before it have opened and not closed,
less the ones that were opened in dead code. Each has a phi of the native type for every result that
its operator declares.

## Key results

- `lower_plain`: operators that are not about control open and close nothing
- `step_nests`, `Boundary.nests`: the open constructs are those of the operators
-/

namespace WasmLowering

open Ssa

/-! ## Operators -/

/-- The declared results of the open constructs, innermost first, after one more operator. -/
def Operator.nest (declared : List (List ValueType)) : Operator → List (List ValueType)
  | .block type | .ifBlock type => type.results :: declared
  | .loop results => results :: declared
  | .endBlock => declared.tail
  | _ => declared

/-- Operators without control open and close nothing. -/
theorem Operator.nest_plain {op : Operator} (hop : op.isControl = false)
    (declared : List (List ValueType)) : op.nest declared = declared := by
  cases op with
  | block | loop | ifBlock | endBlock => cases hop
  | _ => rfl

/-- The declared results of the constructs that a list of operators leaves open, innermost first. -/
def openResults (ops : List Operator) : List (List ValueType) :=
  ops.foldl Operator.nest []

namespace Lowering

/-! ## Operators without control -/

section Plain

variable {s t : State} {op : Operator}

/-- An operator that is not about control leaves the open constructs, the phase and the slots of the
    locals as they are. -/
theorem lower_plain (hop : op.isControl = false) (h : s.lower op = .ok t) :
    t.constructs = s.constructs ∧ t.phase = s.phase ∧ t.locals = s.locals := by
  -- Computations only append lines; the other operators are looked at one by one.
  by_cases hc : op.isComputation = true
  · obtain ⟨xs, args, cs, -, -, -, rfl⟩ := (lower_eq_ok_iff hc).1 h
    rw [State.constructs_emittedAll, State.phase_emittedAll, State.locals_emittedAll]
    exact ⟨rfl, rfl, rfl⟩
  · cases op with
    | nop | i32Const | i64Const | f32Const | f64Const =>
      obtain rfl := Except.ok.inj h
      exact ⟨rfl, rfl, rfl⟩
    | drop =>
      obtain ⟨⟨v, u⟩, hp, h⟩ := bind_eq_ok.1 h
      obtain ⟨xs, -, -, rfl⟩ := State.pop_eq_ok.1 hp
      obtain rfl := Except.ok.inj h
      exact ⟨rfl, rfl, rfl⟩
    | localGet index =>
      replace h : s.localGet index = .ok t := h
      unfold State.localGet at h
      split at h
      · cases h
      · obtain rfl := Except.ok.inj h
        exact ⟨rfl, rfl, rfl⟩
    | localSet index =>
      replace h : s.localSet index = .ok t := h
      unfold State.localSet at h
      split at h
      · cases h
      · obtain ⟨⟨v, u⟩, hp, h⟩ := bind_eq_ok.1 h
        obtain ⟨xs, -, -, rfl⟩ := State.pop_eq_ok.1 hp
        obtain rfl := Except.ok.inj h
        exact ⟨rfl, rfl, rfl⟩
    | localTee index =>
      replace h : s.localTee index = .ok t := h
      unfold State.localTee at h
      split at h
      · cases h
      · obtain ⟨v, -, h⟩ := bind_eq_ok.1 h
        obtain rfl := Except.ok.inj h
        exact ⟨rfl, rfl, rfl⟩
    | convert c =>
      obtain ⟨⟨a, u⟩, hp, h⟩ := bind_eq_ok.1 h
      obtain ⟨xs, -, -, rfl⟩ := State.pop_eq_ok.1 hp
      obtain ⟨target, -, h⟩ := bind_eq_ok.1 h
      cases c with
      | trunc source width signed =>
        obtain rfl := Except.ok.inj h
        rw [truncChecked_fields]
        exact ⟨rfl, rfl, rfl⟩
      | _ => exact absurd rfl hc
    | unreachable | block | loop | ifBlock | elseBlock | endBlock | br | ret => cases hop
    | _ => exact absurd rfl hc

end Plain

/-! ## Open constructs -/

/-- A construct has a result of the native type for each declared result. -/
def Declares (c : Construct) (declared : List ValueType) : Prop :=
  declared.mapM (ValueType.scalar hostPointerBits) = .ok (c.results.map Operand.type)

/-- The open constructs are those with the given declared results, innermost first, less the ones
    opened in dead code. -/
def State.Nests (s : State) (declared : List (List ValueType)) : Prop :=
  match s.phase with
  | .live => List.Forall₂ Declares s.constructs declared
  | .dead depth => List.Forall₂ Declares s.constructs (declared.drop depth)
  | .finished => True

section Nests

variable {s t : State} {declared : List (List ValueType)}

/-- Where the code is live, every open construct of the source is one of the state. -/
theorem State.Nests.live (h : s.Nests declared) (live : s.phase = .live) :
    List.Forall₂ Declares s.constructs declared := by
  unfold State.Nests at h
  rwa [live] at h

/-- In dead code, the innermost constructs of the source are not in the state. -/
theorem State.Nests.dead (h : s.Nests declared) {depth : Nat} (dead : s.phase = .dead depth) :
    List.Forall₂ Declares s.constructs (declared.drop depth) := by
  unfold State.Nests at h
  rwa [dead] at h

/-- A live state nests as its open constructs do. -/
theorem State.nests_of_live (live : s.phase = .live)
    (h : List.Forall₂ Declares s.constructs declared) : s.Nests declared := by
  unfold State.Nests
  rwa [live]

/-- A dead state nests as its open constructs do, below the skipped ones. -/
theorem State.nests_of_dead {depth : Nat} (dead : s.phase = .dead depth)
    (h : List.Forall₂ Declares s.constructs (declared.drop depth)) : s.Nests declared := by
  unfold State.Nests
  rwa [dead]

/-- The second arm of a conditional declares what the first one does. -/
private theorem elseBlock_nests {live : Bool} (hs : List.Forall₂ Declares s.constructs declared)
    (h : s.elseBlock live = .ok t) : t.Nests declared := by
  obtain ⟨c, rest, other, params, u, htop, hk, hu, hb, rfl⟩ := elseBlock_eq_ok.1 h
  refine State.nests_of_live rfl ?_
  rw [htop] at hs
  -- The arms of a conditional share its results.
  cases hs with
  | cons hc hrest => exact .cons hc hrest

/-- The end of a construct closes the innermost one. -/
private theorem endBlock_nests {live : Bool} (hs : List.Forall₂ Declares s.constructs declared)
    (h : s.endBlock live = .ok t) : t.Nests declared.tail := by
  cases htop : s.constructs with
  | nil =>
    unfold State.endBlock at h
    rw [htop] at h
    obtain ⟨u, -, rfl⟩ := finishFunction_eq_ok.1 h
    exact trivial
  | cons c rest =>
    -- The construct is left after a missing arm is added, if it is a conditional with one arm.
    have hleave : ∃ u : State, u.leave c rest = .ok t := by
      obtain ⟨u, -, ⟨-, h⟩ | ⟨_, _, v, w, -, -, -, h⟩⟩ := (endBlock_eq_ok htop).1 h
      · exact ⟨u, h⟩
      · exact ⟨w, h⟩
    obtain ⟨u, hu⟩ := hleave
    obtain ⟨-, rfl⟩ := leave_eq_ok.1 hu
    refine State.nests_of_live rfl ?_
    rw [htop] at hs
    cases hs with
    | cons _ hrest => exact hrest

private theorem opened_nests {results : List ValueType} {types : List ScalarType}
    (live : s.phase = .live) (hs : List.Forall₂ Declares s.constructs declared)
    (htypes : results.mapM (ValueType.scalar hostPointerBits) = .ok types) (kind : ConstructKind)
    (role : BlockRole) (base : Nat) :
    (s.opened kind role types base).Nests (results :: declared) := by
  refine State.nests_of_live live (.cons ?_ hs)
  show _ = Except.ok ((phiValues _ types).map Operand.type)
  rw [map_type_phiValues, htypes]

/-- One operator changes the nesting of the state as it changes the nesting of the source. -/
theorem step_nests {op : Operator} (hs : s.Nests declared) (h : s.step op = .ok t) :
    t.Nests (op.nest declared) := by
  unfold State.step at h
  split at h
  · next live =>
    have hs := hs.live live
    by_cases hop : op.isControl = false
    · obtain ⟨hc, hp, -⟩ := lower_plain hop h
      rw [Operator.nest_plain hop]
      exact State.nests_of_live (hp.trans live) (hc ▸ hs)
    · -- Operators that leave a construct keep it open for what follows in dead code.
      have hdead : ∀ u : State, u.constructs = s.constructs → u.enterDead = .ok t →
          t.Nests declared := by
        intro u hu h
        obtain ⟨-, rfl⟩ := enterDead_eq_ok.1 h
        exact State.nests_of_dead rfl (hu ▸ hs)
      have hret : s.ret = .ok t → t.Nests declared := by
        intro h
        obtain ⟨-, -, fields, -, rfl⟩ := ret_eq_ok.1 h
        exact State.nests_of_dead rfl hs
      cases op with
      | unreachable => exact hdead (s.append .unreachable) rfl h
      | block type =>
        obtain ⟨-, types, htypes, rfl⟩ := enter_eq_ok.1 h
        exact opened_nests live hs htypes ..
      | loop results =>
        obtain ⟨-, types, htypes, rfl⟩ := enter_eq_ok.1 h
        exact @opened_nests (s.begun .loopBegin) declared _ _ live hs htypes _ _ _
      | ifBlock type =>
        obtain ⟨xs, v, types, -, -, -, htypes, rfl⟩ := ifBlock_eq_ok.1 h
        refine State.nests_of_live live (.cons ?_ hs)
        show _ = Except.ok ((phiValues _ types).map Operand.type)
        rw [map_type_phiValues, htypes]
      | elseBlock => exact elseBlock_nests hs h
      | endBlock => exact endBlock_nests hs h
      | br depth =>
        replace h : s.br depth.toNat = .ok t := h
        unfold State.br at h
        split at h
        · exact hret h
        · split at h
          · cases h
          · obtain ⟨u, hu, h⟩ := bind_eq_ok.1 h
            refine hdead u ?_ h
            obtain ⟨head, -, rfl⟩ | ⟨-, -, rfl⟩ := exitTo_eq_ok.1 hu
            · rfl
            · rfl
      | ret => exact hret h
      | _ => exact absurd rfl hop
  · next depth dead =>
    have hs := hs.dead dead
    unfold State.skip at h
    split at h
    -- A construct that is opened in dead code is one more to skip, and it is not in the state.
    · obtain rfl := Except.ok.inj h
      exact State.nests_of_dead rfl hs
    · obtain rfl := Except.ok.inj h
      exact State.nests_of_dead rfl hs
    · obtain rfl := Except.ok.inj h
      exact State.nests_of_dead rfl hs
    · split at h
      · next h0 =>
        subst h0
        exact elseBlock_nests hs h
      · obtain rfl := Except.ok.inj h
        exact State.nests_of_dead dead hs
    · split at h
      · next h0 =>
        subst h0
        exact endBlock_nests hs h
      -- The `end` closes a skipped construct, so there is one less to skip.
      · next h0 =>
        obtain rfl := Except.ok.inj h
        refine State.nests_of_dead rfl ?_
        have hdrop : declared.tail.drop (depth - 1) = declared.drop depth := by
          rw [List.drop_tail, Nat.sub_add_cancel (Nat.pos_of_ne_zero h0)]
        rw [Operator.nest, hdrop]
        exact hs
    · next hblock hloop hif helse hend =>
      obtain rfl := Except.ok.inj h
      have hnest : op.nest declared = declared := by
        cases op with
        | block type => exact absurd rfl (hblock type)
        | loop results => exact absurd rfl (hloop results)
        | ifBlock type => exact absurd rfl (hif type)
        | endBlock => exact absurd rfl hend
        | _ => rfl
      rw [hnest]
      exact State.nests_of_dead dead hs
  · next finished =>
    obtain rfl := Except.ok.inj h
    unfold State.Nests
    rw [finished]
    exact trivial

/-- Operators change the nesting of the state as they change the nesting of the source. -/
private theorem steps_nests {ops : List Operator} (hs : s.Nests declared)
    (h : s.steps ops = .ok t) :
    t.Nests (ops.foldl Operator.nest declared) := by
  induction ops generalizing s declared with
  | nil =>
    obtain rfl := Except.ok.inj h
    exact hs
  | cons op ops ih =>
    obtain ⟨u, hu, h⟩ := steps_cons.1 h
    exact ih (step_nests hs hu) h

/-- At every boundary, the open constructs are those of the operators before it. -/
theorem Boundary.nests {types : Array FuncType} {type : FuncType} {intrinsics : IntrinsicTable}
    {input : Bytes} {done : List Operator} (h : Boundary types type intrinsics input done s) :
    s.Nests (openResults done) := by
  obtain ⟨body, start, -, hstart, -, hs⟩ := h
  obtain ⟨-, live, -, hc, -, -⟩ := start_moves hstart
  refine steps_nests (State.nests_of_live live ?_) hs
  rw [hc]
  exact .nil

end Nests

end Lowering

end WasmLowering
