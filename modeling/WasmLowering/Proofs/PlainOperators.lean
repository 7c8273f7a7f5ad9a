import WasmLowering.Proofs.DraftCode
import WasmLowering.Proofs.Outcome
import WasmLowering.Lowering.Body

/-!
# Operators on the operand stack

Most operators take a few operands from the stack, append a few computations and push the value of
the last one. `Operator.computations` lists these computations, and `lower_eq_ok_iff` says that this
list is all that such an operator does. What else is proved of such operators is proved of the list.
-/

namespace WasmLowering

open Ssa

/-! ## Computations -/

/-- The intrinsic for an operation on one float; `neg` has an instruction. -/
def FloatUnary.computation (a : Operand) : FloatUnary → Rhs
  | .abs => .call ⟨.fabs, [a.type]⟩ [a]
  | .neg => .fneg a
  | .ceil => .call ⟨.ceil, [a.type]⟩ [a]
  | .floor => .call ⟨.floor, [a.type]⟩ [a]
  | .trunc => .call ⟨.trunc, [a.type]⟩ [a]
  | .nearest => .call ⟨.roundeven, [a.type]⟩ [a]
  | .sqrt => .call ⟨.sqrt, [a.type]⟩ [a]

/-- The instruction or intrinsic for an operation on two floats. -/
def FloatBinary.computation (a b : Operand) : FloatBinary → Rhs
  | .add => .binary .fadd a b
  | .sub => .binary .fsub a b
  | .mul => .binary .fmul a b
  | .div => .binary .fdiv a b
  | .min => .call ⟨.minimum, [a.type]⟩ [a, b]
  | .max => .call ⟨.maximum, [a.type]⟩ [a, b]
  | .copysign => .call ⟨.copysign, [a.type]⟩ [a, b]

/-- The native type of an integer width. -/
def IntWidth.scalar (w : IntWidth) : ScalarType :=
  .int w.bits

/-- The native type of a float width. -/
def FloatWidth.scalar : FloatWidth → ScalarType
  | .w32 => .float
  | .w64 => .double

/-- The instruction for a conversion, unless it has to check its operand. -/
def Conversion.computation (a : Operand) : Conversion → Option Rhs
  | .wrap => some (.cast .trunc a (.int 32))
  | .extend signed => some (.cast (if signed then .sext else .zext) a (.int 64))
  | .trunc _ _ _ => none
  | .convert _ target signed => some (.cast (if signed then .sitofp else .uitofp) a target.scalar)
  | .demote => some (.cast .fptrunc a .float)
  | .promote => some (.cast .fpext a .double)
  | .reinterpretAsInt width => some (.cast .bitcast a width.scalar)
  | .reinterpretAsFloat width => some (.cast .bitcast a width.scalar)

/-- What an operator computes from its operands, of which the last one is on top of the stack. The
    values are numbered from `next` on, and the last one is the result. -/
def Operator.computations (next : ValueId) : Operator → List Operand → Option (List Rhs)
  | .select, [a, b, v] | .selectTyped _, [a, b, v] =>
    some [.icmp .ne v v.type.zero, .select (.result next (.int 1)) a b]
  | .eqz _, [a] => some [.icmp .eq a a.type.zero, .cast .zext (.result next (.int 1)) (.int 32)]
  | .intCompare _ op, [a, b] =>
    some [.icmp op.predicate a b, .cast .zext (.result next (.int 1)) (.int 32)]
  | .floatCompare _ op, [a, b] =>
    some [.fcmp op.predicate a b, .cast .zext (.result next (.int 1)) (.int 32)]
  | .bitCount _ .popcnt, [a] => some [.call ⟨.ctpop, [a.type]⟩ [a]]
  | .bitCount _ op, [a] => some [.call ⟨op.intrinsic, [a.type]⟩ [a, .int 1 0]]
  | .intBinary _ op, [a, b] => some [.binary op.native a b]
  | .shift _ op, [a, b] =>
    some [.binary .and b (b.type.constant (a.type.bits - 1)),
      .binary op.native a (.result next b.type)]
  | .rotate _ op, [a, b] => some [.call ⟨op.intrinsic, [a.type]⟩ [a, a, b]]
  | .floatUnary _ op, [a] => some [op.computation a]
  | .floatBinary _ op, [a, b] => some [op.computation a b]
  | .convert c, [a] => (c.computation a).map ([·])
  | .signExtend _ bits, [a] =>
    some [.cast .trunc a (.int bits), .cast .sext (.result next (.int bits)) a.type]
  | .truncSat _ target signed, [a] =>
    some [.call ⟨if signed then .fptosiSat else .fptouiSat, [target.scalar, a.type]⟩ [a]]
  | _, _ => none

/-- Whether an operator consists of computations. -/
def Operator.isComputation : Operator → Bool
  | .select | .selectTyped _ | .eqz _ | .intCompare .. | .floatCompare .. | .bitCount ..
  | .intBinary .. | .shift .. | .rotate .. | .floatUnary .. | .floatBinary .. | .signExtend ..
  | .truncSat .. => true
  | .convert (.trunc ..) => false
  | .convert _ => true
  | _ => false

/-- Each computation of a list uses what is known before it: the given operands, the values of
    earlier computations, and constants. -/
def Chained (known : List Operand) (next : ValueId) : List Rhs → Prop
  | [] => True
  | rhs :: rest =>
    (∀ v ∈ rhs.operands, v ∈ known ∨ v.ids = []) ∧ rhs.slots = [] ∧
      Chained (known ++ [.result next rhs.type]) (next + 1) rest

/-- The computations of an operator use its operands. -/
theorem chained_computations {op : Operator} {next : ValueId} {args : List Operand}
    {computations : List Rhs} (h : op.computations next args = some computations) :
    Chained args next computations := by
  unfold Operator.computations at h
  -- Most operators have a fixed list of computations. In the families of operations and conversions
  -- it depends on the member.
  split at h <;>
    try (obtain rfl := Option.some.inj h; simp [Chained, Rhs.operands, Rhs.slots, Rhs.type]; done)
  · next op a =>
    obtain rfl := Option.some.inj h
    cases op <;> simp [Chained, FloatUnary.computation, Rhs.operands, Rhs.slots]
  · next op a b =>
    obtain rfl := Option.some.inj h
    cases op <;> simp [Chained, FloatBinary.computation, Rhs.operands, Rhs.slots]
  · next c a =>
    obtain ⟨rhs, hc, rfl⟩ := Option.map_eq_some_iff.1 h
    cases c <;> simp only [Conversion.computation, Option.some.injEq, reduceCtorEq] at hc <;>
      subst hc <;> simp [Chained, Rhs.operands, Rhs.slots]
  · cases h

/-- There is at least one computation. -/
theorem computations_ne_nil {op : Operator} {next : ValueId} {args : List Operand}
    {computations : List Rhs} (h : op.computations next args = some computations) :
    computations ≠ [] := by
  rintro rfl
  unfold Operator.computations at h
  split at h <;> simp at h

theorem IntWidth.scalar_type (w : IntWidth) :
    w.type.scalar hostPointerBits = .ok w.scalar := by
  cases w <;> rfl

theorem FloatWidth.scalar_type (w : FloatWidth) :
    w.type.scalar hostPointerBits = .ok w.scalar := by
  cases w <;> rfl

namespace Lowering.State

/-! ## The operand stack -/

/-- The state with another operand stack. -/
def restacked (s : State) (xs : Array Operand) : State :=
  { s with stack := xs }

/-- The operand on top can be looked at if it is above the innermost construct. -/
theorem peek_eq_ok {s : State} {v : Operand} :
    s.peek = .ok v ↔ ∃ xs : Array Operand, s.stack = xs.push v ∧ s.base ≤ xs.size := by
  unfold peek
  split
  · next h =>
    -- The stack is higher than the base, so it is not empty.
    obtain ⟨ys, w, hs⟩ := @Array.eq_push_of_size_ne_zero _ s.stack (by omega)
    simp only [hs, Array.back, Array.size_push, Nat.add_sub_cancel, Array.getElem_push_eq,
      Except.ok.injEq]
    constructor
    · rintro rfl
      refine ⟨ys, rfl, ?_⟩
      rw [hs, Array.size_push] at h
      omega
    · rintro ⟨xs, hxs, -⟩
      exact (Array.push_eq_push.1 hxs).1
  · next h =>
    constructor
    · intro hv
      cases hv
    · rintro ⟨xs, hs, hb⟩
      rw [hs, Array.size_push] at h
      omega

/-- The operand on top can be popped if it is above the innermost construct. -/
theorem pop_eq_ok {s t : State} {v : Operand} :
    s.pop = .ok (v, t) ↔
      ∃ xs : Array Operand, s.stack = xs.push v ∧ s.base ≤ xs.size ∧ t = s.restacked xs := by
  unfold pop
  rw [bind_eq_ok]
  constructor
  · rintro ⟨w, hw, h⟩
    obtain ⟨xs, hs, hb⟩ := peek_eq_ok.1 hw
    obtain ⟨rfl, rfl⟩ := Prod.mk.inj (Except.ok.inj h)
    exact ⟨xs, hs, hb, by simp [hs, restacked]⟩
  · rintro ⟨xs, hs, hb, rfl⟩
    exact ⟨v, peek_eq_ok.2 ⟨xs, hs, hb⟩, by simp [hs, restacked, pure, Except.pure]⟩

/-- The stack can be cut to any height up to its own. -/
theorem truncate_eq_ok {s t : State} {n : Nat} :
    s.truncate n = .ok t ↔ n ≤ s.stack.size ∧ t = s.restacked (s.stack.take n) := by
  unfold truncate
  split
  · next h => simp [h, restacked, eq_comm]
  · next h => simp [h]

/-- The state after one operand has been popped and passed on. -/
private theorem pop_bind_eq_ok {s t : State} {f : Operand → State → Except Fault State} :
    (do let (a, u) ← s.pop; f a u) = .ok t ↔
      ∃ (xs : Array Operand) (a : Operand), s.stack.toList = xs.toList ++ [a] ∧
        s.base ≤ xs.size ∧ f a (s.restacked xs) = .ok t := by
  rw [bind_eq_ok]
  constructor
  · rintro ⟨⟨a, u⟩, hp, h⟩
    obtain ⟨xs, hs, hb, rfl⟩ := pop_eq_ok.1 hp
    exact ⟨xs, a, by rw [hs, Array.toList_push], hb, h⟩
  · rintro ⟨xs, a, hs, hb, h⟩
    have hs' : s.stack = xs.push a := by rw [← Array.toList_inj, hs, Array.toList_push]
    exact ⟨(a, s.restacked xs), pop_eq_ok.2 ⟨xs, hs', hb, rfl⟩, h⟩

/-- The state after two operands have been popped and passed on. -/
private theorem pop_pop_bind_eq_ok {s t : State}
    {f : Operand → Operand → State → Except Fault State} :
    (do let (b, u) ← s.pop; let (a, u) ← u.pop; f a b u) = .ok t ↔
      ∃ (xs : Array Operand) (a b : Operand), s.stack.toList = xs.toList ++ [a, b] ∧
        s.base ≤ xs.size ∧ f a b (s.restacked xs) = .ok t := by
  -- The second operand lies below the first, and above the innermost construct as well.
  refine (@pop_bind_eq_ok s t fun b u => do let (a, u) ← u.pop; f a b u).trans ?_
  constructor
  · rintro ⟨ys, b, hs, -, h⟩
    obtain ⟨xs, a, hy, hb, h⟩ := (@pop_bind_eq_ok _ _ fun a u => f a b u).1 h
    replace hy : ys.toList = xs.toList ++ [a] := hy
    exact ⟨xs, a, b, by rw [hs, hy, List.append_assoc]; rfl, hb, h⟩
  · rintro ⟨xs, a, b, hs, hb, h⟩
    refine ⟨xs.push a, b, by rw [hs, Array.toList_push, List.append_assoc]; rfl, ?_, ?_⟩
    · rw [Array.size_push]
      exact Nat.le_succ_of_le hb
    · exact (@pop_bind_eq_ok _ _ fun a u => f a b u).2 ⟨xs, a, Array.toList_push, hb, h⟩

/-! ## Computations -/

/-- The state after a computation, whose value is not pushed. -/
def computed (s : State) (rhs : Rhs) : State :=
  { s with draft := s.draft.skipValue.append (.assign s.draft.nextValue rhs) }

theorem compute_eq (s : State) (rhs : Rhs) :
    s.compute rhs = (.result s.draft.nextValue rhs.type, s.computed rhs) := rfl

theorem computePush_eq (s : State) (rhs : Rhs) :
    s.computePush rhs = (s.computed rhs).push (.result s.draft.nextValue rhs.type) := rfl

/-- The state after a computation for which an intrinsic is declared if need be. -/
def emitted (s : State) : Rhs → State
  | .call intrinsic args => (s.declare intrinsic).computed (.call intrinsic args)
  | rhs => s.computed rhs

/-- The state after a list of computations, of which the last value is pushed. -/
def emittedAll (s : State) : List Rhs → State
  | [] => s
  | [rhs] => (s.emitted rhs).push (.result s.draft.nextValue rhs.type)
  | rhs :: rest => (s.emitted rhs).emittedAll rest

/-- A computation changes the draft and, if it is a call, the intrinsics. -/
theorem emitted_eq (s : State) (rhs : Rhs) :
    s.emitted rhs = { s with
      draft := s.draft.assigned [rhs]
      intrinsics := (s.emitted rhs).intrinsics } := by
  cases rhs <;> rfl

/-- A list of computations changes the draft, the intrinsics and the top of the stack. -/
theorem emittedAll_concat (s : State) (cs : List Rhs) (rhs : Rhs) :
    s.emittedAll (cs ++ [rhs]) = { s with
      draft := s.draft.assigned (cs ++ [rhs])
      stack := s.stack.push (.result (s.draft.nextValue + cs.length) rhs.type)
      intrinsics := (s.emittedAll (cs ++ [rhs])).intrinsics } := by
  induction cs generalizing s with
  | nil => cases rhs <;> rfl
  | cons first cs ih =>
    -- The value of each computation but the last is not pushed.
    have hcons :
        s.emittedAll (first :: (cs ++ [rhs])) = (s.emitted first).emittedAll (cs ++ [rhs]) := by
      cases cs <;> rfl
    have hnext : (s.emitted first).draft.nextValue + cs.length =
        s.draft.nextValue + (first :: cs).length := by
      rw [emitted_eq, Draft.nextValue_assigned]
      exact Nat.add_right_comm ..
    rw [List.cons_append, hcons, ih, hnext, emitted_eq]
    rfl

@[simp] theorem constructs_emittedAll (s : State) (cs : List Rhs) :
    (s.emittedAll cs).constructs = s.constructs := by
  obtain rfl | ⟨init, rhs, rfl⟩ := List.eq_nil_or_concat cs
  · rfl
  · rw [List.concat_eq_append, emittedAll_concat]

@[simp] theorem phase_emittedAll (s : State) (cs : List Rhs) :
    (s.emittedAll cs).phase = s.phase := by
  obtain rfl | ⟨init, rhs, rfl⟩ := List.eq_nil_or_concat cs
  · rfl
  · rw [List.concat_eq_append, emittedAll_concat]

@[simp] theorem locals_emittedAll (s : State) (cs : List Rhs) :
    (s.emittedAll cs).locals = s.locals := by
  obtain rfl | ⟨init, rhs, rfl⟩ := List.eq_nil_or_concat cs
  · rfl
  · rw [List.concat_eq_append, emittedAll_concat]

end Lowering.State

namespace Lowering

open State

/-! ## Operators -/

section

variable {s t : State}

/-- What a state is after the computations of an operator on its operands. -/
private def Computes (s : State) (op : Operator) (t : State) : Prop :=
  ∃ (xs : Array Operand) (args : List Operand) (cs : List Rhs),
    s.stack.toList = xs.toList ++ args ∧ s.base ≤ xs.size ∧
    op.computations s.draft.nextValue args = some cs ∧ t = (s.restacked xs).emittedAll cs

/-- An operator on one operand consists of its computations. -/
private theorem unary_eq_ok (op : Operator) (f : Operand → State → Except Fault State)
    (g : Operand → List Rhs)
    (hg : ∀ args, op.computations s.draft.nextValue args =
      match args with
      | [a] => some (g a)
      | _ => none)
    (hf : ∀ xs a, f a (s.restacked xs) = .ok ((s.restacked xs).emittedAll (g a))) :
    (do let (a, u) ← s.pop; f a u) = .ok t ↔ Computes s op t := by
  rw [pop_bind_eq_ok]
  constructor
  · rintro ⟨xs, a, hs, hb, h⟩
    rw [hf] at h
    exact ⟨xs, [a], g a, hs, hb, by rw [hg], (Except.ok.inj h).symm⟩
  · rintro ⟨xs, args, cs, hs, hb, hc, rfl⟩
    rw [hg] at hc
    -- For another number of operands there are no computations.
    split at hc
    · next a =>
      obtain rfl := Option.some.inj hc
      exact ⟨xs, a, hs, hb, hf xs a⟩
    · cases hc

/-- An operator on two operands consists of its computations. -/
private theorem binary_eq_ok (op : Operator) (f : Operand → Operand → State → Except Fault State)
    (g : Operand → Operand → List Rhs)
    (hg : ∀ args, op.computations s.draft.nextValue args =
      match args with
      | [a, b] => some (g a b)
      | _ => none)
    (hf : ∀ xs a b, f a b (s.restacked xs) = .ok ((s.restacked xs).emittedAll (g a b))) :
    (do let (b, u) ← s.pop; let (a, u) ← u.pop; f a b u) = .ok t ↔ Computes s op t := by
  rw [pop_pop_bind_eq_ok]
  constructor
  · rintro ⟨xs, a, b, hs, hb, h⟩
    rw [hf] at h
    exact ⟨xs, [a, b], g a b, hs, hb, by rw [hg], (Except.ok.inj h).symm⟩
  · rintro ⟨xs, args, cs, hs, hb, hc, rfl⟩
    rw [hg] at hc
    -- For another number of operands there are no computations.
    split at hc
    · next a b =>
      obtain rfl := Option.some.inj hc
      exact ⟨xs, a, b, hs, hb, hf xs a b⟩
    · cases hc

private theorem unaryIntrinsic_eq_ok (op : Operator) (kind : IntrinsicKind)
    (hg : ∀ args, op.computations s.draft.nextValue args =
      match args with
      | [a] => some [.call ⟨kind, [a.type]⟩ [a]]
      | _ => none) :
    s.unaryIntrinsic kind = .ok t ↔ Computes s op t :=
  unary_eq_ok op (fun a u => .ok (u.callPush ⟨kind, [a.type]⟩ [a]))
    (fun a => [.call ⟨kind, [a.type]⟩ [a]]) hg fun _ _ => rfl

private theorem binaryIntrinsic_eq_ok (op : Operator) (kind : IntrinsicKind)
    (hg : ∀ args, op.computations s.draft.nextValue args =
      match args with
      | [a, b] => some [.call ⟨kind, [a.type]⟩ [a, b]]
      | _ => none) :
    s.binaryIntrinsic kind = .ok t ↔ Computes s op t :=
  binary_eq_ok op (fun a b u => .ok (u.callPush ⟨kind, [a.type]⟩ [a, b]))
    (fun a b => [.call ⟨kind, [a.type]⟩ [a, b]]) hg fun _ _ _ => rfl

private theorem binaryOp_eq_ok (op : Operator) (native : BinaryOp)
    (hg : ∀ args, op.computations s.draft.nextValue args =
      match args with
      | [a, b] => some [.binary native a b]
      | _ => none) :
    s.binary native = .ok t ↔ Computes s op t :=
  binary_eq_ok op (fun a b u => .ok (u.computePush (.binary native a b)))
    (fun a b => [.binary native a b]) hg fun _ _ _ => rfl

/-- An operation on one float is one computation. -/
private theorem floatUnary_eq_ok (w : FloatWidth) (op : FloatUnary) :
    s.floatUnary op = .ok t ↔ Computes s (.floatUnary w op) t := by
  have hg : ∀ args, (Operator.floatUnary w op).computations s.draft.nextValue args =
      match args with
      | [a] => some [op.computation a]
      | _ => none := by
    intro args
    rcases args with _ | ⟨a, _ | ⟨b, args⟩⟩ <;> rfl
  -- The negation is an instruction, and the others are calls.
  cases op with
  | neg =>
    exact unary_eq_ok (.floatUnary w .neg) (fun a u => .ok (u.computePush (.fneg a)))
      (fun a => [.fneg a]) hg fun _ _ => rfl
  | _ => exact unaryIntrinsic_eq_ok _ _ hg

/-- An operation on two floats is one computation. -/
private theorem floatBinary_eq_ok (w : FloatWidth) (op : FloatBinary) :
    s.floatBinary op = .ok t ↔ Computes s (.floatBinary w op) t := by
  have hg : ∀ args, (Operator.floatBinary w op).computations s.draft.nextValue args =
      match args with
      | [a, b] => some [op.computation a b]
      | _ => none := by
    intro args
    rcases args with _ | ⟨a, _ | ⟨b, _ | ⟨c, args⟩⟩⟩ <;> rfl
  cases op with
  -- Four of the operations are instructions, and the others are intrinsics.
  | add | sub | mul | div => exact binaryOp_eq_ok _ _ hg
  | min | max | copysign => exact binaryIntrinsic_eq_ok _ _ hg

/-- A conversion without a check is one computation. -/
private theorem convert_eq_ok (c : Conversion) (hc : (Operator.convert c).isComputation = true) :
    s.convert c = .ok t ↔ Computes s (.convert c) t := by
  -- A conversion takes one operand, and there is none of any other number of them.
  have hg : ∀ rhs : Operand → Rhs, (∀ a, c.computation a = some (rhs a)) →
      ∀ args, (Operator.convert c).computations s.draft.nextValue args =
        match args with
        | [a] => some [rhs a]
        | _ => none := by
    intro rhs h args
    rcases args with _ | ⟨a, _ | ⟨b, args⟩⟩
    · rfl
    · simp [Operator.computations, h]
    · rfl
  cases c with
  | trunc => cases hc
  | wrap =>
    exact unary_eq_ok _ (fun a u => .ok (u.computePush (.cast .trunc a (.int 32)))) _
      (hg (fun a => .cast .trunc a (.int 32)) fun _ => rfl) fun _ _ => rfl
  | extend signed =>
    exact unary_eq_ok _
      (fun a u => .ok (u.computePush (.cast (if signed then .sext else .zext) a (.int 64)))) _
      (hg (fun a => .cast (if signed then .sext else .zext) a (.int 64)) fun _ => rfl)
      fun _ _ => rfl
  -- The conversions to a type of their own look its native type up, which exists.
  | convert source target signed =>
    refine unary_eq_ok _ (fun a u => do
        let type ← target.type.scalar hostPointerBits
        return u.computePush (.cast (if signed then .sitofp else .uitofp) a type)) _
      (hg (fun a => .cast (if signed then .sitofp else .uitofp) a target.scalar) fun _ => rfl) ?_
    intro xs a
    rw [FloatWidth.scalar_type]
    rfl
  | demote =>
    exact unary_eq_ok _ (fun a u => .ok (u.computePush (.cast .fptrunc a .float))) _
      (hg (fun a => .cast .fptrunc a .float) fun _ => rfl) fun _ _ => rfl
  | promote =>
    exact unary_eq_ok _ (fun a u => .ok (u.computePush (.cast .fpext a .double))) _
      (hg (fun a => .cast .fpext a .double) fun _ => rfl) fun _ _ => rfl
  | reinterpretAsInt w =>
    refine unary_eq_ok _ (fun a u => do
        let type ← w.type.scalar hostPointerBits
        return u.computePush (.cast .bitcast a type)) _
      (hg (fun a => .cast .bitcast a w.scalar) fun _ => rfl) ?_
    intro xs a
    rw [IntWidth.scalar_type]
    rfl
  | reinterpretAsFloat w =>
    refine unary_eq_ok _ (fun a u => do
        let type ← w.type.scalar hostPointerBits
        return u.computePush (.cast .bitcast a type)) _
      (hg (fun a => .cast .bitcast a w.scalar) fun _ => rfl) ?_
    intro xs a
    rw [FloatWidth.scalar_type]
    rfl

/-- A selection is two computations: its condition is compared with zero first. -/
private theorem select_eq_ok (op : Operator)
    (hg : ∀ args, op.computations s.draft.nextValue args =
      match args with
      | [a, b, v] =>
        some [.icmp .ne v v.type.zero, .select (.result s.draft.nextValue (.int 1)) a b]
      | _ => none) :
    s.select = .ok t ↔ Computes s op t := by
  -- The condition is compared with zero before the other two operands are popped.
  let f : Operand → State → Except Fault State := fun v u => do
    let (b, w) ← (u.computed (.icmp .ne v v.type.zero)).pop
    let (a, w) ← w.pop
    return w.computePush (.select (.result u.draft.nextValue (.int 1)) a b)
  refine (@pop_bind_eq_ok s t f).trans ?_
  constructor
  -- The comparison is appended before the operands are popped, and does not change the stack.
  · rintro ⟨ys, v, hs, -, h⟩
    obtain ⟨xs, a, b, hy, hb, h⟩ := (@pop_pop_bind_eq_ok _ _ fun a b u =>
      .ok (u.computePush (.select (.result s.draft.nextValue (.int 1)) a b))).1 h
    replace hy : ys.toList = xs.toList ++ [a, b] := hy
    refine ⟨xs, [a, b, v], _, ?_, hb, hg _, (Except.ok.inj h).symm⟩
    rw [hs, hy, List.append_assoc]
    rfl
  · rintro ⟨xs, args, cs, hs, hb, hc, rfl⟩
    rw [hg] at hc
    split at hc
    · next a b v =>
      obtain rfl := Option.some.inj hc
      refine ⟨(xs.push a).push b, v, by simp [hs], ?_, ?_⟩
      · simp only [Array.size_push]
        omega
      · exact (@pop_pop_bind_eq_ok _ _ fun a b u =>
          .ok (u.computePush (.select (.result s.draft.nextValue (.int 1)) a b))).2
          ⟨xs, a, b, by simp [restacked, computed], hb, rfl⟩
    · cases hc

/-- An operator that consists of computations takes its operands from the stack, appends the
    computations and pushes the value of the last one. -/
theorem lower_eq_ok_iff {op : Operator} (hop : op.isComputation = true) :
    s.lower op = .ok t ↔
      ∃ (xs : Array Operand) (args : List Operand) (cs : List Rhs),
        s.stack.toList = xs.toList ++ args ∧ s.base ≤ xs.size ∧
        op.computations s.draft.nextValue args = some cs ∧
        t = (s.restacked xs).emittedAll cs := by
  -- Each operator is a function of its operands, of which it takes a fixed number.
  cases op with
  | select =>
    refine select_eq_ok .select fun args => ?_
    rcases args with _ | ⟨a, _ | ⟨b, _ | ⟨v, _ | ⟨c, args⟩⟩⟩⟩ <;> rfl
  | selectTyped type =>
    refine select_eq_ok (.selectTyped type) fun args => ?_
    rcases args with _ | ⟨a, _ | ⟨b, _ | ⟨v, _ | ⟨c, args⟩⟩⟩⟩ <;> rfl
  | eqz w =>
    refine unary_eq_ok (.eqz w)
      (fun a u => .ok ((u.compareZero .eq a).2.pushBool (u.compareZero .eq a).1))
      (fun a => [.icmp .eq a a.type.zero,
        .cast .zext (.result s.draft.nextValue (.int 1)) (.int 32)]) (fun args => ?_) fun _ _ => rfl
    rcases args with _ | ⟨a, _ | ⟨b, args⟩⟩ <;> rfl
  | intCompare w op =>
    refine binary_eq_ok (.intCompare w op)
      (fun a b u => .ok ((u.computed (.icmp op.predicate a b)).pushBool
        (.result u.draft.nextValue (.int 1))))
      (fun a b => [.icmp op.predicate a b,
        .cast .zext (.result s.draft.nextValue (.int 1)) (.int 32)]) (fun args => ?_)
      fun _ _ _ => rfl
    rcases args with _ | ⟨a, _ | ⟨b, _ | ⟨c, args⟩⟩⟩ <;> rfl
  | floatCompare w op =>
    refine binary_eq_ok (.floatCompare w op)
      (fun a b u => .ok ((u.computed (.fcmp op.predicate a b)).pushBool
        (.result u.draft.nextValue (.int 1))))
      (fun a b => [.fcmp op.predicate a b,
        .cast .zext (.result s.draft.nextValue (.int 1)) (.int 32)]) (fun args => ?_)
      fun _ _ _ => rfl
    rcases args with _ | ⟨a, _ | ⟨b, _ | ⟨c, args⟩⟩⟩ <;> rfl
  -- Counting zeros takes a second argument: what to do about an operand that is zero.
  | bitCount w op =>
    have hg : ∀ args, (Operator.bitCount w op).computations s.draft.nextValue args =
        match args with
        | [a] => some [.call ⟨op.intrinsic, [a.type]⟩ (if op = .popcnt then [a] else [a, .int 1 0])]
        | _ => none := by
      intro args
      rcases args with _ | ⟨a, _ | ⟨b, args⟩⟩ <;> cases op <;> rfl
    cases op with
    | popcnt => exact unaryIntrinsic_eq_ok (.bitCount w .popcnt) .ctpop hg
    | clz =>
      exact unary_eq_ok (.bitCount w .clz)
        (fun a u => .ok (u.callPush ⟨.ctlz, [a.type]⟩ [a, .int 1 0])) _ hg fun _ _ => rfl
    | ctz =>
      exact unary_eq_ok (.bitCount w .ctz)
        (fun a u => .ok (u.callPush ⟨.cttz, [a.type]⟩ [a, .int 1 0])) _ hg fun _ _ => rfl
  | intBinary w op =>
    refine binaryOp_eq_ok (.intBinary w op) op.native fun args => ?_
    rcases args with _ | ⟨a, _ | ⟨b, _ | ⟨c, args⟩⟩⟩ <;> rfl
  | shift w op =>
    refine binary_eq_ok (.shift w op)
      (fun a b u => .ok
        ((u.computed (.binary .and b (b.type.constant (a.type.bits - 1)))).computePush
          (.binary op.native a (.result u.draft.nextValue b.type))))
      (fun a b => [.binary .and b (b.type.constant (a.type.bits - 1)),
        .binary op.native a (.result s.draft.nextValue b.type)]) (fun args => ?_) fun _ _ _ => rfl
    rcases args with _ | ⟨a, _ | ⟨b, _ | ⟨c, args⟩⟩⟩ <;> rfl
  | rotate w op =>
    refine binary_eq_ok (.rotate w op)
      (fun a b u => .ok (u.callPush ⟨op.intrinsic, [a.type]⟩ [a, a, b]))
      (fun a b => [.call ⟨op.intrinsic, [a.type]⟩ [a, a, b]]) (fun args => ?_) fun _ _ _ => rfl
    rcases args with _ | ⟨a, _ | ⟨b, _ | ⟨c, args⟩⟩⟩ <;> rfl
  | floatUnary w op => exact floatUnary_eq_ok w op
  | floatBinary w op => exact floatBinary_eq_ok w op
  | convert c => exact convert_eq_ok c hop
  | signExtend w bits =>
    refine unary_eq_ok (.signExtend w bits)
      (fun a u => .ok ((u.computed (.cast .trunc a (.int bits))).computePush
        (.cast .sext (.result u.draft.nextValue (.int bits)) a.type)))
      (fun a => [.cast .trunc a (.int bits),
        .cast .sext (.result s.draft.nextValue (.int bits)) a.type]) (fun args => ?_) fun _ _ => rfl
    rcases args with _ | ⟨a, _ | ⟨b, args⟩⟩ <;> rfl
  | truncSat source target signed =>
    refine unary_eq_ok (.truncSat source target signed)
      (fun a u => do
        let type ← target.type.scalar hostPointerBits
        return u.callPush ⟨if signed then .fptosiSat else .fptouiSat, [type, a.type]⟩ [a])
      (fun a => [.call ⟨if signed then .fptosiSat else .fptouiSat, [target.scalar, a.type]⟩ [a]])
      (fun args => ?_) fun xs a => ?_
    · rcases args with _ | ⟨a, _ | ⟨b, args⟩⟩ <;> rfl
    · rw [IntWidth.scalar_type]
      rfl
  | _ => cases hop

end

end Lowering

end WasmLowering
