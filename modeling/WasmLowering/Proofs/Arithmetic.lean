import WasmLowering.Proofs.Machine
import WasmLowering.Proofs.Execution
import WasmLowering.Proofs.Typing

/-!
# Meaning of computations

An operator on integers appends a few computations. Run on operands that stand for the operator's
operands, they give the operator's value: shift counts are masked, truth values are widened,
rotations are funnel shifts of an operand with itself.

## Key results

- `Value.native`: the native counterpart of a value
- `Function.leads_assignments`: computations run one after the other
- `computations_value`: the last of an operator's computations gives the operator's value
-/

namespace WasmLowering

open Ssa

/-! ## Values -/

namespace Value

/-- The native counterpart of a value. -/
def native : Value → Scalar
  | i32 a => .int 32 a
  | i64 a => .int 64 a
  | f32 pattern => .float pattern
  | f64 pattern => .double pattern
  | v128 pattern => .int 128 pattern
  | funcref address => .int hostPointerBits address
  | externref address => .int hostPointerBits address

theorem scalar_type (v : Value) : v.type.scalar hostPointerBits = .ok v.native.type := by
  cases v <;> rfl

private theorem native_ofInt (w : IntWidth) (a : BitVec w.bits) :
    (ofInt w a).native = .int w.bits a := by
  cases w <;> rfl

private theorem native_ofBool (b : Bool) :
    (ofBool b).native = .int 32 ((BitVec.ofBool b).setWidth 32) := by
  cases b <;> rfl

private theorem toInt?_eq_some {w : IntWidth} {v : Value} {a : BitVec w.bits} :
    v.toInt? w = some a ↔ v = ofInt w a := by
  cases w <;> cases v <;> simp only [toInt?, ofInt, reduceCtorEq] <;>
    exact ⟨fun h => by cases h; rfl, fun h => by cases h; rfl⟩

end Value

/-! ## Operations -/

section Operations

variable {n : Nat}

theorem IntComparison.holds_predicate (op : IntComparison) (a b : BitVec n) :
    op.predicate.holds a b = op.holds a b := by
  cases op <;> rfl

theorem IntBinary.apply_native {op : IntBinary} {a b c : BitVec n} (h : op.apply a b = some c) :
    op.native.apply a b = some c := by
  cases op <;> exact h

/-- A count that is masked is a count modulo the width, as the widths are powers of two. -/
private theorem toNat_and_mask (w : IntWidth) (b : BitVec w.bits) :
    (b &&& BitVec.ofNat w.bits (w.bits - 1)).toNat = b.toNat % w.bits := by
  cases w with
  | w32 => exact (BitVec.toNat_and _ _).trans (Nat.and_two_pow_sub_one_eq_mod b.toNat 5)
  | w64 => exact (BitVec.toNat_and _ _).trans (Nat.and_two_pow_sub_one_eq_mod b.toNat 6)

/-- With a masked count, a native shift has a value, and it is that of the operator. -/
theorem Shift.apply_native (op : Shift) (w : IntWidth) (a b : BitVec w.bits) :
    op.native.apply a (b &&& BitVec.ofNat w.bits (w.bits - 1)) = some (op.apply a b) := by
  have hlt : b.toNat % w.bits < w.bits := Nat.mod_lt _ (by cases w <;> decide)
  cases op <;>
    simp only [Shift.native, BinaryOp.apply, Shift.apply, toNat_and_mask, if_pos hlt]

/-- A funnel shift to the left of an integer with itself is a rotation. -/
theorem Ssa.funnelLeft_self (a count : BitVec n) :
    funnelLeft a a count = a.rotateLeft count.toNat := by
  unfold funnelLeft
  rcases Nat.eq_zero_or_pos n with rfl | hn
  · exact Subsingleton.elim _ _
  have hlt : count.toNat % n < n := Nat.mod_lt _ hn
  ext i hi
  rw [BitVec.getElem_extractLsb', BitVec.getLsbD_shiftLeft, ← BitVec.getLsbD_eq_getElem,
    BitVec.getLsbD_rotateLeft, BitVec.getLsbD_append]
  -- The lowest bits come from the upper end of the second copy, the others from the first copy.
  by_cases h : i < count.toNat % n
  · grind
  · grind

/-- A funnel shift to the right of an integer with itself is a rotation. -/
theorem Ssa.funnelRight_self (a count : BitVec n) :
    funnelRight a a count = a.rotateRight count.toNat := by
  unfold funnelRight
  rcases Nat.eq_zero_or_pos n with rfl | hn
  · exact Subsingleton.elim _ _
  have hlt : count.toNat % n < n := Nat.mod_lt _ hn
  ext i hi
  rw [BitVec.getElem_setWidth, BitVec.getLsbD_ushiftRight, ← BitVec.getLsbD_eq_getElem,
    BitVec.getLsbD_rotateRight, BitVec.getLsbD_append]
  -- The highest bits come from the lower end of the first copy.
  by_cases h : i < n - count.toNat % n
  · grind
  · grind

/-- The funnel shift of an integer with itself is the rotation that was meant. -/
theorem Rotation.apply_intrinsic (op : Rotation) (a b : BitVec n) :
    op.intrinsic.apply n [.int n a, .int n a, .int n b] = some (op.apply a b) := by
  cases op
  · simp [Rotation.intrinsic, IntrinsicKind.apply, Rotation.apply, funnelLeft_self]
  · simp [Rotation.intrinsic, IntrinsicKind.apply, Rotation.apply, funnelRight_self]

end Operations

/-! ## Runs of computations -/

namespace Ssa

/-- The operands stand for the values. -/
def Machine.Represents (args : List Scalar) (m : Machine) (operands : List Operand)
    (vs : List Value) : Prop :=
  List.Forall₂ (fun operand v => m.eval args operand = some v.native) operands vs

/-- The machine after a few computations, whose values are numbered from `next` on. -/
def Machine.computeAll (args : List Scalar) (m : Machine) (next : ValueId) :
    List Rhs → Option Machine
  | [] => some m
  | rhs :: cs => do
    let x ← m.compute args rhs
    (m.define next (.scalar x) m.rest.tail).computeAll args (next + 1) cs

section Runs

variable {args : List Scalar} {m m' : Machine} {next : ValueId}

/-- The lines of computations define the numbers from the first one on. -/
theorem Draft.definitions_assignments (next : ValueId) (cs : List Rhs) :
    definitions (assignments next cs) = List.range' next cs.length := by
  induction cs generalizing next with
  | nil => rfl
  | cons rhs cs ih => exact congrArg (next :: ·) (ih (next + 1))

/-- What computations change: they make the values of their lines, and take these lines. -/
theorem Machine.computeAll_fields {cs : List Rhs} (h : m.computeAll args next cs = some m') :
    m'.block = m.block ∧ m'.memory = m.memory ∧ m'.rest = m.rest.drop cs.length ∧
      ∀ id ∉ definitions (Draft.assignments next cs), m'.values id = m.values id := by
  induction cs generalizing m next with
  | nil =>
    obtain rfl := Option.some.inj h
    exact ⟨rfl, rfl, rfl, fun _ _ => rfl⟩
  | cons rhs cs ih =>
    obtain ⟨x, -, h⟩ := Option.bind_eq_some_iff.1 h
    obtain ⟨hblock, hmemory, hrest, hvalues⟩ := ih h
    refine ⟨hblock, hmemory, ?_, fun id hid => ?_⟩
    · rw [hrest, List.length_cons, Nat.add_comm, ← List.drop_drop]
      simp [Machine.define]
    -- The first value is not one that is looked up, and the others are made after it.
    · replace hid : id ∉ next :: definitions (Draft.assignments (next + 1) cs) := hid
      rw [hvalues id (List.not_mem_of_not_mem_cons hid)]
      exact Function.update_of_ne (List.ne_of_not_mem_cons hid) _ _

/-- One more computation goes on where the others have stopped. -/
theorem Machine.computeAll_concat {cs : List Rhs} {rhs : Rhs} {x : Scalar}
    (h : m.computeAll args next cs = some m') (hx : m'.compute args rhs = some x) :
    m.computeAll args next (cs ++ [rhs]) =
      some (m'.define (next + cs.length) (.scalar x) m'.rest.tail) := by
  induction cs generalizing m next with
  | nil =>
    obtain rfl := Option.some.inj h
    simp [computeAll, hx]
  | cons first cs ih =>
    obtain ⟨y, hy, h⟩ := Option.bind_eq_some_iff.1 h
    simp only [List.cons_append, computeAll, hy, Option.bind_eq_bind, Option.bind_some, ih h,
      List.length_cons, Nat.add_comm cs.length 1, ← Nat.add_assoc]

/-- The lines of computations run one after the other. -/
theorem Function.leads_assignments (f : Function) {cs : List Rhs} {rest : List Line}
    (hrest : m.rest = Draft.assignments next cs ++ rest) (h : m.computeAll args next cs = some m') :
    f.Leads args m m' := by
  induction cs generalizing m next with
  | nil =>
    obtain rfl := Option.some.inj h
    exact .refl
  | cons rhs cs ih =>
    obtain ⟨x, hx, h⟩ := Option.bind_eq_some_iff.1 h
    have hstep : f.step args m = some (.next (m.define next (.scalar x) m.rest.tail)) := by
      simp [Function.step, hrest, Draft.assignments, hx]
    exact .head hstep (ih (by rw [hrest]; rfl) h)

end Runs

end Ssa

/-! ## Operators -/

namespace Lowering

open Validation

section Represents

variable {args : List Scalar} {m : Machine} {operands : List Operand} {u v w : Value}

/-- One value is that of one operand. -/
theorem Represents.unary (h : m.Represents args operands [v]) :
    ∃ a, operands = [a] ∧ m.eval args a = some v.native := by
  obtain ⟨a, rest, ha, hrest, rfl⟩ := List.forall₂_cons_right_iff.1 h
  obtain rfl := List.forall₂_nil_right_iff.1 hrest
  exact ⟨a, rfl, ha⟩

/-- Two values are those of two operands. -/
theorem Represents.binary (h : m.Represents args operands [u, v]) :
    ∃ a b, operands = [a, b] ∧ m.eval args a = some u.native ∧ m.eval args b = some v.native := by
  obtain ⟨a, rest, ha, hrest, rfl⟩ := List.forall₂_cons_right_iff.1 h
  obtain ⟨b, rfl, hb⟩ := Represents.unary hrest
  exact ⟨a, b, rfl, ha, hb⟩

/-- An operand for an integer. -/
theorem Represents.int {n : IntWidth} {p : BitVec n.bits} (h : m.Represents args operands [v])
    (hp : v.toInt? n = some p) :
    ∃ a, operands = [a] ∧ m.eval args a = some (.int n.bits p) := by
  obtain rfl := Value.toInt?_eq_some.1 hp
  rw [← Value.native_ofInt]
  exact Represents.unary h

/-- Operands for two integers of one width. -/
theorem Represents.ints {n : IntWidth} {p q : BitVec n.bits}
    (h : m.Represents args operands [u, v]) (hp : u.toInt? n = some p) (hq : v.toInt? n = some q) :
    ∃ a b, operands = [a, b] ∧ m.eval args a = some (.int n.bits p) ∧
      m.eval args b = some (.int n.bits q) := by
  obtain rfl := Value.toInt?_eq_some.1 hp
  obtain rfl := Value.toInt?_eq_some.1 hq
  rw [← Value.native_ofInt, ← Value.native_ofInt]
  exact Represents.binary h

/-- Three values are those of three operands. -/
theorem Represents.ternary (h : m.Represents args operands [u, v, w]) :
    ∃ a b c, operands = [a, b, c] ∧ m.eval args a = some u.native ∧
      m.eval args b = some v.native ∧ m.eval args c = some w.native := by
  obtain ⟨a, rest, ha, hrest, rfl⟩ := List.forall₂_cons_right_iff.1 h
  obtain ⟨b, c, rfl, hb, hc⟩ := Represents.binary hrest
  exact ⟨a, b, c, rfl, ha, hb, hc⟩

end Represents

section Computations

variable {args : List Scalar} {m : Machine} {next : ValueId} {cs : List Rhs} {rhs : Rhs}
  {x : Scalar}

/-- The value `x` is what the computations `cs` and then `rhs` give. -/
def Gives (args : List Scalar) (m : Machine) (next : ValueId) (cs : List Rhs) (rhs : Rhs)
    (x : Scalar) : Prop :=
  ∃ m', m.computeAll args next cs = some m' ∧ m'.compute args rhs = some x

/-- A single computation gives its own value. -/
private theorem gives_single {only : Rhs} (hcs : [only] = cs ++ [rhs])
    (h : m.compute args only = some x) :
    Gives args m next cs rhs x := by
  obtain ⟨rfl, hrhs⟩ := @List.append_inj' _ [] [only] cs [rhs] hcs rfl
  obtain rfl := List.singleton_inj.1 hrhs
  exact ⟨m, rfl, h⟩

private theorem gives_pair {first second : Rhs} {y : Scalar} (hcs : [first, second] = cs ++ [rhs])
    (hfirst : m.compute args first = some y)
    (hsecond : (m.define next (.scalar y) m.rest.tail).compute args second = some x) :
    Gives args m next cs rhs x := by
  obtain ⟨rfl, hrhs⟩ := @List.append_inj' _ [first] [second] cs [rhs] hcs rfl
  obtain rfl := List.singleton_inj.1 hrhs
  exact ⟨_, by simp [Machine.computeAll, hfirst], hsecond⟩

private theorem gives_bool {first : Rhs} {b : Bool}
    (hcs : [first, .cast .zext (.result next (.int 1)) (.int 32)] = cs ++ [rhs])
    (hfirst : m.compute args first = some (.int 1 (BitVec.ofBool b))) :
    Gives args m next cs rhs (Value.ofBool b).native := by
  refine gives_pair hcs hfirst ?_
  rw [Machine.compute_cast (Machine.eval_define_int next _ _), Value.native_ofBool]
  rfl

/-- The two operands that a selection selects from are of one type. -/
private theorem select_types {body : BodyTypes} {op : Operator} {ins outs : List ValueType}
    {a b c : Operand} (ht : HasType body op ins outs) (htyped : OperandsTyped [a, b, c] ins)
    (hop : op = .select ∨ ∃ t, op = .selectTyped t) : a.type = b.type := by
  -- With or without a written type, both operands have the same one.
  obtain ⟨t, rfl⟩ : ∃ t, ins = [t, t, .i32] := by
    rcases hop with rfl | ⟨t, rfl⟩
    · cases ht with
      | of h => cases h
      | select t => exact ⟨t, rfl⟩
    · cases ht with
      | of h =>
        simp only [BodyTypes.signature, Operator.signature] at h
        split at h
        · cases h
          exact ⟨t, rfl⟩
        · cases h
  obtain ⟨ha, h⟩ := List.forall₂_cons.1 htyped
  obtain ⟨hb, -⟩ := List.forall₂_cons.1 h
  exact Except.ok.inj (ha.symm.trans hb)

/-- The width that an operator extends from is smaller than the width it extends to. -/
private theorem signExtend_bits {body : BodyTypes} {w : IntWidth} {bits : Nat}
    {ins outs : List ValueType}
    (ht : HasType body (.signExtend w bits) ins outs) : bits < w.bits := by
  cases ht with
  | of h =>
    simp only [BodyTypes.signature, Operator.signature] at h
    split at h
    next hext => cases w <;> simp [IntWidth.extendsFrom, IntWidth.bits] at hext ⊢ <;> omega
    · cases h

variable {a b : Operand} {w : IntWidth} {p q : BitVec w.bits}

/-- The zero of the type of an integer is the integer zero. -/
theorem eval_zero {n : Nat} {p : BitVec n} (ha : m.eval args a = some (.int n p)) :
    m.eval args a.type.zero = some (.int n 0) := by
  rw [← Machine.type_eval ha]
  rfl

/-- A selection compares its condition with zero and takes the first operand unless it is zero. -/
private theorem gives_select {c : Operand} {condition : BitVec 32} {y : Scalar}
    (hcs : [.icmp .ne c c.type.zero, .select (.result next (.int 1)) a b] = cs ++ [rhs])
    (hc : m.eval args c = some (.int 32 condition)) (ha : m.eval args a = some x)
    (hb : m.eval args b = some y) (htypes : a.type = b.type) (hnext : next ∉ a.ids ++ b.ids) :
    Gives args m next cs rhs (if condition = 0 then y else x) := by
  -- The comparison makes a new value, so the two operands keep theirs.
  rw [List.mem_append, not_or] at hnext
  refine gives_pair hcs (Machine.compute_icmp hc (eval_zero hc) .ne) ?_
  rw [Machine.compute_select (Machine.eval_define_int next _ _)
    ((Machine.eval_define_of_notMem hnext.1).trans ha)
    ((Machine.eval_define_of_notMem hnext.2).trans hb)
    ((Machine.type_eval ha).trans (htypes.trans (Machine.type_eval hb).symm))]
  by_cases h0 : condition = 0 <;> simp [IntPredicate.holds, h0]

/-- The bits of an integer are counted by an intrinsic. -/
private theorem gives_bitCount {op : BitCount} (ha : m.eval args a = some (.int w.bits p))
    (hcs : (Operator.bitCount w op).computations next [a] = some (cs ++ [rhs])) :
    Gives args m next cs rhs (.int w.bits (op.apply p)) := by
  have htype : a.type = .int w.bits := (Machine.type_eval ha).symm
  have hflag : [a, .int 1 0].mapM (m.eval args) = some [.int w.bits p, .int 1 0] := by
    simp [ha, Machine.eval_int]
  have hone : [a].mapM (m.eval args) = some [.int w.bits p] := by simp [ha]
  -- The counts of zeros have a flag besides, which is off.
  cases op
  · refine gives_single (Option.some.inj hcs) ?_
    rw [htype, Machine.compute_call hflag]
    simp [BitCount.intrinsic, IntrinsicKind.apply, BitCount.apply]
  · refine gives_single (Option.some.inj hcs) ?_
    rw [htype, Machine.compute_call hflag]
    simp [BitCount.intrinsic, IntrinsicKind.apply, BitCount.apply]
  · refine gives_single (Option.some.inj hcs) ?_
    rw [htype, Machine.compute_call hone]
    simp [IntrinsicKind.apply, BitCount.apply]

/-- A shift masks its count first. -/
private theorem gives_shift {op : Shift} (ha : m.eval args a = some (.int w.bits p))
    (hb : m.eval args b = some (.int w.bits q)) (hnext : next ∉ a.ids)
    (hcs : [.binary .and b (b.type.constant (a.type.bits - 1)),
      .binary op.native a (.result next b.type)] = cs ++ [rhs]) :
    Gives args m next cs rhs (.int w.bits (op.apply p q)) := by
  have htb : b.type = .int w.bits := (Machine.type_eval hb).symm
  -- The mask has as many bits as a count below the width, since widths are powers of two.
  have hmask : m.eval args (b.type.constant (a.type.bits - 1)) =
      some (.int w.bits (BitVec.ofNat w.bits (w.bits - 1))) := by
    rw [← Machine.type_eval ha, htb]
    cases w <;> rfl
  refine gives_pair hcs (Machine.compute_binary hb hmask .and) ?_
  rw [htb, Machine.compute_binary ((Machine.eval_define_of_notMem hnext).trans ha)
    (Machine.eval_define_int next _ _), Shift.apply_native]
  rfl

private theorem gives_rotate {op : Rotation} (ha : m.eval args a = some (.int w.bits p))
    (hb : m.eval args b = some (.int w.bits q))
    (hcs : [.call ⟨op.intrinsic, [a.type]⟩ [a, a, b]] = cs ++ [rhs]) :
    Gives args m next cs rhs (.int w.bits (op.apply p q)) := by
  have hargs : [a, a, b].mapM (m.eval args) =
      some [.int w.bits p, .int w.bits p, .int w.bits q] := by simp [ha, hb]
  have htype : a.type = .int w.bits := (Machine.type_eval ha).symm
  refine gives_single hcs ?_
  rw [htype, Machine.compute_call hargs, Rotation.apply_intrinsic]
  rfl

/-- A sign is extended by cutting off the upper bits and widening what is left. -/
private theorem gives_signExtend {bits : Nat} (hbits : bits < w.bits)
    (ha : m.eval args a = some (.int w.bits p))
    (hcs : [.cast .trunc a (.int bits), .cast .sext (.result next (.int bits)) a.type] =
      cs ++ [rhs]) :
    Gives args m next cs rhs (.int w.bits ((p.setWidth bits).signExtend w.bits)) := by
  have hlow : m.compute args (.cast .trunc a (.int bits)) =
      some (.int bits (p.setWidth bits)) := by
    rw [Machine.compute_cast ha, Cast.apply, if_pos hbits]
    rfl
  refine gives_pair hcs hlow ?_
  rw [← Machine.type_eval ha, Scalar.type,
    Machine.compute_cast (Machine.eval_define_int next _ _), Cast.apply, if_pos hbits]
  rfl

/-- The computations of an operator give the operator's value. -/
theorem computations_value {body : BodyTypes} {op : Operator} {ins outs : List ValueType}
    {operands : List Operand} {vs : List Value} {v : Value} (ht : HasType body op ins outs)
    (htyped : OperandsTyped operands ins)
    (hcs : op.computations next operands = some (cs ++ [rhs]))
    (hrep : m.Represents args operands vs) (hbelow : ∀ a ∈ operands, ∀ id ∈ a.ids, id < next)
    (hv : op.value vs = some v) : Gives args m next cs rhs v.native := by
  -- The number of the first computation is new, so the operands keep their values after it.
  have hnext : ∀ a ∈ operands, next ∉ a.ids := fun a ha hid =>
    Nat.lt_irrefl _ (hbelow a ha next hid)
  unfold Operator.value at hv
  split at hv
  -- Constants are no computations, so the first two operators are not among these.
  · cases hcs
  · cases hcs
  next x y condition =>
    obtain ⟨c, hc, hv⟩ := Option.bind_eq_some_iff.1 hv
    obtain rfl := Option.some.inj hv
    obtain rfl := Value.toInt?_eq_some.1 hc
    obtain ⟨a, b, c, rfl, ha, hb, hc⟩ := Represents.ternary hrep
    rw [apply_ite Value.native]
    exact gives_select (Option.some.inj hcs) hc ha hb (select_types ht htyped (.inl rfl))
      (by simp [hnext])
  next t x y condition =>
    obtain ⟨c, hc, hv⟩ := Option.bind_eq_some_iff.1 hv
    obtain rfl := Option.some.inj hv
    obtain rfl := Value.toInt?_eq_some.1 hc
    obtain ⟨a, b, c, rfl, ha, hb, hc⟩ := Represents.ternary hrep
    rw [apply_ite Value.native]
    exact gives_select (Option.some.inj hcs) hc ha hb (select_types ht htyped (.inr ⟨t, rfl⟩))
      (by simp [hnext])
  next w x =>
    obtain ⟨p, hp, hv⟩ := Option.bind_eq_some_iff.1 hv
    obtain rfl := Option.some.inj hv
    obtain ⟨a, rfl, ha⟩ := Represents.int hrep hp
    exact gives_bool (Option.some.inj hcs) (Machine.compute_icmp ha (eval_zero ha) .eq)
  next w op x y =>
    obtain ⟨p, hp, hv⟩ := Option.bind_eq_some_iff.1 hv
    obtain ⟨q, hq, hv⟩ := Option.bind_eq_some_iff.1 hv
    obtain rfl := Option.some.inj hv
    obtain ⟨a, b, rfl, ha, hb⟩ := Represents.ints hrep hp hq
    rw [← IntComparison.holds_predicate]
    exact gives_bool (Option.some.inj hcs) (Machine.compute_icmp ha hb op.predicate)
  next w op x =>
    obtain ⟨p, hp, hv⟩ := Option.bind_eq_some_iff.1 hv
    obtain rfl := Option.some.inj hv
    obtain ⟨a, rfl, ha⟩ := Represents.int hrep hp
    rw [Value.native_ofInt]
    exact gives_bitCount ha hcs
  next w op x y =>
    obtain ⟨p, hp, hv⟩ := Option.bind_eq_some_iff.1 hv
    obtain ⟨q, hq, hv⟩ := Option.bind_eq_some_iff.1 hv
    obtain ⟨r, hr, hv⟩ := Option.bind_eq_some_iff.1 hv
    obtain rfl := Option.some.inj hv
    obtain ⟨a, b, rfl, ha, hb⟩ := Represents.ints hrep hp hq
    rw [Value.native_ofInt]
    refine gives_single (Option.some.inj hcs) ?_
    rw [Machine.compute_binary ha hb, IntBinary.apply_native hr]
    rfl
  next w op x y =>
    obtain ⟨p, hp, hv⟩ := Option.bind_eq_some_iff.1 hv
    obtain ⟨q, hq, hv⟩ := Option.bind_eq_some_iff.1 hv
    obtain rfl := Option.some.inj hv
    obtain ⟨a, b, rfl, ha, hb⟩ := Represents.ints hrep hp hq
    rw [Value.native_ofInt]
    exact gives_shift ha hb (hnext a (by simp)) (Option.some.inj hcs)
  next w op x y =>
    obtain ⟨p, hp, hv⟩ := Option.bind_eq_some_iff.1 hv
    obtain ⟨q, hq, hv⟩ := Option.bind_eq_some_iff.1 hv
    obtain rfl := Option.some.inj hv
    obtain ⟨a, b, rfl, ha, hb⟩ := Represents.ints hrep hp hq
    rw [Value.native_ofInt]
    exact gives_rotate ha hb (Option.some.inj hcs)
  next x =>
    obtain ⟨p, hp, hv⟩ := Option.bind_eq_some_iff.1 hv
    obtain rfl := Option.some.inj hv
    obtain ⟨a, rfl, ha⟩ := Represents.int hrep hp
    refine gives_single (Option.some.inj hcs) ?_
    rw [Machine.compute_cast ha]
    rfl
  next signed x =>
    obtain ⟨p, hp, hv⟩ := Option.bind_eq_some_iff.1 hv
    obtain rfl := Option.some.inj hv
    obtain ⟨a, rfl, ha⟩ := Represents.int hrep hp
    refine gives_single (Option.some.inj hcs) ?_
    rw [Machine.compute_cast ha]
    cases signed <;> rfl
  next w bits x =>
    obtain ⟨p, hp, hv⟩ := Option.bind_eq_some_iff.1 hv
    obtain rfl := Option.some.inj hv
    obtain ⟨a, rfl, ha⟩ := Represents.int hrep hp
    rw [Value.native_ofInt]
    exact gives_signExtend (signExtend_bits ht) ha (Option.some.inj hcs)
  · cases hv

end Computations

end Lowering

end WasmLowering
