import WasmLowering.Proofs.Calculations

/-!
# Divisions of integers

A division rounds toward zero. It is defined unless the divisor is zero or the quotient is not a
number of the same width, which happens for the least signed number and `-1` only. The remainder of
this last division is zero.

A division is lowered to the native instruction and nothing else. So it has the same result, except
for this one remainder, which the native instruction leaves undefined.

## Key results

- `IntBinary.divide`: quotients and remainders
- `IntBinary.native_divide`: how they are related to those of the native instructions
- `divisions_keep_results`: where a lowered division is defined, and its result
-/

namespace WasmLowering

open Ssa

/-! ## Quotients and remainders -/

/-- Whether an operation is a division. -/
def IntBinary.isDivision : IntBinary → Bool
  | divS | divU | remS | remU => true
  | _ => false

/-- The quotient or the remainder of a division that rounds toward zero. -/
def IntBinary.divide {n : Nat} (a b : BitVec n) : IntBinary → Option (BitVec n)
  | divS =>
    let quotient := a.toInt.tdiv b.toInt
    if b.toInt ≠ 0 ∧ quotient < 2 ^ (n - 1) then some (BitVec.ofInt n quotient) else none
  | divU => if b.toNat ≠ 0 then some (BitVec.ofNat n (a.toNat / b.toNat)) else none
  | remS => if b.toInt ≠ 0 then some (BitVec.ofInt n (a.toInt.tmod b.toInt)) else none
  | remU => if b.toNat ≠ 0 then some (BitVec.ofNat n (a.toNat % b.toNat)) else none
  | _ => none

/-- The one division whose quotient is too large for the width. -/
def Overflows {n : Nat} (a b : BitVec n) : Prop :=
  a = .intMin n ∧ b = -1

instance {n : Nat} (a b : BitVec n) : Decidable (Overflows a b) :=
  inferInstanceAs (Decidable (_ ∧ _))

section Divide

variable {n : Nat} {a b : BitVec n}

/-- Zero is the one integer with the signed value zero. -/
private theorem toInt_eq_zero_iff : b.toInt = 0 ↔ b = 0 := by
  rw [← BitVec.toInt_inj]
  simp

/-- Zero is the one integer with the unsigned value zero. -/
private theorem toNat_eq_zero_iff : b.toNat = 0 ↔ b = 0 := by
  rw [← BitVec.toNat_inj]
  simp

/-- The signed values of the operands of the division that overflows. -/
theorem Overflows.toInt (h : Overflows a b) (hn : 0 < n) :
    a.toInt = -2 ^ (n - 1) ∧ b.toInt = -1 := by
  obtain ⟨rfl, rfl⟩ := h
  constructor
  · rw [BitVec.toInt_intMin, Nat.mod_eq_of_lt (Nat.pow_lt_pow_right (by decide) (by omega))]
    push_cast
    rfl
  · have hones : (-1 : BitVec n) = .allOnes n := BitVec.neg_one_eq_allOnes
    rw [hones, BitVec.toInt_allOnes, if_pos hn]

/-- A signed quotient is in range unless it is the one that overflows. -/
private theorem tdiv_lt_iff (hn : 0 < n) :
    a.toInt.tdiv b.toInt < 2 ^ (n - 1) ↔ ¬ Overflows a b := by
  constructor
  -- The quotient would be the negation of the least number.
  · intro hlt h
    obtain ⟨ha, hb⟩ := h.toInt hn
    rw [ha, hb, Int.tdiv_neg, Int.tdiv_one, neg_neg] at hlt
    exact Int.lt_irrefl _ hlt
  · intro h
    rw [← BitVec.toInt_sdiv_of_ne_or_ne a b (not_and_or.1 h)]
    exact BitVec.toInt_lt

private theorem ofInt_tdiv (h : ¬ Overflows a b) :
    BitVec.ofInt n (a.toInt.tdiv b.toInt) = a.sdiv b := by
  rw [← BitVec.toInt_sdiv_of_ne_or_ne a b (not_and_or.1 h), BitVec.ofInt_toInt]

private theorem ofInt_tmod : BitVec.ofInt n (a.toInt.tmod b.toInt) = a.srem b := by
  rw [← BitVec.toInt_srem, BitVec.ofInt_toInt]

/-- The native quotient is the unsigned one. -/
private theorem ofNat_div : BitVec.ofNat n (a.toNat / b.toNat) = a.udiv b := by
  refine BitVec.eq_of_toNat_eq ?_
  rw [BitVec.udiv_eq, BitVec.toNat_udiv, BitVec.toNat_ofNat]
  exact Nat.mod_eq_of_lt (Nat.lt_of_le_of_lt (Nat.div_le_self ..) a.isLt)

/-- The native remainder is the unsigned one. -/
private theorem ofNat_mod : BitVec.ofNat n (a.toNat % b.toNat) = a.umod b := by
  refine BitVec.eq_of_toNat_eq ?_
  rw [BitVec.umod_eq, BitVec.toNat_umod, BitVec.toNat_ofNat]
  exact Nat.mod_eq_of_lt (Nat.lt_of_le_of_lt (Nat.mod_le ..) a.isLt)

/-- The native divisions are the divisions, except for one remainder that they leave out. -/
theorem IntBinary.native_divide {op : IntBinary} (hn : 0 < n) (hop : op.isDivision = true) :
    op.native.divide a b = if op = .remS ∧ Overflows a b then none else op.divide a b := by
  cases op with
  -- Both sides are undefined at the same operands.
  | divS =>
    have hdefined : (b.toInt ≠ 0 ∧ a.toInt.tdiv b.toInt < 2 ^ (n - 1)) ↔
        ¬ (b = 0 ∨ Overflows a b) := by
      rw [Ne, toInt_eq_zero_iff, tdiv_lt_iff hn, not_or]
    show (if b = 0 ∨ Overflows a b then none else some (a.sdiv b)) = divide a b .divS
    rw [divide]
    by_cases h : b = 0 ∨ Overflows a b
    · rw [if_pos h, if_neg (mt hdefined.1 (not_not.2 h))]
    · rw [if_neg h, if_pos (hdefined.2 h), ofInt_tdiv (not_or.1 h).2]
  -- The remainder of the division that overflows is defined here, and only here.
  | remS =>
    show (if b = 0 ∨ Overflows a b then none else some (a.srem b)) =
      if IntBinary.remS = .remS ∧ Overflows a b then none else divide a b .remS
    simp only [divide, ofInt_tmod, ne_eq, toInt_eq_zero_iff, ite_not]
    by_cases hb : b = 0 <;> by_cases h : Overflows a b <;> simp [hb, h]
  | divU =>
    show (if b = 0 then none else some (a.udiv b)) = divide a b .divU
    simp only [divide, ofNat_div, ne_eq, toNat_eq_zero_iff, ite_not]
  | remU =>
    show (if b = 0 then none else some (a.umod b)) = divide a b .remU
    simp only [divide, ofNat_mod, ne_eq, toNat_eq_zero_iff, ite_not]
  | _ => cases hop

/-- The remainder that the native instruction leaves out is zero. -/
theorem IntBinary.divide_of_overflows (hn : 0 < n) (h : Overflows a b) :
    IntBinary.remS.divide a b = some 0 := by
  obtain ⟨-, hb⟩ := h.toInt hn
  simp [divide, hb]

end Divide

/-! ## Lowered divisions -/

namespace Lowering

open Draft

/-- A computation with divisions, on two integers of one width. -/
private theorem calculate_binary {args : List Scalar} {m : Machine} {a b : Operand} {n : Nat}
    {p q : BitVec n} (ha : m.eval args a = some (.int n p)) (hb : m.eval args b = some (.int n q))
    {op : IntBinary} (hop : op.isDivision = true) :
    m.calculate args (.binary op.native a b) = (op.native.divide p q).map (.int n) := by
  cases op with
  | divS | divU | remS | remU => simp [Machine.calculate, ha, hb, IntBinary.native, BinaryOp.apply]
  | _ => cases hop

/-- An operation on two integers appends the native instruction and pushes its value. -/
private theorem intBinary_eq_ok {s t : State} {w : IntWidth} {op : IntBinary}
    (h : s.lower (.intBinary w op) = .ok t) :
    ∃ (xs : Array Operand) (a b : Operand), s.stack = (xs.push a).push b ∧
      t.stack = xs.push (.result s.draft.nextValue a.type) ∧
      t.draft = s.draft.assigned [.binary op.native a b] := by
  obtain ⟨xs, args, cs, hstack, -, hcs, rfl⟩ := (lower_eq_ok_iff rfl).1 h
  rcases args with _ | ⟨a, _ | ⟨b, _ | ⟨c, args⟩⟩⟩ <;> try cases hcs
  exact ⟨xs, a, b, Array.toList_inj.1 (by simp [hstack]), rfl, rfl⟩

/-- A division that is lowered is the native instruction for it. Where the division is defined, the
    lines of the operator run and give its result, except for the remainder of the least signed
    number by `-1`. This remainder is zero, but its line is stuck. So are those of the divisions
    that are not defined. -/
theorem divisions_keep_results {types : Array FuncType} {index : Nat} {func : UInt32}
    {type : FuncType} {intrinsics table : IntrinsicTable} {input : Bytes} {f : Ssa.Function}
    (h : lowerFunction types index func type intrinsics input = .ok (f, table))
    {done : List Operator} {s t : State} {w : IntWidth} {op : IntBinary}
    (hop : op.isDivision = true) (hs : Boundary types type intrinsics input done s)
    (ht : Boundary types type intrinsics input (done ++ [.intBinary w op]) t)
    (live : s.phase = .live) :
    ∃ (xs : Array Operand) (a b v : Operand),
      s.stack = (xs.push a).push b ∧ t.stack = xs.push v ∧
      t.draft.code s.draft.current = s.draft.code s.draft.current ++
        [.assign s.draft.nextValue (.binary op.native a b)] ∧
      ∀ (args : List Scalar) (m : Machine) (x y : BitVec w.bits), StandsAt f s m →
        m.eval args a = some (.int w.bits x) → m.eval args b = some (.int w.bits y) →
        (∀ r, op.divide x y = some r → ¬ (op = .remS ∧ Overflows x y) →
          ∃ m', f.Proceeds args m m' ∧ StandsAt f t m' ∧
            m'.eval args v = some (.int w.bits r)) ∧
        (op.divide x y = none → f.advance args m = none) ∧
        (op = .remS → Overflows x y → op.divide x y = some 0 ∧ f.advance args m = none) := by
  obtain ⟨hstep, hd, hm, last, hlast, hl⟩ := Boundary.around h hs ht
  have hbits : 0 < w.bits := by cases w <;> decide
  rw [State.step, live] at hstep
  obtain ⟨xs, a, b, hstack, hstack', hdraft⟩ := intBinary_eq_ok hstep
  have hcode : t.draft.code s.draft.current = s.draft.code s.draft.current ++
      [.assign s.draft.nextValue (.binary op.native a b)] := by
    rw [hdraft, code_assigned _ hd.sound.numbered hd.sound.current_mem]
    rfl
  have hcurrent : t.draft.current = s.draft.current := by rw [hdraft, current_assigned]
  refine ⟨xs, a, b, _, hstack, hstack', hcode, fun args m x y hstands hx hy => ?_⟩
  obtain ⟨rest, hrest, hnext⟩ := hstands.split hl hd hm hlast hcode (by simp [Line.isReturnSlot])
  have hcalculate := calculate_binary hx hy hop
  rw [IntBinary.native_divide hbits hop] at hcalculate
  have hadvance := @Function.advance_assign args m f _ _ _ hrest
  -- A result that both sides have, one that neither has, and one that only the operator has.
  refine ⟨fun r hr hdefined => ?_, fun hnone => ?_, fun hrem hoverflows => ?_⟩
  · rw [if_neg hdefined, hr] at hcalculate
    refine ⟨_, Function.proceeds_assign hrest hcalculate, hnext _ hcurrent rfl rfl, ?_⟩
    rw [← Machine.type_eval hx]
    exact Machine.eval_define_int _ r rest
  · rw [hadvance, hcalculate, hnone, ite_self]
    rfl
  · refine ⟨hrem ▸ IntBinary.divide_of_overflows hbits hoverflows, ?_⟩
    rw [hadvance, hcalculate, if_pos ⟨hrem, hoverflows⟩]
    rfl

/-- The quotient of `-7` by `2` is `-3`. -/
theorem divisions_keep_results_negative :
    ∃ f table b m', lowerFunction #[] 0 0 { results := [.i32] } {}
        [0x00, 0x41, 0x79, 0x41, 0x02, 0x6D, 0x0B] = .ok (f, table) ∧ f.blocks = [b] ∧
      f.Proceeds [] { block := b.label, rest := b.lines.toList } m' ∧
      m'.eval [] (.result 0 (.int 32)) = some (.int 32 (-3)) := by
  let b : Block := ⟨entryLabel,
    #[.assign 0 (.binary .sdiv (.int 32 0xFFFFFFF9) (.int 32 2)), .ret (.result 0 (.int 32))]⟩
  let f : Ssa.Function := ⟨0, ⟨.scalar (.int 32), []⟩, [b]⟩
  have h : lowerFunction #[] 0 0 { results := [.i32] } {}
      [0x00, 0x41, 0x79, 0x41, 0x02, 0x6D, 0x0B] = .ok (f, {}) := by decide +kernel
  have hbody : Body.read #[] [] [0x00, 0x41, 0x79, 0x41, 0x02, 0x6D, 0x0B] =
      .ok ⟨[], [(0x41, .i32Const 0xFFFFFFF9), (0x41, .i32Const 2), (0x6D, .intBinary .w32 .divS),
        (0x0B, .endBlock)], none⟩ := by decide +kernel
  -- The states before and after the division of `-7` by `2`.
  have hs : Boundary #[] { results := [.i32] } {} [0x00, 0x41, 0x79, 0x41, 0x02, 0x6D, 0x0B]
      [.i32Const 0xFFFFFFF9, .i32Const 2] _ :=
    ⟨_, _, hbody, rfl, by simp [List.cons_prefix_cons], rfl⟩
  have ht : Boundary #[] { results := [.i32] } {} [0x00, 0x41, 0x79, 0x41, 0x02, 0x6D, 0x0B]
      ([.i32Const 0xFFFFFFF9, .i32Const 2] ++ [.intBinary .w32 .divS]) _ :=
    ⟨_, _, hbody, rfl, by simp [List.cons_prefix_cons], rfl⟩
  obtain ⟨xs, x, y, v, hstack, hstack', -, hruns⟩ :=
    divisions_keep_results h (by decide) hs ht rfl
  obtain ⟨rfl, hxs⟩ := Array.push_eq_push.1 (hstack : #[_].push _ = _)
  obtain ⟨rfl, rfl⟩ := Array.push_eq_push.1 (hxs : #[].push _ = _)
  obtain ⟨rfl, -⟩ := Array.push_eq_push.1 (hstack' : #[].push _ = _)
  obtain ⟨m', hproceeds, -, hvalue⟩ := (hruns [] { block := b.label, rest := b.lines.toList } _ _
    ⟨rfl, b, by simp [f], rfl, [], rfl, by simp, by simp [b, Line.isReturnSlot]⟩ rfl rfl).1
      (-3) rfl (by simp)
  exact ⟨f, {}, b, m', h, rfl, hproceeds, hvalue⟩

/-- The remainder of the least number by `-1` is zero, but a function that computes it is stuck at
    its first line. -/
theorem remainder_of_least_stuck :
    ∃ f table b, lowerFunction #[] 0 0 { results := [.i32] } {}
        [0x00, 0x41, 0x80, 0x80, 0x80, 0x80, 0x78, 0x41, 0x7F, 0x6F, 0x0B] = .ok (f, table) ∧
      f.blocks = [b] ∧ IntBinary.remS.divide (.intMin 32) (-1) = some 0 ∧
      b.lines.toList.head? =
        some (.assign 0 (.binary .srem (.int 32 0x80000000) (.int 32 0xFFFFFFFF))) ∧
      f.advance [] { block := b.label, rest := b.lines.toList } = none := by
  let b : Block := ⟨entryLabel,
    #[.assign 0 (.binary .srem (.int 32 0x80000000) (.int 32 0xFFFFFFFF)),
      .ret (.result 0 (.int 32))]⟩
  refine ⟨⟨0, ⟨.scalar (.int 32), []⟩, [b]⟩, {}, b, by decide +kernel, rfl, by decide, rfl, rfl⟩

end Lowering

end WasmLowering
