import WasmLowering.Proofs.Calculations

/-!
# Checked conversions

A float is converted to an integer by dropping what comes after the point. The result has to be an
integer of the target type. The lowered conversion compares its operand with two bounds and goes on
only if the operand lies between them. The bounds are numbers that the source type has, and the
comparisons are exact, so this is the case if and only if the result is in range.

Where the source type has no number between the least integer and its predecessor, the lower bound
is the least integer itself; everywhere else it is the predecessor.

## Key results

- `Truncates`: the numbers that a conversion accepts
- `TruncRange.admits_iff`: the bounds admit these numbers and no others
- `truncations_check_range`: a lowered conversion goes on with these operands and traps on all
  others
-/

namespace WasmLowering.Ssa.Draft

/-- The block that a guard traps in. -/
def trapLabel (d : Draft) : Label :=
  (d.newBlock .truncTrap).1

/-- The block that a guard goes on in. -/
def passLabel (d : Draft) : Label :=
  ((d.newBlock .truncTrap).2.newBlock .truncOk).1

section Guard

variable {d : Draft} {waiting : List Label}

theorem Arranged.code_append_of_ne (ha : d.Arranged waiting) (line : Line) {l : Label}
    (hl : l ∈ d.labels) (hne : l ≠ d.current) : (d.append line).code l = d.code l := by
  rw [Draft.code_append line ha.numbered ha.current_mem hl, if_neg hne]

private theorem current_guard (d : Draft) (condition : Operand) :
    (d.guard condition).current = d.passLabel := rfl

private theorem labels_guard (d : Draft) (condition : Operand) :
    (d.guard condition).labels = d.labels ++ [d.trapLabel] ++ [d.passLabel] := by
  simp [guard, trapLabel, passLabel]

/-- A branch to two blocks that wait, one of which is then made to trap. -/
private theorem code_trapping {trap ok : Label} (ha : d.Arranged (ok :: trap :: waiting))
    (line : Line) :
    let d' := ((d.append line).place trap).append .trap
    ((d'.append .unreachable).place ok).code d.current = d.code d.current ++ [line] ∧
      ((d'.append .unreachable).place ok).code trap =
        d.code trap ++ [.trap] ++ [.unreachable] := by
  have hplace := ((ha.append line).perm (.swap ..)).place
  have htrap : trap ∈ d.labels := ha.waiting_mem trap (by simp)
  have hne : trap ≠ d.current := ha.current_ne (by simp)
  have hmem : ∀ l ∈ d.labels, l ∈ ((d.append line).place trap).labels := by simp
  simp only [code_place]
  constructor
  -- The lines of the trap do not go into the block that branches.
  · rw [(hplace.append .trap).code_append_of_ne .unreachable (by simpa using ha.current_mem)
        hne.symm,
      hplace.code_append_of_ne .trap (hmem _ ha.current_mem) hne.symm, code_place, ha.code_append]
  · have hfirst := hplace.code_append .trap
    have hsecond := (hplace.append .trap).code_append .unreachable
    simp only [current_append, current_place, code_place] at hfirst hsecond
    rw [hsecond, hfirst, ha.code_append_of_ne line htrap hne]

/-- A guard branches to two new blocks, one of which traps. -/
private theorem code_guard (ha : d.Arranged waiting) (condition : Operand) :
    (d.guard condition).code d.current =
        d.code d.current ++ [.condBr condition d.passLabel d.trapLabel] ∧
      (d.guard condition).code d.trapLabel = [.trap, .unreachable] := by
  have hn₁ := ha.newBlock .truncTrap
  obtain ⟨hbranch, htrap⟩ :=
    code_trapping (hn₁.newBlock .truncOk) (.condBr condition d.passLabel d.trapLabel)
  rw [code_newBlock .truncOk hn₁.numbered (by simp), code_newBlock_self] at htrap
  simp only [current_newBlock] at hbranch
  rw [code_newBlock .truncOk hn₁.numbered (by simp [ha.current_mem]),
    code_newBlock .truncTrap ha.numbered ha.current_mem] at hbranch
  exact ⟨hbranch, htrap⟩

/-- What is computed after a guard is in the block that the guard goes on in. -/
private theorem code_guard_assigned (hs : d.Sound waiting true) (condition : Operand) (rhs : Rhs) :
    ((d.guard condition).assigned [rhs]).code d.current =
        d.code d.current ++ [.condBr condition d.passLabel d.trapLabel] ∧
      ((d.guard condition).assigned [rhs]).code d.trapLabel = [.trap, .unreachable] := by
  have hg := (hs.guard condition).toArranged.skipValue
  -- The block that the guard goes on in is the newest one.
  have hnew : d.passLabel ∉ d.labels ++ [d.trapLabel] := by
    have hn := newBlock_not_mem .truncOk (hs.numbered.newBlock .truncTrap)
    rwa [labels_newBlock] at hn
  have hother : ∀ l ∈ d.labels ++ [d.trapLabel],
      ((d.guard condition).assigned [rhs]).code l = (d.guard condition).code l := fun l hl => by
    have hmem : l ∈ (d.guard condition).skipValue.labels := by
      rw [labels_skipValue, labels_guard]
      exact List.mem_append_left _ hl
    have hne : l ≠ (d.guard condition).skipValue.current := by
      rw [current_skipValue, current_guard]
      exact ne_of_mem_of_not_mem hl hnew
    rw [assigned, assigned, hg.code_append_of_ne _ hmem hne, code_skipValue]
  rw [hother _ (List.mem_append_left _ hs.current_mem), hother _ (by simp)]
  exact code_guard hs.toArranged condition

/-- Computations, a guard, and one more computation: the guard ends the block that the first
    computations are in. -/
private theorem exists_trap (hs : d.Sound waiting true) (cs : List Rhs) (condition : Operand)
    (rhs : Rhs) {d' : Draft} (hd' : d' = ((d.assigned cs).guard condition).assigned [rhs]) :
    ∃ trap : Label, trap.role = .truncTrap ∧ trap ∉ d.labels ∧ trap ∈ d'.labels ∧
      d'.current.role = .truncOk ∧ d'.code trap = [.trap, .unreachable] ∧
      d'.code d.current = d.code d.current ++
        (assignments d.nextValue cs ++ [.condBr condition d'.current trap]) := by
  have hassigned := hs.assigned cs
  obtain ⟨hbranch, htrap⟩ := code_guard_assigned hassigned condition rhs
  have hcurrent : d'.current = (d.assigned cs).passLabel := by
    rw [hd', current_assigned, current_guard]
  rw [← hd'] at hbranch htrap
  rw [← hcurrent, current_assigned, code_assigned cs hs.numbered hs.current_mem,
    List.append_assoc] at hbranch
  refine ⟨(d.assigned cs).trapLabel, rfl, ?_, ?_, by rw [hcurrent]; rfl, htrap, hbranch⟩
  · rw [← labels_assigned cs]
    exact newBlock_not_mem .truncTrap hassigned.numbered
  · rw [hd', labels_assigned, labels_guard]
    simp

end Guard

end WasmLowering.Ssa.Draft

namespace WasmLowering

open Ssa

/-! ## Ranges -/

/-- A number without what comes after the point. -/
def truncate (q : ℚ) : Int :=
  if 0 ≤ q then ⌊q⌋ else ⌈q⌉

/-- The least integer of a width. -/
def IntWidth.least (w : IntWidth) (signed : Bool) : Int :=
  if signed then -2 ^ (w.bits - 1) else 0

/-- The greatest integer of a width. -/
def IntWidth.greatest (w : IntWidth) (signed : Bool) : Int :=
  if signed then 2 ^ (w.bits - 1) - 1 else 2 ^ w.bits - 1

/-- A float is finite, and without what comes after the point it is an integer of the width. -/
def Truncates (target : IntWidth) (signed : Bool) (x : Option (WithBotTop ℚ)) : Prop :=
  ∃ q : ℚ, x = some (q : WithBotTop ℚ) ∧
    target.least signed ≤ truncate q ∧ truncate q ≤ target.greatest signed

/-- The format of the floats of a width. -/
def FloatWidth.format : FloatWidth → FloatFormat
  | .w32 => .single
  | .w64 => .double

section Truncate

variable {q : ℚ} {least greatest : Int}

/-- A truncated number is not below an integer if the number is above its predecessor. -/
private theorem le_truncate_iff (h : least ≤ 0) : least ≤ truncate q ↔ (least : ℚ) - 1 < q := by
  unfold truncate
  split
  next hq =>
    have hle : (least : ℚ) ≤ 0 := by exact_mod_cast h
    exact ⟨fun _ => by linarith, fun _ => h.trans (Int.floor_nonneg.2 hq)⟩
  next hq => rw [← Int.sub_one_lt_iff, Int.lt_ceil]; push_cast; rfl

private theorem truncate_le_iff (h : 0 ≤ greatest) : truncate q ≤ greatest ↔ q < greatest + 1 := by
  unfold truncate
  split
  next hq => rw [← Int.lt_add_one_iff, Int.floor_lt]; push_cast; rfl
  next hq =>
    have hle : (0 : ℚ) ≤ greatest := by exact_mod_cast h
    exact ⟨fun _ => by linarith, fun _ => (Int.ceil_nonpos.2 (le_of_not_ge hq)).trans h⟩

end Truncate

namespace Ssa.FloatFormat

variable {f : FloatFormat} {pattern : Nat} {q : ℚ}

/-- A finite number is the value of its fields. -/
private theorem eq_finiteValue (h : f.number pattern = some (q : WithBotTop ℚ)) :
    q = f.finiteValue pattern := by
  unfold number at h
  split at h
  · exact (WithBotTop.coe_injective (Option.some.inj h)).symm
  · split at h
    · split at h
      · cases Option.some.inj h
      · cases Option.some.inj h
    · cases h

/-- Above the predecessor of a large negative number, a format has no numbers before this number
    itself. -/
private theorem le_finiteValue_iff {least : Int} (h : 2 ^ f.fractionBits ≤ -least) :
    (least : ℚ) ≤ f.finiteValue pattern ↔ (least : ℚ) - 1 < f.finiteValue pattern := by
  refine ⟨fun hle => by linarith, fun hlt => ?_⟩
  -- A number in between would have to be whole, as it is large.
  by_contra hgt
  have hleast : (2 : ℚ) ^ f.fractionBits ≤ -least := by exact_mod_cast h
  obtain ⟨n, hn⟩ := @exists_int_of_le_abs f pattern (by
    refine hleast.trans (le_trans ?_ (neg_le_abs _))
    linarith)
  rw [hn] at hlt hgt
  have hlt' : least - 1 < n := by exact_mod_cast hlt
  have hgt' : ¬ least ≤ n := fun hle => hgt (by exact_mod_cast hle)
  omega

end Ssa.FloatFormat

namespace Lowering

open Draft

/-- A number lies between the bounds of a range. -/
def TruncRange.Admits (range : TruncRange) (q : ℚ) : Prop :=
  (if range.inclusive then (range.lower : ℚ) ≤ q else range.lower < q) ∧ q < range.upper

section Range

variable (source : FloatWidth) (target : IntWidth) (signed : Bool)

theorem TruncRange.of_bounds :
    (TruncRange.of source.scalar target.bits signed).upper = target.greatest signed + 1 ∧
    ((TruncRange.of source.scalar target.bits signed).inclusive = false ∧
        (TruncRange.of source.scalar target.bits signed).lower = target.least signed - 1 ∨
      (TruncRange.of source.scalar target.bits signed).inclusive = true ∧
        (TruncRange.of source.scalar target.bits signed).lower = target.least signed ∧
        2 ^ source.format.fractionBits ≤ -target.least signed) := by
  cases source <;> cases target <;> cases signed <;> decide

/-- The bounds are numbers that the source type has. -/
theorem TruncRange.of_exact :
    (∃ e c, source.format.Exact (TruncRange.of source.scalar target.bits signed).lower e c) ∧
      ∃ e c, source.format.Exact (TruncRange.of source.scalar target.bits signed).upper e c := by
  refine ⟨⟨if signed then target.bits - 1 else 0,
    if signed ∧ source = .w64 ∧ target = .w32 then 2 ^ 21 else 0, ?_⟩,
    if signed then target.bits - 1 else target.bits, 0, ?_⟩
  -- The significant bits of the lower bounds.
  · cases source <;> cases target <;> cases signed <;> constructor <;> decide
  -- The upper bounds are powers of two.
  · cases source <;> cases target <;> cases signed <;> constructor <;> decide

variable {source target signed}

/-- The bounds admit exactly the numbers whose conversion is in range. -/
theorem TruncRange.admits_iff (pattern : Nat) :
    (TruncRange.of source.scalar target.bits signed).Admits (source.format.finiteValue pattern) ↔
      target.least signed ≤ truncate (source.format.finiteValue pattern) ∧
        truncate (source.format.finiteValue pattern) ≤ target.greatest signed := by
  have hleast : target.least signed ≤ 0 := by cases target <;> cases signed <;> decide
  have hgreatest : 0 ≤ target.greatest signed := by cases target <;> cases signed <;> decide
  obtain ⟨hupper, hlower⟩ := TruncRange.of_bounds source target signed
  rw [le_truncate_iff hleast, truncate_le_iff hgreatest, Admits, hupper]
  refine and_congr ?_ (by push_cast; rfl)
  -- The predecessor is excluded, or the least integer is included.
  obtain ⟨hinclusive, hlower⟩ | ⟨hinclusive, hlower, hlarge⟩ := hlower
  · rw [hinclusive, hlower]
    push_cast
    rfl
  · rw [hinclusive, hlower, if_pos rfl, FloatFormat.le_finiteValue_iff hlarge]

/-- The two comparisons hold for the numbers between the bounds. -/
theorem TruncRange.holds_iff (range : TruncRange) (x : Option (WithBotTop ℚ)) :
    ((if range.inclusive then FloatPredicate.oge else .ogt).holds x (some (range.lower : ℚ)) &&
        FloatPredicate.olt.holds x (some (range.upper : ℚ))) = true ↔
      ∃ q : ℚ, x = some (q : WithBotTop ℚ) ∧ range.Admits q := by
  rcases x with _ | x
  · cases range.inclusive <;> simp [FloatPredicate.holds]
  -- An infinity fails one of the comparisons.
  induction x using WithBotTop.rec with
  | bot =>
    cases range.inclusive <;>
      simp [FloatPredicate.holds, FloatPredicate.compares, (WithBotTop.coe_ne_bot _).symm]
  | top =>
    cases range.inclusive <;>
      simp [FloatPredicate.holds, FloatPredicate.compares, (WithBotTop.coe_ne_top _).symm]
  | coe q =>
    cases hi : range.inclusive <;>
      simp [FloatPredicate.holds, FloatPredicate.compares, TruncRange.Admits, hi,
        WithBotTop.coe_injective.eq_iff]

/-- The two comparisons hold if and only if the conversion is in range. -/
private theorem truncates_iff {x : Scalar} (htype : x.type = source.scalar) :
    (∃ q : ℚ, x.number = some (q : WithBotTop ℚ) ∧
        (TruncRange.of source.scalar target.bits signed).Admits q) ↔
      Truncates target signed x.number := by
  -- The operand is a float of the source type, so it has a bit pattern.
  obtain ⟨pattern, hnumber⟩ : ∃ pattern, x.number = source.format.number pattern := by
    cases source with
    | w32 =>
      cases x with
      | float => exact ⟨_, rfl⟩
      | _ => cases htype
    | w64 =>
      cases x with
      | double => exact ⟨_, rfl⟩
      | _ => cases htype
  rw [hnumber]
  refine exists_congr fun q => and_congr_right fun hq => ?_
  rw [FloatFormat.eq_finiteValue hq]
  exact TruncRange.admits_iff pattern

end Range

/-! ## Checks -/

section Checks

variable {args : List Scalar} {m : Machine} {a b : Operand} {x y : Scalar} {source : FloatWidth}

/-- The constant for a whole number that is exact stands for this number. -/
private theorem eval_constant {n : Int} {e c : Nat} (h : source.format.Exact n e c) :
    ∃ y, m.eval args (source.scalar.constant n) = some y ∧ y.type = source.scalar ∧
      y.number = some ((n : ℚ) : WithBotTop ℚ) := by
  have hlt := h.ofInt_lt
  -- The pattern fits the width, so it is not cut off.
  cases source with
  | w32 =>
    refine ⟨_, rfl, rfl, ?_⟩
    rw [← FloatFormat.number_ofInt h]
    exact congrArg FloatFormat.single.number (UInt32.toNat_ofNat'.trans (Nat.mod_eq_of_lt hlt))
  | w64 =>
    refine ⟨_, rfl, rfl, ?_⟩
    rw [← FloatFormat.number_ofInt h]
    exact congrArg FloatFormat.double.number (UInt64.toNat_ofNat'.trans (Nat.mod_eq_of_lt hlt))

/-- A comparison with a bound. -/
private theorem calculate_bound (hx : m.eval args a = some x) (htype : x.type = source.scalar)
    (predicate : FloatPredicate) {n : Int} (h : ∃ e c, source.format.Exact n e c) :
    m.calculate args (.fcmp predicate a (source.scalar.constant n)) =
      some (.int 1 (BitVec.ofBool (predicate.holds x.number (some (n : ℚ))))) := by
  obtain ⟨e, c, h⟩ := h
  obtain ⟨y, hy, hytype, hnumber⟩ := @eval_constant args m source n e c h
  have hfloat : source.scalar.isFloat = true := by cases source <;> rfl
  simp [Machine.calculate, hx, hy, htype, hytype, hfloat, hnumber]

/-- Two checks together. -/
private theorem calculate_and {b c : Operand} {p q : Bool}
    (hb : m.eval args b = some (.int 1 (BitVec.ofBool p)))
    (hc : m.eval args c = some (.int 1 (BitVec.ofBool q))) :
    m.calculate args (.binary .and b c) = some (.int 1 (BitVec.ofBool (p && q))) := by
  refine Machine.calculate_of_compute ?_
  rw [Machine.compute_binary hb hc, BinaryOp.apply, BitVec.ofBool_and_ofBool]
  rfl

/-- The checks of a conversion run, and the last one says whether the conversion is in range. -/
private theorem proceeds_checks (f : Ssa.Function) {target : IntWidth} {signed : Bool}
    {next : ValueId} {rest : List Line}
    (hrest : m.rest = assignments next (truncChecks a target.scalar signed next) ++ rest)
    (hx : m.eval args a = some x) (htype : x.type = source.scalar) (hnext : a.Below next) :
    ∃ m' holds, f.Proceeds args m m' ∧ m'.rest = rest ∧
      m'.eval args (.result (next + 2) (.int 1)) = some (.int 1 (BitVec.ofBool holds)) ∧
      (holds = true ↔ Truncates target signed x.number) := by
  have hatype : a.type = source.scalar := (Machine.type_eval hx).symm.trans htype
  obtain ⟨hlower, hupper⟩ := TruncRange.of_exact source target signed
  -- Which bounds these are does not matter from here on.
  generalize hrange : TruncRange.of source.scalar target.bits signed = range at hlower hupper
  simp only [truncChecks, hatype, IntWidth.scalar, ScalarType.bits, hrange, assignments,
    List.cons_append, List.nil_append] at hrest
  let predicate : FloatPredicate := if range.inclusive then .oge else .ogt
  let p := predicate.holds x.number (some (range.lower : ℚ))
  let q := FloatPredicate.olt.holds x.number (some (range.upper : ℚ))
  let both : Line :=
    .assign (next + 2) (.binary .and (.result next (.int 1)) (.result (next + 1) (.int 1)))
  let m₁ := m.define next (.scalar (.int 1 (BitVec.ofBool p)))
    (.assign (next + 1) (.fcmp .olt a (source.scalar.constant range.upper)) :: both :: rest)
  let m₂ := m₁.define (next + 1) (.scalar (.int 1 (BitVec.ofBool q))) (both :: rest)
  have hlow : f.Proceeds args m m₁ :=
    Function.proceeds_assign hrest (calculate_bound hx htype predicate hlower)
  -- The operand has a smaller number than the values that are made.
  have hx₁ : m₁.eval args a = some x :=
    (Machine.eval_define_of_notMem fun hmem => Nat.lt_irrefl _ (hnext _ hmem)).trans hx
  have hhigh : f.Proceeds args m₁ m₂ :=
    Function.proceeds_assign rfl (calculate_bound hx₁ htype .olt hupper)
  have hp : m₂.eval args (.result next (.int 1)) = some (.int 1 (BitVec.ofBool p)) :=
    (Machine.eval_define_of_notMem (by simp [Operand.ids])).trans (Machine.eval_define_int ..)
  have hboth := Function.proceeds_assign (f := f) (m := m₂) rfl
    (calculate_and hp (Machine.eval_define_int ..))
  refine ⟨_, p && q, hlow.trans (hhigh.trans hboth), rfl, Machine.eval_define_int .., ?_⟩
  rw [← truncates_iff htype, hrange, ← TruncRange.holds_iff]

end Checks

/-! ## Lowered conversions -/

/-- A conditional branch enters one of its targets. -/
private theorem advance_condBr {f : Ssa.Function} {args : List Scalar} {m m' : Machine}
    {condition : Operand} {ifTrue ifFalse : Label} {rest : List Line} {b : Bool}
    (hrest : m.rest = .condBr condition ifTrue ifFalse :: rest)
    (hcondition : m.eval args condition = some (.int 1 (BitVec.ofBool b)))
    (henter : f.enter args m (if b then ifTrue else ifFalse) = some m') :
    f.advance args m = some (.next m') := by
  refine Function.advance_of_step ?_
  rw [Function.step, hrest]
  cases b <;> simp_all

/-- A checked conversion takes one operand, checks it, and goes on in a new block. -/
private theorem convert_trunc_eq_ok {s t : State} {source : FloatWidth} {target : IntWidth}
    {signed : Bool} (h : s.convert (.trunc source target signed) = .ok t) :
    ∃ (xs : Array Operand) (a v : Operand), s.stack = xs.push a ∧ t.stack = xs.push v ∧
      t.constructs = s.constructs ∧
      t.draft =
        ((s.draft.assigned (truncChecks a target.scalar signed s.draft.nextValue)).guard
          (.result (s.draft.nextValue + 2) (.int 1))).assigned
            [.cast (if signed then .fptosi else .fptoui) a target.scalar] := by
  obtain ⟨⟨a, u⟩, hp, h⟩ := bind_eq_ok.1 h
  obtain ⟨xs, hstack, -, rfl⟩ := State.pop_eq_ok.1 hp
  obtain ⟨scalar, hscalar, h⟩ := bind_eq_ok.1 h
  obtain rfl : target.scalar = scalar := by
    cases target <;> exact Except.ok.inj hscalar
  have ht := Except.ok.inj h
  rw [truncChecked_fields] at ht
  subst ht
  exact ⟨xs, a, _, hstack, rfl, rfl, rfl⟩

section Blocks

variable {f : Ssa.Function} {args : List Scalar} {m : Machine} {t last : State} {l : Label}

/-- A block that is no end block is entered with all values as they are. -/
theorem Lowered.enter_plain (hl : Lowered f last) (hm : Moves t last) (hd : t.Disciplined)
    (hmem : l ∈ t.draft.labels) (hrole : l.role.joins = false) :
    f.enter args m l = some { m with block := l, rest := last.draft.code l } := by
  have hmem' := Moves.labels hm hd hmem
  exact hl.enter_start hmem' (hl.disciplined.sound.noPhis l hmem' hrole)

/-- A block that traps is finished at once. -/
private theorem advance_trap (hm : Moves t last) (hd : t.Disciplined) (hmem : l ∈ t.draft.labels)
    (hwait : l ∉ t.waiting) (hentry : l ≠ entryLabel)
    (hcode : t.draft.code l = [.trap, .unreachable]) :
    f.advance args { m with block := l, rest := last.draft.code l } = some (.ends .trap) := by
  obtain ⟨back, hback, -⟩ := (Moves.extended hm hd hmem hwait).append hentry
  refine Function.advance_of_step ?_
  rw [hback, hcode]
  rfl

end Blocks

/-- A lowered conversion compares its operand with two bounds, and branches on whether it lies
    between them. Whatever float the operand is, this is so if and only if the float is finite and
    the conversion is in range. If so, the run goes on where the lowering went on; if not, it
    traps. -/
theorem truncations_check_range {types : Array FuncType} {index : Nat} {func : UInt32}
    {type : FuncType} {intrinsics table : IntrinsicTable} {input : Bytes} {f : Ssa.Function}
    (h : lowerFunction types index func type intrinsics input = .ok (f, table))
    {done : List Operator} {s t : State} {source : FloatWidth} {target : IntWidth} {signed : Bool}
    (hs : Boundary types type intrinsics input done s)
    (ht : Boundary types type intrinsics input
      (done ++ [.convert (.trunc source target signed)]) t)
    (live : s.phase = .live) :
    ∃ (xs : Array Operand) (a v condition : Operand) (trap : Label),
      s.stack = xs.push a ∧ t.stack = xs.push v ∧
      trap.role = .truncTrap ∧ t.draft.current.role = .truncOk ∧
      t.draft.code s.draft.current = s.draft.code s.draft.current ++
        (assignments s.draft.nextValue (truncChecks a target.scalar signed s.draft.nextValue) ++
          [.condBr condition t.draft.current trap]) ∧
      ∀ (args : List Scalar) (m : Machine) (x : Scalar), StandsAt f s m →
        m.eval args a = some x → x.type = source.scalar →
        ∃ m₁ rest holds, f.Proceeds args m m₁ ∧
          m₁.rest = .condBr condition t.draft.current trap :: rest ∧
          m₁.eval args condition = some (.int 1 (BitVec.ofBool holds)) ∧
          (holds = true ↔ Truncates target signed x.number) ∧
          (Truncates target signed x.number →
            ∃ m₂, f.advance args m₁ = some (.next m₂) ∧ m₂.block = t.draft.current) ∧
          (¬ Truncates target signed x.number →
            ∃ m₂, f.advance args m₁ = some (.next m₂) ∧ m₂.block = trap ∧
              f.advance args m₂ = some (.ends .trap)) := by
  obtain ⟨hstep, hd, hm, last, hlast, hl⟩ := Boundary.around h hs ht
  rw [State.step, live] at hstep
  obtain ⟨xs, a, v, hstack, hstack', hconstructs, hdraft⟩ := convert_trunc_eq_ok hstep
  obtain ⟨trap, hrole, hnew, hmem, hpass, htrap, hcode⟩ :=
    exists_trap (live ▸ hd.sound) _ _ _ hdraft
  have hd' := Moves.disciplined hm hd
  -- Lines that are no slots for results stay where they were added.
  have hlines : ∀ line ∈ assignments s.draft.nextValue
      (truncChecks a target.scalar signed s.draft.nextValue) ++
        [.condBr (.result (s.draft.nextValue + 2) (.int 1)) t.draft.current trap],
      line.isReturnSlot = false := by
    intro line hline
    obtain hline | hline := List.mem_append.1 hline
    · obtain ⟨id, rhs, rfl⟩ := exists_of_mem_assignments hline
      rfl
    · rw [List.mem_singleton.1 hline]
      rfl
  -- The operand is older than the values of the checks.
  have hbelow : a.Below s.draft.nextValue := by
    have hordered := Moves.ordered hs.moves.1 (State.disciplined_initial ..)
      (State.framed_initial ..) (State.ordered_initial ..)
    exact hordered.stack a (by simp [hstack])
  refine ⟨xs, a, v, _, trap, hstack, hstack', hrole, hpass, hcode,
    fun args m x hstands hx htype => ?_⟩
  obtain ⟨rest, hrest, -⟩ := hstands.split hl hd hm hlast hcode hlines
  rw [List.append_assoc] at hrest
  obtain ⟨m₁, holds, hproceeds, hrest₁, hcondition, hholds⟩ :=
    proceeds_checks f hrest hx htype hbelow
  refine ⟨m₁, rest, holds, hproceeds, hrest₁, hcondition, hholds, fun htruncates => ?_,
    fun hout => ?_⟩
  -- Both comparisons hold, and control goes on in the next block.
  · refine ⟨{ m₁ with block := t.draft.current, rest := last.draft.code t.draft.current },
      advance_condBr hrest₁ hcondition ?_, rfl⟩
    rw [if_pos (hholds.2 htruncates)]
    exact hl.enter_plain hlast hd' hd'.sound.current_mem (by rw [hpass]; rfl)
  -- One of them fails, and the block that is entered then has nothing but a trap.
  · refine ⟨{ m₁ with block := trap, rest := last.draft.code trap },
      advance_condBr hrest₁ hcondition ?_, rfl, ?_⟩
    · rw [if_neg (mt hholds.1 hout)]
      exact hl.enter_plain hlast hd' hmem (by rw [hrole]; rfl)
    -- The new block does not wait, and it is not the entry block.
    · refine advance_trap hlast hd' hmem (fun hwait => ?_) (fun hentry => ?_) htrap
      · rw [State.waiting, hconstructs] at hwait
        exact hnew (hd.sound.waiting_mem trap hwait)
      · rw [hentry] at hrole
        cases hrole

/-- The number right above the predecessor of the least integer of 32 bits is converted. -/
theorem truncations_check_range_extreme :
    ∃ f table b m', lowerFunction #[] 0 0 { results := [.i32] } {}
        [0x00, 0x44, 0xFF, 0xFF, 0x1F, 0x00, 0x00, 0x00, 0xE0, 0xC1, 0xAA, 0x0B] = .ok (f, table) ∧
      f.blocks.head? = some b ∧
      f.Proceeds [] { block := b.label, rest := b.lines.toList } m' ∧ m'.block.role = .truncOk := by
  let input : Bytes := [0x00, 0x44, 0xFF, 0xFF, 0x1F, 0x00, 0x00, 0x00, 0xE0, 0xC1, 0xAA, 0x0B]
  let operand : Operand := .double 0xC1E00000001FFFFF
  let b : Block := ⟨entryLabel,
    #[.assign 0 (.fcmp .ogt operand (.double 0xC1E0000000200000)),
      .assign 1 (.fcmp .olt operand (.double 0x41E0000000000000)),
      .assign 2 (.binary .and (.result 0 (.int 1)) (.result 1 (.int 1))),
      .condBr (.result 2 (.int 1)) ⟨.truncOk, 2⟩ ⟨.truncTrap, 1⟩]⟩
  -- The least double that is truncated to a signed integer of 32 bits.
  have hrange : Truncates .w32 true (Scalar.double 0xC1E00000001FFFFF).number := by
    refine ⟨-(4503599629467647 / 2097152), ?_, ?_, ?_⟩
    · show FloatFormat.double.number 0xC1E00000001FFFFF = _
      norm_num [FloatFormat.number, FloatFormat.double, FloatFormat.finiteValue,
        FloatFormat.isNegative, FloatFormat.magnitude, FloatFormat.significand,
        FloatFormat.unitExponent, FloatFormat.exponent, FloatFormat.fraction, FloatFormat.bias]
    · rw [le_truncate_iff (by decide)]
      norm_num [IntWidth.least, IntWidth.bits]
    · rw [truncate_le_iff (by decide)]
      norm_num [IntWidth.greatest, IntWidth.bits]
  have hok : (lowerFunction #[] 0 0 { results := [.i32] } {} input).toOption.isSome = true := by
    decide +kernel
  obtain ⟨⟨f, table⟩, h⟩ := exists_ok_of_isSome hok
  have hfirst : (lowerFunction #[] 0 0 { results := [.i32] } {} input).toOption.bind
      (·.1.blocks.head?) = some b := by decide +kernel
  rw [h] at hfirst
  have hbody : Body.read #[] [] input =
      .ok ⟨[], [(0x44, .f64Const 0xC1E00000001FFFFF), (0xAA, .convert (.trunc .w64 .w32 true)),
        (0x0B, .endBlock)], none⟩ := by decide +kernel
  -- The states before and after the conversion.
  have hs : Boundary #[] { results := [.i32] } {} input [.f64Const 0xC1E00000001FFFFF] _ :=
    ⟨_, _, hbody, rfl, by simp [List.cons_prefix_cons], rfl⟩
  have ht : Boundary #[] { results := [.i32] } {} input
      ([.f64Const 0xC1E00000001FFFFF] ++ [.convert (.trunc .w64 .w32 true)]) _ :=
    ⟨_, _, hbody, rfl, by simp [List.cons_prefix_cons], rfl⟩
  obtain ⟨xs, a, v, condition, trap, hstack, -, -, hrole, -, hruns⟩ :=
    truncations_check_range h hs ht rfl
  obtain ⟨rfl, -⟩ := Array.push_eq_push.1 (hstack : #[].push _ = _)
  obtain ⟨m₁, rest, holds, hproceeds, -, -, -, hpass, -⟩ :=
    hruns [] { block := b.label, rest := b.lines.toList } _
      ⟨rfl, b, List.mem_of_head? hfirst, rfl, [], rfl, by simp, by simp [b, Line.isReturnSlot]⟩
      rfl rfl
  obtain ⟨m₂, hstep, hblock⟩ := hpass hrange
  exact ⟨f, table, b, m₂, h, hfirst, hproceeds.tail hstep, hblock ▸ hrole⟩

end Lowering

end WasmLowering
