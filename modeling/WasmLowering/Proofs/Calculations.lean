import WasmLowering.Proofs.FloatValues
import WasmLowering.Proofs.SemanticPreservation

/-!
# Runs with divisions and comparisons of floats

The runs of lowered functions are extended by two kinds of computations: divisions of integers and
comparisons of floats. A division by zero has no defined result, and neither have a signed quotient
that overflows and the remainder that belongs to it. Floats are compared as the exact numbers that
they stand for.

A machine stands where the lowering stood in some state if it has yet to run the lines that the
insertion block got from this state on.

## Key results

- `BinaryOp.divide`: divisions
- `Machine.calculate`, `Function.advance`, `Function.Proceeds`: the extended runs
- `StandsAt`: machines between the lines of two operators
- `StandsAt.split`: the lines that an operator appended are the next ones to run
-/

namespace WasmLowering.Ssa

/-! ## Computations -/

/-- The result of a division. The quotient of the least number by `-1` is not a number of the same
    width, and the remainder of this division is undefined along with the quotient. -/
def BinaryOp.divide {n : Nat} (a b : BitVec n) : BinaryOp → Option (BitVec n)
  | sdiv => if b = 0 ∨ (a = .intMin n ∧ b = -1) then none else some (a.sdiv b)
  | udiv => if b = 0 then none else some (a.udiv b)
  | srem => if b = 0 ∨ (a = .intMin n ∧ b = -1) then none else some (a.srem b)
  | urem => if b = 0 then none else some (a.umod b)
  | _ => none

/-- Whether values of a type are floats. -/
def ScalarType.isFloat : ScalarType → Bool
  | float | double => true
  | int _ => false

/-- The number that a float stands for. -/
def Scalar.number : Scalar → Option (WithBotTop ℚ)
  | int _ _ => none
  | float pattern => FloatFormat.single.number pattern.toNat
  | double pattern => FloatFormat.double.number pattern.toNat

/-- The value of a computation, with divisions and comparisons of floats. -/
def Machine.calculate (args : List Scalar) (m : Machine) : Rhs → Option Scalar
  | .binary op a b =>
    match m.eval args a, m.eval args b with
    | some (.int n a), some (.int k b) =>
      if h : k = n then
        ((op.apply a (b.cast h)).or (op.divide a (b.cast h))).map (.int n)
      else none
    | _, _ => none
  | .fcmp predicate a b =>
    match m.eval args a, m.eval args b with
    | some x, some y =>
      if x.type = y.type ∧ x.type.isFloat then
        some (.int 1 (BitVec.ofBool (predicate.holds x.number y.number)))
      else none
    | _, _ => none
  | rhs => m.compute args rhs

/-! ## Runs -/

namespace Function

variable (f : Function) (args : List Scalar)

/-- What the next line does, with divisions and comparisons of floats. -/
def advance (m : Machine) : Option Machine.Step :=
  match m.rest with
  | .assign id rhs :: rest =>
    (m.calculate args rhs).map fun x => .next (m.define id (.scalar x) rest)
  | _ => f.step args m

/-- A number of steps that lead from one state to another, with divisions and comparisons of
    floats. -/
def Proceeds : Machine → Machine → Prop :=
  Relation.ReflTransGen fun m m' => f.advance args m = some (.next m')

end Function

section Runs

variable {args : List Scalar} {m m' : Machine} {f : Function} {rhs : Rhs} {x : Scalar}

/-- The computations that were there before keep their values. -/
theorem Machine.calculate_of_compute (h : m.compute args rhs = some x) :
    m.calculate args rhs = some x := by
  cases rhs with
  | binary op a b =>
    simp only [compute] at h
    split at h
    next ha hb =>
      split at h
      -- Both operations are on integers of one width.
      next hwidth =>
        subst hwidth
        obtain ⟨p, hp, rfl⟩ := Option.map_eq_some_iff.1 h
        simp only [calculate, ha, hb, BitVec.cast_eq, dite_true] at hp ⊢
        rw [hp]
        rfl
      · cases h
    · cases h
  | fcmp => cases h
  | _ => exact h

/-- The steps that were there before are still taken. -/
theorem Function.advance_of_step {r : Machine.Step} (h : f.step args m = some r) :
    f.advance args m = some r := by
  unfold Function.advance
  split
  next id rhs rest hrest =>
    simp only [Function.step, hrest] at h
    obtain ⟨x, hx, rfl⟩ := Option.map_eq_some_iff.1 h
    rw [Machine.calculate_of_compute hx]
    rfl
  · exact h

theorem Function.advance_assign {id : ValueId} {rest : List Line}
    (hrest : m.rest = .assign id rhs :: rest) :
    f.advance args m =
      (m.calculate args rhs).map fun x => .next (m.define id (.scalar x) rest) := by
  rw [Function.advance, hrest]

/-- A computation that has a value leads on to the next line. -/
theorem Function.proceeds_assign {id : ValueId} {rest : List Line}
    (hrest : m.rest = .assign id rhs :: rest) (hx : m.calculate args rhs = some x) :
    f.Proceeds args m (m.define id (.scalar x) rest) := by
  refine .single ?_
  rw [Function.advance_assign hrest, hx]
  rfl

end Runs

end WasmLowering.Ssa

namespace WasmLowering.Lowering

open Ssa Draft

/-! ## Machines between operators -/

/-- A machine stands where the lowering stood in the state `s`: it is in the block that was the
    insertion block, and it has yet to run the lines that this block of the function got from then
    on. Slots for returned structures may have come in front of the block. -/
def StandsAt (f : Ssa.Function) (s : State) (m : Machine) : Prop :=
  m.block = s.draft.current ∧ ∃ b ∈ f.blocks, b.label = m.block ∧
    ∃ front, b.lines.toList = front ++ s.draft.code m.block ++ m.rest ∧
      (∀ line ∈ front, line.isReturnSlot = true) ∧ ∀ line ∈ m.rest, line.isReturnSlot = false

section StandsAt

variable {f : Ssa.Function} {last s t : State} {m : Machine}

/-- What is left to run is what the finished block has after the lines of the state. -/
private theorem standsAt_iff (hl : Lowered f last) (hm : Moves s last) (hd : s.Disciplined) :
    StandsAt f s m ↔ m.block = s.draft.current ∧ Remaining s last m.rest := by
  have hlabel : s.draft.current ∈ last.draft.labels := Moves.labels hm hd hd.sound.current_mem
  have hn := hl.disciplined.sound.numbered
  constructor
  -- The lines that follow those of the state are the same from either side.
  · rintro ⟨hblock, b, hb, hbl, front, hlines, hfront, hrest⟩
    obtain ⟨rest, front', hcode, hfront', hback⟩ := Moves.remaining hm hd
    have hcode' := ((mem_finish hn).1 (hl.blocks ▸ hb)).2
    rw [hbl, hblock, hlines, hblock, hcode] at hcode'
    obtain rfl := back_unique hcode' hfront hrest hfront' fun line h => (hback line h).2
    exact ⟨hblock, front', hcode, hfront', hback⟩
  · rintro ⟨hblock, front, hcode, hfront, hback⟩
    obtain ⟨b, hfind, hlines⟩ := hl.find_block hlabel
    refine ⟨hblock, b, List.mem_of_find?_eq_some hfind, ?_, front, ?_, hfront,
      fun line h => (hback line h).2⟩
    · rw [hblock]
      simpa using List.find?_some hfind
    · rw [hlines, hblock, hcode]

/-- The lines that an operator appended to the insertion block are the next ones to run. -/
theorem StandsAt.split (h : StandsAt f s m) (hl : Lowered f last) (hd : s.Disciplined)
    (hm : Moves s t) (hlast : Moves t last) {new : List Line}
    (hcode : t.draft.code s.draft.current = s.draft.code s.draft.current ++ new)
    (hnew : ∀ line ∈ new, line.isReturnSlot = false) :
    ∃ rest, m.rest = new ++ rest ∧ ∀ m', t.draft.current = s.draft.current →
      m'.block = m.block → m'.rest = rest → StandsAt f t m' := by
  obtain ⟨hblock, hremaining⟩ := (standsAt_iff hl (hm.trans hlast) hd).1 h
  replace hcode : t.draft.code s.draft.current = [] ++ s.draft.code s.draft.current ++ new := hcode
  obtain ⟨rest, hrest, hafter⟩ := hremaining.split hm hlast hd hcode (by simp) hnew
  refine ⟨rest, hrest, fun m' hcurrent hblock' hrest' => ?_⟩
  refine (standsAt_iff hl hlast (Moves.disciplined hm hd)).2 ⟨?_, ?_⟩
  · rw [hblock', hblock, hcurrent]
  · rw [hrest']
    exact hafter hcurrent

end StandsAt

/-- What is known around an operator of a function that was lowered. -/
theorem Boundary.around {types : Array FuncType} {type : FuncType}
    {intrinsics table : IntrinsicTable} {input : Bytes} {index : Nat} {func : UInt32}
    {f : Ssa.Function} {done : List Operator} {op : Operator} {s t : State}
    (h : lowerFunction types index func type intrinsics input = .ok (f, table))
    (hs : Boundary types type intrinsics input done s)
    (ht : Boundary types type intrinsics input (done ++ [op]) t) :
    s.step op = .ok t ∧ s.Disciplined ∧ Moves s t ∧ ∃ last, Moves t last ∧ Lowered f last := by
  have hstep := hs.step ht
  obtain ⟨rest, last, hlast, hsteps, hblocks⟩ := ht.last h
  obtain ⟨body, start, -, hstart, -, hrun⟩ := hlast
  exact ⟨hstep, hs.disciplined, step_moves hs.moves.2 hstep, last, steps_moves ht.moves.2 hsteps,
    lowered_of_steps hstart hrun hblocks⟩

end WasmLowering.Lowering
