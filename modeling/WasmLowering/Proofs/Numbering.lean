import WasmLowering.Proofs.Discipline
import WasmLowering.Proofs.Run

/-!
# Order of value numbers

Values are numbered in the order in which they are made, and the phis of a construct are made when
the construct is entered. So the operands below a construct have smaller numbers than its phis, and
all operands on the stack have smaller numbers than the values still to come. Running the code of a
construct again, or entering its end block, leaves the operands below it as they are.

## Key results

- `Move.ordered`, `Moves.ordered`: the order is kept along a run
-/

namespace WasmLowering.Ssa

/-- The operand refers to values with numbers below `n` only. -/
def Operand.Below (n : ValueId) (v : Operand) : Prop :=
  ∀ id ∈ v.ids, id < n

theorem Operand.Below.mono {n k : ValueId} {v : Operand} (h : v.Below n) (hle : n ≤ k) :
    v.Below k :=
  fun id hid => Nat.lt_of_lt_of_le (h id hid) hle

theorem Operand.below_of_ids {n : ValueId} {v : Operand} (h : v.ids = []) : v.Below n := by
  simp [Operand.Below, h]

/-- The values of phis are below the first number behind them. -/
private theorem below_phiValues {first : ValueId} {types : List ScalarType} {v : Operand}
    (h : v ∈ phiValues first types) : v.Below (first + types.length) := by
  induction types generalizing first with
  | nil => cases h
  | cons type types ih =>
    rw [List.length_cons]
    obtain rfl | h := List.mem_cons.1 h
    · intro id hid
      rw [List.mem_singleton.1 hid]
      exact Nat.lt_add_of_pos_right (Nat.succ_pos _)
    · exact (ih h).mono (Nat.le_of_eq (Nat.add_right_comm first 1 types.length))

end WasmLowering.Ssa

namespace WasmLowering.Lowering

open Ssa Draft

/-! ## Operand stacks -/

section Stacks

variable {s : State} {c : Construct} {rest : List Construct}

private theorem toList_alternated (other : Label) (params : Array Operand) :
    (s.alternated c rest other params).stack.toList =
      s.stack.toList.take c.base ++ params.toList := by
  simp [State.alternated]

theorem toList_left :
    (s.left c rest).stack.toList = s.stack.toList.take c.base ++ s.resultsAfter c := by
  simp [State.left, Array.toList_appendList]

/-- A construct leaves phis or zeros. -/
private theorem mem_resultsAfter {v : Operand} (h : v ∈ s.resultsAfter c) :
    v ∈ c.results ∨ v.ids = [] := by
  obtain ⟨i, hi, rfl⟩ := List.mem_mapIdx.1 h
  split
  · split
    · exact .inr (ScalarType.ids_zero _)
    · exact .inl (List.getElem_mem _)
  · exact .inl (List.getElem_mem _)

end Stacks

/-! ## States -/

/-- The results of a construct are numbered behind what lies below it. -/
def Construct.Ordered (next : ValueId) (stack : List Operand) (c : Construct) : Prop :=
  ∃ first types, c.results = phiValues first types ∧ first + types.length ≤ next ∧
    (∀ v ∈ stack.take c.base, v.Below first) ∧
    ∀ other params, c.kind = .thenArm other params → ∀ v ∈ params, v.Below first

/-- Operands are numbered in the order in which they were made. -/
structure State.Ordered (s : State) : Prop where
  stack : ∀ v ∈ s.stack, v.Below s.draft.nextValue
  constructs : ∀ c ∈ s.constructs, c.Ordered s.draft.nextValue s.stack.toList

section Ordered

variable {s t : State}

theorem State.Ordered.holds (h : s.Ordered) {v : Operand} (hv : s.Holds v) :
    v.Below s.draft.nextValue :=
  hv.elim (h.stack v) Operand.below_of_ids

/-- No move takes a number back. -/
theorem Move.next_le (hm : Move s t) (hd : s.Disciplined) :
    s.draft.nextValue ≤ t.draft.nextValue := by
  obtain ⟨hadds, -⟩ | ⟨depth, c, rest, other, params, -, -, -, -, rfl⟩ |
    ⟨depth, c, rest, -, -, -, -, rfl⟩ := hm.shape hd
  · exact hadds.next
  · exact Nat.le_refl _
  · exact Nat.le_refl _

/-- The order after a move, from what the move does to the operands and to the constructs. -/
theorem State.Ordered.move (h : s.Ordered) (hm : Move s t) (hd : s.Disciplined) (hf : s.Framed)
    (hstack : ∀ v ∈ t.stack, v.Below t.draft.nextValue)
    (hconstructs : ∀ c ∈ t.constructs,
      c ∈ s.constructs ∨ c.Ordered t.draft.nextValue t.stack.toList) : t.Ordered where
  stack := hstack
  constructs := by
    intro c hc
    obtain hc | hc := hconstructs c hc
    -- What lies below an open construct stays, and the next number only grows.
    · obtain ⟨first, types, hresults, hnext, hbelow, hparams⟩ := h.constructs c hc
      refine ⟨first, types, hresults, hnext.trans (hm.next_le hd), ?_, hparams⟩
      rw [hm.below hf hc]
      exact hbelow
    · exact hc

/-- A move that keeps the constructs and adds no operands. -/
theorem State.Ordered.keep (h : s.Ordered) (hm : Move s t) (hd : s.Disciplined) (hf : s.Framed)
    (hstack : t.stack = s.stack) (hconstructs : t.constructs = s.constructs) : t.Ordered :=
  h.move hm hd hf
    (fun v hv => (h.stack v (hstack ▸ hv)).mono (hm.next_le hd))
    fun _ hc => .inl (hconstructs ▸ hc)

/-- The construct that is opened has its results numbered from the next value on. -/
private theorem ordered_opened (h : ∀ v ∈ s.stack, v.Below s.draft.nextValue) (kind : ConstructKind)
    (role : BlockRole) (types : List ScalarType) (base : Nat)
    (hparams : ∀ other params, kind = .thenArm other params →
      ∀ v ∈ params, v.Below s.draft.nextValue) :
    ∀ c ∈ (s.opened kind role types base).constructs, c ∈ s.constructs ∨
      c.Ordered (s.opened kind role types base).draft.nextValue s.stack.toList := by
  intro c hc
  obtain rfl | hc := List.mem_cons.1 hc
  · refine .inr ⟨s.draft.nextValue, types, rfl, ?_, ?_, hparams⟩
    · simp [State.opened, Draft.newJoin]
    · exact fun v hv => h v (Array.mem_toList_iff.1 (List.mem_of_mem_take hv))
  · exact .inl hc

/-- A move keeps the order. -/
theorem Move.ordered (hm : Move s t) (hd : s.Disciplined) (hf : s.Framed) (h : s.Ordered) :
    t.Ordered := by
  have hle := hm.next_le hd
  have hkeep : ∀ v ∈ s.stack, v.Below t.draft.nextValue := fun v hv => (h.stack v hv).mono hle
  have hmove := hm
  cases hm with
  | slot | store | nop | declare | count | finish | jump | back | close | retPacked =>
    -- These moves leave the stack and the constructs as they are.
    exact h.keep hmove hd hf rfl rfl
  -- The new operand has the number that was next.
  | @compute rhs live operands slots =>
    refine h.move (.compute live operands slots) hd hf (fun v hv => ?_) fun _ hc => .inl hc
    obtain hv | rfl := Array.mem_push.1 hv
    · exact hkeep v hv
    · intro id hid
      rw [List.mem_singleton.1 hid]
      exact Nat.lt_succ_self _
  | restack base below held =>
    exact h.move (.restack base below held) hd hf (fun v hv => h.holds (held v hv))
      fun _ hc => .inl hc
  | block live arity =>
    exact h.move (.block live arity) hd hf hkeep
      (ordered_opened h.stack _ _ _ _ fun _ _ hkind => by cases hkind)
  | @loop types live base =>
    exact h.move (.loop live base) hd hf hkeep
      (@ordered_opened (s.begun .loopBegin) h.stack _ _ _ _ fun _ _ hkind => by cases hkind)
  -- The parameters of a conditional lay on the stack, so they come before its results.
  | @fork xs condition params types live stack base arity =>
    have hxs : ∀ v ∈ xs, v ∈ s.stack := fun v hv => by simp [stack, hv]
    refine h.move (.fork live stack base arity) hd hf (fun v hv => hkeep v (hxs v hv)) ?_
    refine @ordered_opened { s.restacked xs with draft := s.draft.fork condition }
      (fun v hv => h.stack v (hxs v hv)) _ _ _ _ fun other params' hkind v hv => ?_
    obtain ⟨rfl, rfl⟩ := ConstructKind.thenArm.inj hkind
    exact h.stack v (hxs v (mem_of_mem_top hv))
  | @guard xs condition live stack base =>
    exact h.move (.guard live stack base) hd hf (fun v hv => hkeep v (by simp_all))
      fun _ hc => .inl hc
  | @alternate depth c rest other params dead top kind base =>
    have hc : c ∈ s.constructs := by rw [top]; exact List.mem_cons_self
    obtain ⟨first, types, hresults, hnext, hbelow, hparams⟩ := h.constructs c hc
    have hm : Move s (s.alternated c rest other params) := .alternate dead top kind base
    -- Both what lies below the conditional and its parameters come before its results.
    have hfirst : ∀ v ∈ (s.alternated c rest other params).stack.toList, v.Below first := by
      intro v hv
      rw [toList_alternated] at hv
      obtain hv | hv := List.mem_append.1 hv
      · exact hbelow v hv
      · exact hparams other params kind v (Array.mem_toList_iff.1 hv)
    refine h.move hm hd hf (fun v hv => ?_) fun c' hc' => ?_
    · exact (hfirst v (Array.mem_toList_iff.2 hv)).mono ((Nat.le_add_right _ _).trans hnext)
    · obtain rfl | hc' := List.mem_cons.1 hc'
      · exact .inr ⟨first, types, hresults, hnext,
          fun v hv => hfirst v (List.mem_of_mem_take hv), fun _ _ hkind => by cases hkind⟩
      · exact .inl (by rw [top]; exact List.mem_cons_of_mem _ hc')
  | @leave depth c rest dead top kind base =>
    have hc : c ∈ s.constructs := by rw [top]; exact List.mem_cons_self
    obtain ⟨first, types, hresults, hnext, -, -⟩ := h.constructs c hc
    refine h.move (.leave dead top kind base) hd hf (fun v hv => ?_) fun c' hc' =>
      .inl (by rw [top]; exact List.mem_cons_of_mem _ hc')
    rw [← Array.mem_toList_iff, toList_left] at hv
    obtain hv | hv := List.mem_append.1 hv
    · exact hkeep v (Array.mem_toList_iff.1 (List.mem_of_mem_take hv))
    -- The results of the construct were numbered when it was opened.
    · obtain hv | hv := mem_resultsAfter hv
      · exact (below_phiValues (hresults ▸ hv)).mono hnext
      · exact Operand.below_of_ids hv

/-- A sequence of moves keeps the order. -/
theorem Moves.ordered (hm : Moves s t) (hd : s.Disciplined) (hf : s.Framed) (h : s.Ordered) :
    t.Ordered := by
  induction hm with
  | refl => exact h
  | tail hms hm ih => exact hm.ordered (Moves.disciplined hms hd) (Moves.framed hms hf) ih

/-- With no operands and no constructs, the order holds. -/
theorem State.ordered_initial (type : FuncType) (intrinsics : IntrinsicTable) :
    (State.initial type intrinsics).Ordered where
  stack := fun v hv => by cases Array.not_mem_empty v hv
  constructs := fun c hc => absurd hc List.not_mem_nil

end Ordered

end WasmLowering.Lowering
