import WasmLowering.Proofs.Completion
import WasmLowering.Proofs.Execution

/-!
# The parts of a construct

Where the code of a construct ends is a matter of counting the operators that open and close
constructs. The lowering counts in the same way, so the `end` that is found by counting is the one
at which the lowering closes the construct, and likewise for the `else` of a conditional.

## Key results

- `afterEnd_afterEnd`, `afterEnd_of_elseArm`: how the parts of nested constructs fit together
- `step_reopens`: what an operator does to the open constructs
- `Inside.atEnd`, `Inside.atElse`: the states at the end and at the `else` of a construct
-/

namespace WasmLowering

open Ssa

/-! ## Counting -/

section Counting

variable {op : Operator} {depth deeper : Nat} {code : List Operator}

theorem Operator.nesting_add (h : op.nesting depth = some deeper) (outer : Nat) :
    op.nesting (depth + outer) = some (deeper + outer) := by
  cases op <;> simp [Operator.nesting] at h ⊢ <;> omega

theorem afterEnd_cons (h : op.nesting depth = some deeper) :
    afterEnd depth (op :: code) = afterEnd deeper code := by
  simp [afterEnd, h]

private theorem afterEnd_end (code : List Operator) : afterEnd 0 (.endBlock :: code) = code := rfl

private theorem elseArm_cons (h : op.nesting depth = some deeper)
    (hne : ¬ (depth = 0 ∧ op = .elseBlock)) :
    elseArm depth (op :: code) = elseArm deeper code := by
  simp [elseArm, h, hne]

/-- After the end of a construct, the end of the one around it comes next. -/
theorem afterEnd_afterEnd (inner outer : Nat) (code : List Operator) :
    afterEnd outer (afterEnd inner code) = afterEnd (inner + (1 + outer)) code := by
  induction code generalizing inner with
  | nil => rfl
  | cons op code ih =>
    cases h : op.nesting inner with
    -- The inner construct ends here, so the outer one is looked for from here on.
    | none =>
      obtain ⟨rfl, rfl⟩ := Operator.nesting_eq_none.1 h
      have hnest : Operator.endBlock.nesting (0 + (1 + outer)) = some outer := by
        simp [Operator.nesting]
      rw [afterEnd_end, afterEnd_cons hnest]
    | some deeper =>
      rw [afterEnd_cons h, ih, afterEnd_cons (Operator.nesting_add h (1 + outer))]

/-- The second arm of a conditional ends where the conditional ends. -/
theorem afterEnd_of_elseArm {arm : List Operator} (h : elseArm depth code = some arm)
    (outer : Nat) : afterEnd outer arm = afterEnd (depth + outer) code := by
  induction code generalizing depth with
  | nil => cases h
  | cons op code ih =>
    by_cases helse : depth = 0 ∧ op = .elseBlock
    · -- The arm starts here, at the level of the conditional.
      obtain ⟨rfl, rfl⟩ := helse
      obtain rfl := Option.some.inj h
      rw [Nat.zero_add]
      exact (afterEnd_cons rfl).symm
    · cases hnest : op.nesting depth with
      | none => simp [elseArm, helse, hnest] at h
      | some deeper =>
        rw [elseArm_cons hnest helse] at h
        rw [afterEnd_cons (Operator.nesting_add hnest outer), ih h]

end Counting

namespace Lowering

/-! ## Open constructs -/

section Constructs

variable {s t : State} {op : Operator}

/-- The code at this point can be reached, or it became dead in the innermost construct. -/
def State.AtArmEnd (s : State) : Prop :=
  s.phase = .live ∨ s.phase = .dead 0

/-- Leaving a construct makes no slot. -/
private theorem exitTo_locals {c : Construct} (h : s.exitTo c = .ok t) : t.locals = s.locals := by
  obtain ⟨head, -, rfl⟩ | ⟨-, -, rfl⟩ := exitTo_eq_ok.1 h
  · rfl
  · rfl

/-- Leaving the last arm of a construct makes no slot. -/
private theorem exitLast_locals {c : Construct} {live : Bool} (h : s.exitLast c live = .ok t) :
    t.locals = s.locals := by
  unfold State.exitLast at h
  split at h
  · split at h
    · exact exitTo_locals h
    · exact exitTo_locals (exitArm_eq_ok.1 h).2
  · obtain rfl := Except.ok.inj h
    rfl

/-- A return makes no slot, and closes no construct. -/
private theorem ret_locals (h : s.ret = .ok t) :
    t.constructs = s.constructs ∧ t.locals = s.locals := by
  obtain ⟨-, -, fields, -, rfl⟩ := ret_eq_ok.1 h
  exact ⟨rfl, rfl⟩

/-- An `end` closes the innermost construct, if there is one, and makes no slot. -/
private theorem endBlock_constructs {live : Bool} (h : s.endBlock live = .ok t) :
    (t.constructs = s.constructs ∨ ∃ c, s.constructs = c :: t.constructs) ∧
      t.locals = s.locals := by
  cases htop : s.constructs with
  | nil =>
    have hfin : s.finishFunction live = .ok t := by
      unfold State.endBlock at h
      rwa [htop] at h
    obtain ⟨u, hu, rfl⟩ := finishFunction_eq_ok.1 hfin
    cases live with
    | false =>
      obtain rfl : s = u := by simpa using hu
      exact ⟨.inl htop, rfl⟩
    | true =>
      obtain ⟨-, hret⟩ : _ ∧ s.ret = .ok u := by simpa using hu
      exact ⟨.inl ((ret_locals hret).1.trans htop), (ret_locals hret).2⟩
  | cons c rest =>
    obtain ⟨u, hu, ⟨-, h⟩ | ⟨_, _, v, w, -, hv, hw, h⟩⟩ := (endBlock_eq_ok htop).1 h
    -- The construct is left at once.
    · have hlocals : u.locals = s.locals := exitLast_locals hu
      obtain ⟨-, rfl⟩ := leave_eq_ok.1 h
      exact ⟨.inr ⟨c, rfl⟩, hlocals⟩
    -- An arm that was not written is entered and left first.
    · have hlocals : u.locals = s.locals := exitLast_locals hu
      obtain ⟨-, rfl⟩ := startArm_eq_ok.1 hv
      have hexit : w.locals = _ := exitTo_locals hw
      obtain ⟨-, rfl⟩ := leave_eq_ok.1 h
      exact ⟨.inr ⟨c, rfl⟩, hexit.trans hlocals⟩

/-- What an operator does to the open constructs: it opens one, it goes on in another arm of the
    innermost one, it closes the innermost one, or it keeps them all. The slots of the locals are
    made before. -/
inductive Reopens (s : State) (t : State) : Operator → Prop where
  | keeps {op : Operator} (constructs : t.constructs = s.constructs) : Reopens s t op
  | opens {op : Operator} (c : Construct) (constructs : t.constructs = c :: s.constructs) :
      Reopens s t op
  | alternates {c : Construct} {rest : List Construct} (atEnd : s.AtArmEnd)
      (top : s.constructs = c :: rest)
      (constructs : t.constructs = { c with kind := .elseArm } :: rest) : Reopens s t .elseBlock
  | closes {c : Construct} (atEnd : s.AtArmEnd) (top : s.constructs = c :: t.constructs) :
      Reopens s t .endBlock

/-- An `else` goes on in the other arm of the innermost construct. -/
private theorem elseBlock_reopens {live : Bool} (hs : s.AtArmEnd) (h : s.elseBlock live = .ok t) :
    Reopens s t .elseBlock ∧ t.locals = s.locals := by
  obtain ⟨c, rest, other, params, u, htop, -, hu, -, rfl⟩ := elseBlock_eq_ok.1 h
  have hlocals : u.locals = s.locals := exitLast_locals hu
  exact ⟨.alternates hs htop rfl, hlocals⟩

/-- An `end` closes the innermost construct or the function. -/
private theorem endBlock_reopens {live : Bool} (hs : s.AtArmEnd) (h : s.endBlock live = .ok t) :
    Reopens s t .endBlock ∧ t.locals = s.locals := by
  obtain ⟨hc | ⟨c, htop⟩, hlocals⟩ := endBlock_constructs h
  · exact ⟨.keeps hc, hlocals⟩
  · exact ⟨.closes hs htop, hlocals⟩

/-- What an operator in live code does to the open constructs. -/
private theorem lower_reopens (live : s.phase = .live) (h : s.lower op = .ok t) :
    Reopens s t op ∧ t.locals = s.locals := by
  by_cases hop : op.isControl = false
  · obtain ⟨hc, -, hlocals⟩ := lower_plain hop h
    exact ⟨.keeps hc, hlocals⟩
  cases op with
  | unreachable =>
    obtain ⟨-, rfl⟩ := enterDead_eq_ok.1 h
    exact ⟨.keeps rfl, rfl⟩
  | block type =>
    obtain ⟨-, types, -, rfl⟩ := enter_eq_ok.1 h
    exact ⟨.opens _ rfl, rfl⟩
  | loop results =>
    obtain ⟨-, types, -, rfl⟩ := enter_eq_ok.1 h
    exact ⟨.opens _ rfl, rfl⟩
  | ifBlock type =>
    obtain ⟨xs, v, types, -, -, -, -, rfl⟩ := ifBlock_eq_ok.1 h
    exact ⟨.opens _ rfl, rfl⟩
  | elseBlock => exact elseBlock_reopens (.inl live) h
  | endBlock => exact endBlock_reopens (.inl live) h
  | br depth =>
    -- A branch leaves the constructs as they are.
    replace h : s.br depth.toNat = .ok t := h
    unfold State.br at h
    split at h
    · exact ⟨.keeps (ret_locals h).1, (ret_locals h).2⟩
    · split at h
      · cases h
      · obtain ⟨u, hu, h⟩ := bind_eq_ok.1 h
        obtain ⟨-, rfl⟩ := enterDead_eq_ok.1 h
        obtain ⟨head, -, rfl⟩ | ⟨-, -, rfl⟩ := exitTo_eq_ok.1 hu
        · exact ⟨.keeps rfl, rfl⟩
        · exact ⟨.keeps rfl, rfl⟩
  | ret => exact ⟨.keeps (ret_locals h).1, (ret_locals h).2⟩
  | _ => exact absurd rfl hop

/-- What an operator does to the open constructs, in live code and in dead code. -/
theorem step_reopens (h : s.step op = .ok t) : Reopens s t op ∧ t.locals = s.locals := by
  unfold State.step at h
  split at h
  next live => exact lower_reopens live h
  next depth dead =>
    -- Dead code opens and closes constructs of its own, which are only counted.
    unfold State.skip at h
    split at h
    case h_4 =>
      split at h
      next h0 => exact elseBlock_reopens (.inr (h0 ▸ dead)) h
      · obtain rfl := Except.ok.inj h
        exact ⟨.keeps rfl, rfl⟩
    case h_5 =>
      split at h
      next h0 => exact endBlock_reopens (.inr (h0 ▸ dead)) h
      · obtain rfl := Except.ok.inj h
        exact ⟨.keeps rfl, rfl⟩
    all_goals
      obtain rfl := Except.ok.inj h
      exact ⟨.keeps rfl, rfl⟩
  · obtain rfl := Except.ok.inj h
    exact ⟨.keeps rfl, rfl⟩

end Constructs

/-! ## Inside a construct -/

/-- The state is somewhere inside the construct `c`, with `depth` other constructs open in between,
    be it in code that is lowered or in dead code. -/
structure Inside (c : Construct) (outer : List Construct) (depth : Nat) (s : State) : Prop where
  split : ∃ inner, s.constructs = inner ++ c :: outer
  depth : s.depth = some (depth + (outer.length + 1))

section Inside

variable {c : Construct} {outer : List Construct} {depth deeper : Nat} {s t last : State}
  {op : Operator} {code : List Operator}

/-- With no other construct open in between, the construct is the innermost one. -/
theorem Inside.top (h : Inside c outer 0 s) : s.constructs = c :: outer ∧ s.AtArmEnd := by
  obtain ⟨inner, hsplit⟩ := h.split
  have hdepth := h.depth
  have hlen := congrArg List.length hsplit
  rw [List.length_append, List.length_cons] at hlen
  cases hphase : s.phase with
  | live =>
    rw [State.depth_of_live hphase] at hdepth
    have hinner : inner = [] := List.length_eq_zero_iff.1 (by have := Option.some.inj hdepth; omega)
    exact ⟨by rw [hsplit, hinner]; rfl, .inl hphase⟩
  | dead k =>
    -- In dead code, neither lowered nor skipped constructs are open in between.
    rw [State.depth_of_dead hphase] at hdepth
    have hsum := Option.some.inj hdepth
    have hinner : inner = [] := List.length_eq_zero_iff.1 (by omega)
    obtain rfl : k = 0 := by omega
    exact ⟨by rw [hsplit, hinner]; rfl, .inr hphase⟩
  | finished => simp [State.depth_eq_none.2 hphase] at hdepth

/-- At the end of an arm of a construct further inside, that construct is the innermost one. -/
theorem Inside.inner (h : Inside c outer (depth + 1) s) (hs : s.AtArmEnd) :
    ∃ c' inner, s.constructs = c' :: (inner ++ c :: outer) := by
  obtain ⟨inner, hsplit⟩ := h.split
  have hdepth := h.depth
  have hlen := congrArg List.length hsplit
  rw [List.length_append, List.length_cons] at hlen
  -- Otherwise no construct would be in between, and the depth would be less.
  have hpos : inner ≠ [] := by
    rintro rfl
    rw [List.length_nil] at hlen
    rcases hs with hphase | hphase
    · rw [State.depth_of_live hphase] at hdepth
      have := Option.some.inj hdepth
      omega
    · rw [State.depth_of_dead hphase] at hdepth
      have := Option.some.inj hdepth
      omega
  obtain ⟨c', inner', rfl⟩ := List.exists_cons_of_ne_nil hpos
  exact ⟨c', inner', hsplit⟩

/-- The state stays inside the construct, which may go on in its other arm. -/
theorem Inside.step (h : Inside c outer depth s) (hstep : s.step op = .ok t)
    (hnest : op.nesting depth = some deeper) :
    ∃ kind, Inside { c with kind } outer deeper t ∧
      (¬ (depth = 0 ∧ op = .elseBlock) → kind = c.kind) := by
  have hlive : s.phase = .finished → s.constructs = [] := by
    intro hphase
    have := h.depth
    rw [State.depth_eq_none.2 hphase] at this
    cases this
  -- The depth is counted from outside, and it moves as the nesting does.
  have hdepth : t.depth = some (deeper + (outer.length + 1)) := by
    rw [(step_depth hlive hstep).1, h.depth, Option.bind_some, Operator.nesting_add hnest]
  obtain ⟨inner, hsplit⟩ := h.split
  cases (step_reopens hstep).1 with
  | keeps hc => exact ⟨c.kind, ⟨⟨inner, hc.trans hsplit⟩, hdepth⟩, fun _ => rfl⟩
  | opens c' hc => exact ⟨c.kind, ⟨⟨c' :: inner, by rw [hc, hsplit]; rfl⟩, hdepth⟩, fun _ => rfl⟩
  -- An `else` belongs to this construct only at depth zero.
  | alternates hs htop hc =>
    cases depth with
    | zero =>
      obtain ⟨htop', -⟩ := h.top
      obtain ⟨rfl, rfl⟩ := List.cons.inj (htop.symm.trans htop')
      exact ⟨.elseArm, ⟨⟨[], hc⟩, hdepth⟩, fun hne => absurd ⟨rfl, rfl⟩ hne⟩
    | succ depth =>
      obtain ⟨c', inner', htop'⟩ := h.inner hs
      obtain ⟨rfl, rfl⟩ := List.cons.inj (htop.symm.trans htop')
      exact ⟨c.kind, ⟨⟨_ :: inner', hc⟩, hdepth⟩, fun _ => rfl⟩
  -- An `end` at depth zero would leave the construct.
  | closes hs htop =>
    cases depth with
    | zero => cases hnest
    | succ depth =>
      obtain ⟨c', inner', htop'⟩ := h.inner hs
      obtain ⟨rfl, hrest⟩ := List.cons.inj (htop.symm.trans htop')
      exact ⟨c.kind, ⟨⟨inner', hrest⟩, hdepth⟩, fun _ => rfl⟩

/-- A run that completes the function comes to the `end` of the construct. -/
theorem Inside.atEnd (h : Inside c outer depth s) (hsteps : s.steps code = .ok last)
    (hlast : last.phase = .finished) :
    ∃ before u v kind, code = before ++ .endBlock :: afterEnd depth code ∧
      s.steps before = .ok u ∧ u.step .endBlock = .ok v ∧
      v.steps (afterEnd depth code) = .ok last ∧ u.AtArmEnd ∧
      u.constructs = { c with kind } :: outer ∧ (elseArm depth code = none → kind = c.kind) := by
  -- The construct is generalized, as its kind changes where the run passes its `else`.
  induction code generalizing s c depth with
  -- The function is not complete inside a construct.
  | nil =>
    obtain rfl := Except.ok.inj hsteps
    have := h.depth
    rw [State.depth_eq_none.2 hlast] at this
    cases this
  | cons op code ih =>
    obtain ⟨t, hstep, hrest⟩ := steps_cons.1 hsteps
    cases hnest : op.nesting depth with
    | none =>
      obtain ⟨rfl, rfl⟩ := Operator.nesting_eq_none.1 hnest
      obtain ⟨htop, hs⟩ := h.top
      exact ⟨[], s, t, c.kind, rfl, rfl, hstep, hrest, hs, htop, fun _ => rfl⟩
    | some deeper =>
      obtain ⟨kind, ht, hkind⟩ := h.step hstep hnest
      obtain ⟨before, u, v, kind', hcode, hu, hv, hlater, hs, htop, hkind'⟩ := ih ht hrest
      refine ⟨op :: before, u, v, kind', ?_, steps_cons.2 ⟨t, hstep, hu⟩, hv, ?_, hs, htop, ?_⟩
      · rw [afterEnd_cons hnest, List.cons_append, ← hcode]
      · rw [afterEnd_cons hnest]
        exact hlater
      · intro hnone
        by_cases helse : depth = 0 ∧ op = .elseBlock
        · simp [elseArm, helse] at hnone
        · rw [elseArm_cons hnest helse] at hnone
          exact (hkind' hnone).trans (hkind helse)

/-- A run comes to the `else` of the construct, if there is one. -/
theorem Inside.atElse {arm : List Operator} (h : Inside c outer depth s)
    (hsteps : s.steps code = .ok last) (harm : elseArm depth code = some arm) :
    ∃ before u v, code = before ++ .elseBlock :: arm ∧ s.steps before = .ok u ∧
      u.step .elseBlock = .ok v ∧ v.steps arm = .ok last ∧ u.AtArmEnd ∧
      u.constructs = c :: outer := by
  induction code generalizing s depth with
  | nil => cases harm
  | cons op code ih =>
    obtain ⟨t, hstep, hrest⟩ := steps_cons.1 hsteps
    by_cases helse : depth = 0 ∧ op = .elseBlock
    · obtain ⟨rfl, rfl⟩ := helse
      obtain rfl : code = arm := Option.some.inj harm
      obtain ⟨htop, hs⟩ := h.top
      exact ⟨[], s, t, rfl, rfl, hstep, hrest, hs, htop⟩
    -- The `else` is further on, so what comes before it leaves the arm as it is.
    · cases hnest : op.nesting depth with
      | none => simp [elseArm, helse, hnest] at harm
      | some deeper =>
        obtain ⟨kind, ht, hkind⟩ := h.step hstep hnest
        obtain rfl := hkind helse
        rw [elseArm_cons hnest helse] at harm
        obtain ⟨before, u, v, rfl, hu, hv, hlater, hs, htop⟩ := ih ht hrest harm
        exact ⟨op :: before, u, v, rfl, steps_cons.2 ⟨t, hstep, hu⟩, hv, hlater, hs, htop⟩

end Inside

end Lowering

end WasmLowering
