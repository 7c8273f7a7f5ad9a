import WasmLowering.Proofs.AcceptedBodies
import WasmLowering.Proofs.Calculations
import WasmLowering.Proofs.OperandFrames
import WasmLowering.Proofs.Predecessors

/-!
# Targets of branches

A branch names its target by the number of constructs around it that it leaves. The lowering has
fewer constructs open than the source, as it only counts those that are opened in dead code. But
where the code can be reached, none of these is left: the constructs that the lowering has open are
then those of the source, and each was entered in code that can be reached. So a branch goes to the
first block of the loop that it names, or to the block in which the lowering goes on after the `end`
of another construct, or it returns.

## Key results

- `Operator.exists_opener`, `Operator.exists_closer`: the enclosing constructs of a position, by
  counting
- `Boundary.enclosed`: the open constructs are those that enclose the position
- `branches_follow_nesting`: where branches go, and what follows for arms and loops
-/

namespace WasmLowering

open Ssa

/-! ## Enclosing constructs -/

namespace Operator

section Counting

variable {depth deeper : Nat} {ops : List Operator}

private theorem nestings_append (depth : Option Nat) (xs ys : List Operator) :
    nestings depth (xs ++ ys) = nestings (nestings depth xs) ys :=
  List.foldl_append

private theorem nestings_concat (depth : Option Nat) (ops : List Operator) (op : Operator) :
    nestings depth (ops ++ [op]) = (nestings depth ops).bind (op.nesting ·) :=
  nestings_append ..

/-- An operator that opens a construct counts one more. -/
private theorem nesting_of_opens {op : Operator} (h : op.opens = true) (depth : Nat) :
    op.nesting depth = some (depth + 1) := by
  cases op with
  | block | loop | ifBlock => rfl
  | _ => cases h

/-- Operators that close no construct around them count the same in a deeper place. -/
private theorem nestings_add (h : nestings (some depth) ops = some deeper) (outer : Nat) :
    nestings (some (depth + outer)) ops = some (deeper + outer) := by
  induction ops generalizing depth with
  | nil =>
    obtain rfl := Option.some.inj h
    rfl
  | cons op ops ih =>
    rw [nestings_cons, Option.bind_some] at h ⊢
    -- No construct around them is closed, so there is a next depth.
    cases hop : op.nesting depth with
    | none => simp [hop, nestings_none] at h
    | some next =>
      rw [hop] at h
      rw [nesting_add hop]
      exact ih h

/-- Below the level at which they start, they have no `else` either. -/
private theorem levels_of_nestings (h : nestings (some depth) ops = some deeper) (outer : Nat) :
    levels (depth + (outer + 1)) ops = some (deeper + (outer + 1)) := by
  induction ops generalizing depth with
  | nil =>
    obtain rfl := Option.some.inj h
    rfl
  | cons op ops ih =>
    rw [nestings_cons, Option.bind_some] at h
    cases op with
    | block _ | loop _ | ifBlock _ =>
      have := ih h
      simp only [levels]
      rwa [Nat.add_right_comm] at this
    -- At a deeper level an `else` belongs to an inner conditional.
    | elseBlock =>
      simp only [levels]
      rw [if_neg (by omega)]
      exact ih h
    | endBlock =>
      simp only [levels]
      rw [if_neg (by omega)]
      cases depth with
      | zero => simp [nesting, nestings_none] at h
      | succ depth =>
        have := @ih depth h
        rwa [show depth + 1 + (outer + 1) - 1 = depth + (outer + 1) by omega]
    | _ => exact ih h

/-- Each of the open constructs was opened by an operator that leaves as many open inside it as the
    number of the construct says. -/
private theorem exists_opener {n : Nat} (h : nestings (some 0) ops = some n) (hlt : depth < n) :
    ∃ before op inside, ops = before ++ op :: inside ∧ op.opens = true ∧
      nestings (some 0) inside = some depth := by
  induction ops using List.reverseRecOn generalizing n depth with
  | nil =>
    obtain rfl := Option.some.inj h
    cases hlt
  | append_singleton ops last ih =>
    rw [nestings_concat] at h
    obtain ⟨m, hm, hlast⟩ := Option.bind_eq_some_iff.1 h
    -- An opener of the operators before the last one, with the last one inside.
    have hearlier : ∀ d, d < m → last.nesting d = some depth →
        ∃ before op inside, ops ++ [last] = before ++ op :: inside ∧ op.opens = true ∧
          nestings (some 0) inside = some depth := by
      intro d hd hdepth
      obtain ⟨before, op, inside, rfl, hop, hinside⟩ := ih hm hd
      refine ⟨before, op, inside ++ [last], by simp, hop, ?_⟩
      rw [nestings_concat, hinside]
      exact hdepth
    cases last with
    -- The last operator opens the innermost construct itself.
    | block _ | loop _ | ifBlock _ =>
      obtain rfl : m + 1 = n := Option.some.inj hlast
      cases depth with
      | zero => exact ⟨ops, _, [], rfl, rfl, rfl⟩
      | succ depth => exact hearlier depth (by omega) rfl
    -- The last operator closes a construct, so the opener was one deeper before.
    | endBlock =>
      cases m with
      | zero => simp [nesting] at hlast
      | succ m =>
        obtain rfl : m = n := Option.some.inj hlast
        exact hearlier (depth + 1) (by omega) rfl
    | _ =>
      obtain rfl : m = n := Option.some.inj hlast
      exact hearlier depth hlt rfl

/-- Operators that close a construct around them do so with an `end` that matches. -/
private theorem exists_closer (h : nestings (some depth) ops = none) :
    ∃ inner rest, ops = inner ++ endBlock :: rest ∧ nestings (some depth) inner = some 0 := by
  induction ops generalizing depth with
  | nil => cases h
  | cons op ops ih =>
    rw [nestings_cons, Option.bind_some] at h
    cases hop : op.nesting depth with
    -- This is the `end` that matches.
    | none =>
      obtain ⟨rfl, rfl⟩ := nesting_eq_none.1 hop
      exact ⟨[], ops, rfl, rfl⟩
    | some next =>
      rw [hop] at h
      obtain ⟨inner, rest, rfl, hinner⟩ := ih h
      exact ⟨op :: inner, rest, rfl, by simpa [hop] using hinner⟩

/-- Operators that close the function close what was opened right before them. -/
private theorem nestings_eq_none_of_opens {op : Operator} {before code : List Operator}
    (hop : op.opens = true) (hbefore : nestings (some 0) before ≠ none)
    (h : nestings (some 0) (before ++ op :: code) = none) : nestings (some 0) code = none := by
  obtain ⟨level, hlevel⟩ := Option.ne_none_iff_exists'.1 hbefore
  rw [nestings_append, hlevel, nestings_cons, Option.bind_some, nesting_of_opens hop] at h
  cases hcode : nestings (some 0) code with
  | none => rfl
  -- Otherwise something would be open at the end of the function.
  | some deeper =>
    have hadd := nestings_add hcode (level + 1)
    rw [Nat.zero_add, h] at hadd
    cases hadd

/-- What stands inside a construct comes before its `end`. -/
private theorem prefix_of_closer {inside inner rest more : List Operator}
    (h : inside ++ more = inner ++ Operator.endBlock :: rest)
    (hinside : nestings (some 0) inside = some depth)
    (hinner : nestings (some 0) inner = some 0) : inside <+: inner := by
  obtain ⟨later, rfl, -⟩ | ⟨later, rfl, hlater⟩ := List.append_eq_append_iff.1 h
  · exact List.prefix_append ..
  -- The inside would go beyond the matching `end`.
  · cases later with
    | nil => simp
    | cons op later =>
      obtain ⟨rfl, -⟩ := List.cons.inj hlater
      rw [nestings_append, hinner] at hinside
      simp [nesting, nestings_none] at hinside

end Counting

end Operator

/-- The role of the end block of a construct other than a loop. -/
def Operator.joinRole : Operator → Option BlockRole
  | block _ => some .blockEnd
  | ifBlock _ => some .ifEnd
  | _ => none

/-- A construct is a loop, or it has an end block to go to. -/
theorem Operator.loop_or_joins {op : Operator} (h : op.opens = true) :
    (∃ results, op = .loop results) ∨ ∃ role, op.joinRole = some role := by
  cases op with
  | loop results => exact .inl ⟨results, rfl⟩
  | block _ | ifBlock _ => exact .inr ⟨_, rfl⟩
  | _ => cases h

namespace Ssa

/-- Nothing follows lines that have been closed. -/
theorem Ended.eq_nil {front lines back : List Line} (h : Ended (front ++ lines ++ back))
    (hlines : Ended lines) : back = [] := by
  obtain ⟨body, last, rfl, hlast, -⟩ := hlines
  obtain ⟨body', last', heq, -, hbody⟩ := h
  obtain rfl | ⟨more, line, rfl⟩ := List.eq_nil_or_concat back
  · rfl
  -- The terminator of the lines would stand in the middle.
  · rw [List.concat_eq_append, ← List.append_assoc] at heq
    obtain ⟨rfl, -⟩ := List.append_inj' heq rfl
    rw [hbody last (by simp)] at hlast
    cases hlast

/-- The block with a label has the given lines at its end, the last of which is its terminator. -/
def Function.EndsWith (f : Function) (label : Label) (lines : List Line) : Prop :=
  ∃ b ∈ f.blocks, b.label = label ∧ Ended b.lines.toList ∧ lines <:+ b.lines.toList

/-- Every block of a draft is in the finished function. -/
theorem Draft.exists_finished {d : Draft} (hn : d.Numbered) {label : Label} (h : label ∈ d.labels) :
    ∃ b ∈ d.finish, b.label = label ∧ b.lines.toList = d.code label := by
  obtain ⟨b, hb, rfl⟩ := List.mem_map.1 h
  have hfinish : b ∈ d.finish := (Draft.perm_finish hn).mem_iff.2 hb
  exact ⟨b, hfinish, rfl, ((Draft.mem_finish hn).1 hfinish).2⟩

end Ssa

end WasmLowering

namespace WasmLowering.Lowering

open Ssa Draft Operator

/-! ## Open constructs -/

section Enclosed

variable {s t u v : State} {op : Operator} {c : Construct} {outer rest : List Construct}
  {depth deeper : Nat} {ops inside : List Operator}

/-- The second arm of a conditional has the end block of the first one. -/
private theorem elseBlock_goal {live : Bool} {c' : Construct} {rest' : List Construct}
    (h : s.elseBlock live = .ok t) (htop : s.constructs = c :: rest)
    (htop' : t.constructs = c' :: rest') : c'.goal = c.goal := by
  obtain ⟨k, more, other, params, u, hk, hkind, -, -, rfl⟩ := elseBlock_eq_ok.1 h
  obtain ⟨rfl, rfl⟩ := List.cons.inj (htop.symm.trans hk)
  obtain ⟨rfl, -⟩ := List.cons.inj htop'
  rw [Construct.goal, Construct.goal, hkind]

/-- Inside a construct, a branch to it always goes to the same block. -/
theorem Inside.steps_goal (h : Inside c outer depth s) (hsteps : s.steps ops = .ok t)
    (hnest : nestings (some depth) ops = some deeper) :
    ∃ kind, Inside { c with kind } outer deeper t ∧
      ({ c with kind } : Construct).goal = c.goal := by
  induction ops generalizing s c depth with
  | nil =>
    obtain rfl := Except.ok.inj hsteps
    obtain rfl := Option.some.inj hnest
    exact ⟨c.kind, h, rfl⟩
  | cons op ops ih =>
    obtain ⟨u, hu, hsteps⟩ := steps_cons.1 hsteps
    rw [nestings_cons, Option.bind_some] at hnest
    cases hop : op.nesting depth with
    | none => simp [hop, nestings_none] at hnest
    | some next =>
      rw [hop] at hnest
      obtain ⟨kind, hinside, hkeep⟩ := h.step hu hop
      obtain ⟨kind', hlast, hgoal⟩ := ih hinside hsteps hnest
      refine ⟨kind', hlast, hgoal.trans ?_⟩
      by_cases helse : depth = 0 ∧ op = .elseBlock
      · -- Only a conditional goes on with another arm, and it has the same end block.
        obtain ⟨rfl, rfl⟩ := helse
        obtain rfl : 0 = next := Option.some.inj hop
        obtain ⟨htop, hend⟩ := h.top
        exact elseBlock_goal (elseBlock_of_step hend hu) htop hinside.top.1
      · rw [hkeep helse]

/-- Nothing happens after the end of the function. -/
private theorem steps_finished (h : s.phase = .finished) : s.steps ops = .ok s := by
  induction ops with
  | nil => rfl
  | cons op ops ih => exact steps_cons.2 ⟨s, by rw [State.step, h], ih⟩

/-- A construct is entered in code that can be reached, if its inside can. -/
private theorem live_of_opens (hstep : s.step op = .ok t) (hop : op.opens = true)
    (hsteps : t.steps inside = .ok u) (hinside : nestings (some 0) inside = some depth)
    (live : u.phase = .live) : s.phase = .live := by
  rw [State.step] at hstep
  cases hphase : s.phase with
  | live => rfl
  | dead level =>
    -- Dead code stays dead up to the `end` of the construct.
    rw [hphase] at hstep
    have hdead : t.phase = .dead (level + 1) := by
      cases op with
      | block _ | loop _ | ifBlock _ =>
        obtain rfl := Except.ok.inj hstep
        rfl
      | _ => cases hop
    have hlevels := levels_of_nestings hinside level
    rw [Nat.zero_add] at hlevels
    obtain rfl := Except.ok.inj (hsteps.symm.trans (steps_dead hdead hlevels))
    cases live
  | finished =>
    rw [hphase] at hstep
    obtain rfl := Except.ok.inj hstep
    obtain rfl := Except.ok.inj (hsteps.symm.trans (steps_finished hphase))
    rw [hphase] at live
    cases live

/-- A branch to a loop goes to the block in which it starts. -/
private theorem loop_goal {results : List ValueType} (live : s.phase = .live)
    (hstep : s.step (.loop results) = .ok t) (htop : t.constructs = c :: rest) :
    c.goal = t.draft.current ∧ c.goal.role = .loopBegin ∧ c.exit.role = .loopEnd := by
  rw [State.step, live] at hstep
  obtain ⟨-, types, -, rfl⟩ := enter_eq_ok.1 hstep
  obtain ⟨rfl, -⟩ := List.cons.inj htop
  have hhead : ((s.begun .loopBegin).opened (.loop (s.draft.newBlock .loopBegin).1) .loopEnd types
      s.stack.size).draft.current = (s.draft.newBlock .loopBegin).1 := by
    simp [State.opened, State.begun, newJoin, goOn]
  exact ⟨hhead.symm, rfl, rfl⟩

/-- A branch to another construct goes to its end. -/
private theorem join_goal {role : BlockRole} (live : s.phase = .live) (hstep : s.step op = .ok t)
    (hop : op.joinRole = some role) (htop : t.constructs = c :: rest) :
    c.goal = c.exit ∧ c.exit.role = role := by
  rw [State.step, live] at hstep
  -- Only blocks and conditionals end in a join.
  cases op with
  | block type =>
    obtain rfl := Option.some.inj hop
    obtain ⟨-, types, -, rfl⟩ := enter_eq_ok.1 hstep
    obtain ⟨rfl, -⟩ := List.cons.inj htop
    exact ⟨rfl, rfl⟩
  | ifBlock type =>
    obtain rfl := Option.some.inj hop
    obtain ⟨xs, v, types, -, -, -, -, rfl⟩ := ifBlock_eq_ok.1 hstep
    obtain ⟨rfl, -⟩ := List.cons.inj htop
    exact ⟨rfl, rfl⟩
  | _ => cases hop

/-- What an operator that opens a construct leaves on top of the open constructs. -/
private theorem opens_construct (live : s.phase = .live) (hf : s.Framed) (hop : op.opens = true)
    (hstep : s.step op = .ok t) : t.phase = .live ∧ ∃ c, t.constructs = c :: s.constructs := by
  have hconstruct : ∃ taken results, op.construct? = some (taken, results) := by
    cases op with
    | block _ | loop _ | ifBlock _ => exact ⟨_, _, rfl⟩
    | _ => cases hop
  obtain ⟨taken, results, hconstruct⟩ := hconstruct
  obtain ⟨c, htop, hlive, -⟩ := step_opens hconstruct live hf hstep
  exact ⟨hlive, c, htop⟩

end Enclosed

section Boundaries

variable {types : Array FuncType} {type : FuncType} {intrinsics : IntrinsicTable} {input : Bytes}
  {done more before inside inner : List Operator} {op : Operator} {s t u v : State} {depth : Nat}

/-- A boundary has earlier ones before it. -/
theorem Boundary.earlier (h : Boundary types type intrinsics input (done ++ more) t) :
    ∃ s, Boundary types type intrinsics input done s ∧ s.steps more = .ok t := by
  obtain ⟨body, start, hbody, hstart, hpre, hsteps⟩ := h
  obtain ⟨s, hs, hmore⟩ := steps_append.1 hsteps
  exact ⟨s, ⟨body, start, hbody, hstart, (List.prefix_append ..).trans hpre, hs⟩, hmore⟩

/-- A boundary is as deep as the operators before it say. -/
theorem Boundary.depth_eq (h : Boundary types type intrinsics input done s) :
    s.depth = nestings (some 0) done := by
  obtain ⟨body, start, -, hstart, -, hsteps⟩ := h
  obtain ⟨-, live, -, hnone, -, -⟩ := start_moves hstart
  have hdepth := (steps_depth (by simp [live]) hsteps).1
  rwa [State.depth_of_live live, hnone] at hdepth

/-- Where the code can be reached, the constructs that the lowering has open are those that enclose
    the position in the source. -/
theorem Boundary.enclosed (h : Boundary types type intrinsics input done s) (live : s.phase = .live)
    (hdepth : depth < s.constructs.length) :
    ∃ before op inside u v c k, done = before ++ op :: inside ∧ op.opens = true ∧
      nestings (some 0) inside = some depth ∧ Boundary types type intrinsics input before u ∧
      u.phase = .live ∧ Boundary types type intrinsics input (before ++ [op]) v ∧
      v.phase = .live ∧ v.constructs = c :: u.constructs ∧ s.constructs[depth]? = some k ∧
      k.goal = c.goal := by
  have hnest : nestings (some 0) done = some s.constructs.length := by
    rw [← h.depth_eq, State.depth_of_live live]
  obtain ⟨before, op, inside, rfl, hop, hinside⟩ := exists_opener hnest hdepth
  obtain ⟨u, hu, -⟩ := h.earlier
  have hbefore : before ++ op :: inside = (before ++ [op]) ++ inside := by simp
  obtain ⟨v, hv, hafter⟩ := (hbefore ▸ h).earlier
  have hstep := hu.step hv
  have hlive := live_of_opens hstep hop hafter hinside live
  obtain ⟨hvlive, c, htop⟩ := opens_construct hlive hu.moves.2 hop hstep
  obtain ⟨kind, hin, hgoal⟩ := (Inside.of_top htop hvlive).steps_goal hafter hinside
  -- As deep as the branch is inside the construct, so many constructs are open above it.
  obtain ⟨above, hsplit⟩ := hin.split
  have hlength : above.length = depth := by
    have hdepth' := hin.depth
    rw [State.depth_of_live live, hsplit] at hdepth'
    simp only [List.length_append, List.length_cons, Option.some.injEq] at hdepth'
    omega
  refine ⟨before, op, inside, u, v, c, { c with kind }, rfl, hop, hinside, hu, hlive, hv, hvlive,
    htop, ?_, hgoal⟩
  rw [hsplit, ← hlength]
  simp

/-- In a function that was lowered, there is a state after each of the operators. -/
private theorem exists_boundary {index : Nat} {func : UInt32} {table : IntrinsicTable}
    {f : Ssa.Function}
    {body : Body} (h : lowerFunction types index func type intrinsics input = .ok (f, table))
    (hbody : Body.read types type.params input = .ok body)
    (hpre : done <+: body.stream.operators.map Prod.snd) :
    ∃ s, Boundary types type intrinsics input done s := by
  obtain ⟨-, body', start, last, -, hbody', hstart, hlast, -, -, -⟩ := lowerFunction_eq_ok.1 h
  obtain rfl := Except.ok.inj (hbody.symm.trans hbody')
  obtain ⟨more, hmore⟩ := hpre
  rw [← hmore] at hlast
  obtain ⟨s, hs, -⟩ := steps_append.1 hlast
  exact ⟨s, body, start, hbody, hstart, hmore ▸ List.prefix_append .., hs⟩

/-- In a function that was lowered, every construct comes to an end. -/
theorem Boundary.closed {index : Nat} {func : UInt32} {table : IntrinsicTable} {f : Ssa.Function}
    (h : lowerFunction types index func type intrinsics input = .ok (f, table))
    (hs : Boundary types type intrinsics input (before ++ op :: inside) s) (live : s.phase = .live)
    (hop : op.opens = true) (hinside : nestings (some 0) inside = some depth) :
    ∃ inner v, inside <+: inner ∧ nestings (some 0) inner = some 0 ∧
      Boundary types type intrinsics input (before ++ op :: (inner ++ [Operator.endBlock])) v := by
  obtain ⟨-, body, start, last, -, hbody, hstart, hlast, hstop, -, -⟩ := lowerFunction_eq_ok.1 h
  have hb := Boundary.of_steps hbody hstart hlast
  obtain ⟨finished, -⟩ := finished_of_stop_eq_none hbody hstart hlast hstop
  obtain ⟨body', -, hbody', -, ⟨more, hmore⟩, -⟩ := id hs
  obtain rfl := Except.ok.inj (hbody.symm.trans hbody')
  have hnone := hb.depth_eq
  rw [State.depth_eq_none.2 finished, ← hmore] at hnone
  -- The operators after the opening one close the function, so they close the construct.
  have hbefore : nestings (some 0) before ≠ none := by
    intro hbefore
    have hdepth := hs.depth_eq
    rw [State.depth_of_live live, nestings_append, hbefore, nestings_none] at hdepth
    cases hdepth
  rw [List.append_assoc, List.cons_append] at hnone
  have hclose := nestings_eq_none_of_opens hop hbefore hnone.symm
  obtain ⟨inner, rest, hsplit, hinner⟩ := exists_closer hclose
  have hops : body.stream.operators.map Prod.snd =
      (before ++ op :: (inner ++ [Operator.endBlock])) ++ rest := by
    rw [← hmore, List.append_assoc, List.cons_append, hsplit]
    simp
  obtain ⟨v, hv, -⟩ := (hops ▸ hb).earlier
  exact ⟨inner, v, prefix_of_closer hsplit hinside hinner, hinner, hv⟩

/-- The state after the `end` of a construct, from that in which its end block is placed. -/
theorem Boundary.ends {c : Construct} {outer : List Construct}
    (hv : Boundary types type intrinsics input (before ++ [op]) v) (live : v.phase = .live)
    (htop : v.constructs = c :: outer) (hinner : nestings (some 0) inner = some 0)
    (ht : Boundary types type intrinsics input (before ++ op :: (inner ++ [Operator.endBlock])) t) :
    ∃ (u : State) (c' : Construct) (low : Array Operand), u.Disciplined ∧
      u.constructs = c' :: outer ∧ c'.exit = c.exit ∧ c'.results = c.results ∧
      t = u.left c' outer ∧ t.stack = low ++ u.resultsAfter c' := by
  have hsplit : before ++ op :: (inner ++ [Operator.endBlock]) =
      (before ++ [op] ++ inner) ++ [Operator.endBlock] := by simp
  rw [hsplit] at ht
  obtain ⟨s, hs, -⟩ := ht.earlier
  obtain ⟨kind, hin⟩ := (Inside.of_top htop live).steps (hv.steps hs) hinner
  obtain ⟨hstop, hend⟩ := hin.top
  obtain ⟨u, c', hu, hcons, hexit, hresults, hleft, hstack⟩ := hs.atEnd ht hend hstop
  exact ⟨u, c', _, hu, hcons, hexit, hresults, hleft, hstack⟩

end Boundaries

/-! ## Ends of blocks -/

section Ends

variable {types : Array FuncType} {index : Nat} {func : UInt32} {type : FuncType}
  {intrinsics table : IntrinsicTable} {input : Bytes} {f : Ssa.Function}
  {done : List Operator} {s t : State} {depth : Nat} {k : Construct}

theorem Move.results_eq (hm : Move s t) : t.results = s.results := by
  cases hm <;> rfl

/-- The results are those of the type at every boundary. -/
theorem Boundary.results_eq (h : Boundary types type intrinsics input done s) :
    s.results = type.results := by
  have hmoves : ∀ {s t : State}, Moves s t → t.results = s.results := by
    intro s t hm
    induction hm with
    | refl => rfl
    | tail _ hm ih => exact hm.results_eq.trans ih
  exact hmoves h.moves.1

/-- A block that is closed at a boundary ends in the function as it does there. -/
theorem Boundary.endsWith
    (h : lowerFunction types index func type intrinsics input = .ok (f, table))
    (ht : Boundary types type intrinsics input done t) (hdead : t.phase ≠ .live)
    {lines : List Line} (hlines : lines <:+ t.draft.code t.draft.current) :
    f.EndsWith t.draft.current lines := by
  obtain ⟨last, hm₀, finished, hwaiting, hf, hlast⟩ := exists_last h
  have hm := hlast done t ht
  have hd := ht.disciplined
  have hsound := (Moves.disciplined hm hd).sound
  have hwait : t.draft.current ∉ t.waiting := (List.nodup_cons.1 hd.sound.nodup).1
  have hmem := Moves.labels hm hd hd.sound.current_mem
  have hended : Ended (t.draft.code t.draft.current) := by
    refine hd.sound.ended _ hd.sound.current_mem hwait fun hl => absurd ?_ hdead
    cases hp : t.phase <;> simp_all [Phase.isLive]
  have hended' : Ended (last.draft.code t.draft.current) :=
    hsound.ended _ hmem (by simp [hwaiting]) fun hl => by simp [finished, Phase.isLive] at hl
  -- A closed block gets no more lines.
  obtain ⟨front, back, hcode, -, -, -⟩ := Moves.extended hm hd hd.sound.current_mem hwait
  obtain rfl : back = [] := (hcode ▸ hended').eq_nil hended
  obtain ⟨b, hb, hlabel, hb'⟩ := exists_finished hsound.numbered hmem
  refine ⟨b, hf ▸ hb, hlabel, hb' ▸ hended', ?_⟩
  rw [hb', hcode, List.append_nil]
  exact hlines.trans (List.suffix_append ..)

/-- A branch closes the insertion block. -/
private theorem code_br (hd : s.Disciplined) (hk : s.constructs[depth]? = some k)
    (h : s.br depth = .ok t) :
    t.phase = .dead 0 ∧ t.draft.current = s.draft.current ∧
      t.draft.code s.draft.current = s.draft.code s.draft.current ++ [Line.br k.goal] := by
  obtain ⟨u, hu, -, rfl⟩ := exits_of_br hk h
  refine ⟨rfl, ?_⟩
  obtain ⟨head, hkind, rfl⟩ | ⟨hkind, -, rfl⟩ := exitTo_eq_ok.1 hu
  · rw [Construct.goal_of_loop hkind]
    exact ⟨rfl, hd.sound.toArranged.code_append _⟩
  · rw [Construct.goal_of_not_loop hkind]
    have hcode := @code_current_jumped s k (s.top k.results.length) hd (List.mem_of_getElem? hk)
    exact ⟨rfl, hcode⟩

/-- Storing fields stays in the insertion block. -/
private theorem current_storeFields (d : Draft) (slot : ValueId) (i : Nat) (values : List Operand) :
    (d.storeFields slot i values).current = d.current := by
  induction values generalizing d i with
  | nil => rfl
  | cons v values ih => exact ih ..

/-- A return stays in the insertion block. -/
private theorem current_returned (d : Draft) (fields : List ScalarType) (values : List Operand) :
    (d.returned fields values).current = d.current := by
  rcases values with _ | ⟨v, _ | ⟨w, values⟩⟩
  · rfl
  · rfl
  · show (d.retPacked fields (v :: w :: values)).current = d.current
    rw [retPacked, current_append, current_append, current_skipValue, current_storeFields]
    rfl

/-- The function returns values at the end of a block: nothing, one value, or several values in a
    structure whose slot the entry block has made. -/
inductive ReturnsAt (f : Ssa.Function) (label : Label) (results : List ValueType) :
    List Operand → Prop where
  | void (last : f.EndsWith label [.retVoid]) : ReturnsAt f label results []
  | single {v : Operand} (last : f.EndsWith label [.ret v]) : ReturnsAt f label results [v]
  | packed {v w : Operand} {values : List Operand} {fields : List ScalarType}
      {slot next id : ValueId}
      (types : results.mapM (ValueType.scalar hostPointerBits) = .ok fields)
      (slot_made : ∃ b ∈ f.blocks, b.label = entryLabel ∧
        .alloca slot (.packed fields) .ret ∈ b.lines.toList)
      (last : f.EndsWith label (fieldLines slot 0 next (v :: w :: values) ++
        [.loadPacked id fields slot, .retPacked id fields])) :
      ReturnsAt f label results (v :: w :: values)

/-- A return closes the insertion block with the topmost operands. -/
theorem Boundary.returns {op : Operator}
    (h : lowerFunction types index func type intrinsics input = .ok (f, table))
    (hs : Boundary types type intrinsics input done s)
    (ht : Boundary types type intrinsics input (done ++ [op]) t) (hret : s.ret = .ok t) :
    ∃ xs values, s.stack.toList = xs ++ values ∧ values.length = type.results.length ∧
      ReturnsAt f s.draft.current type.results values := by
  have ha := hs.disciplined.sound.toArranged
  obtain ⟨hn, hb, fields, hfields, heq⟩ := ret_eq_ok.1 hret
  rw [hs.results_eq] at hn hfields heq
  have hlength : (s.top type.results.length).toList.length = type.results.length := by
    rw [Array.length_toList, size_top (by omega)]
  refine ⟨_, _, (take_append_top s type.results.length).symm, hlength, ?_⟩
  generalize (s.top type.results.length).toList = values at heq hlength
  have hdead : t.phase ≠ .live := by rw [heq]; exact fun hl => by cases hl
  have hdraft : t.draft = s.draft.returned fields values := by rw [heq]
  have hcurrent : t.draft.current = s.draft.current := by rw [hdraft, current_returned]
  have hends : ∀ {lines : List Line}, lines <:+ t.draft.code s.draft.current →
      f.EndsWith s.draft.current lines := by
    intro lines hlines
    rw [← hcurrent] at hlines ⊢
    exact ht.endsWith h hdead hlines
  -- No value, one value, or several in a structure.
  rcases values with _ | ⟨v, _ | ⟨w, values⟩⟩
  · have hcode : t.draft.code s.draft.current = s.draft.code s.draft.current ++ [Line.retVoid] := by
      rw [hdraft]
      exact ha.code_append _
    exact .void (hends ⟨_, hcode.symm⟩)
  · have hcode : t.draft.code s.draft.current = s.draft.code s.draft.current ++ [Line.ret v] := by
      rw [hdraft]
      exact ha.code_append _
    exact .single (hends ⟨_, hcode.symm⟩)
  -- The slot of the structure is in the entry block, and stays there.
  · have hpacked : t.draft = s.draft.retPacked fields (v :: w :: values) := hdraft
    obtain ⟨front, -, hcode⟩ := code_retPacked ha fields (v :: w :: values)
    have hslot := alloca_mem_retPacked ha fields (v :: w :: values)
    rw [← hpacked] at hcode hslot
    refine .packed (hfields (by rw [← hlength]; simp)) ?_ (hends ⟨_, hcode.symm⟩)
    obtain ⟨last, -, -, -, hf, hlast⟩ := exists_last h
    have hd := ht.disciplined
    have hm := hlast _ _ ht
    have hkept := (Moves.extended hm hd hd.sound.entry_mem hd.sound.entry_placed).mem hslot
    obtain ⟨b, hb, hlabel, hlines⟩ := exists_finished
      (Moves.disciplined hm hd).sound.numbered (Moves.labels hm hd hd.sound.entry_mem)
    exact ⟨b, hf ▸ hb, hlabel, hlines ▸ hkept⟩

end Ends

/-! ## Branches that leave too many constructs -/

section Beyond

variable {types : Array FuncType} {func : UInt32} {type : FuncType} {intrinsics : IntrinsicTable}
  {input : Bytes} {body : Body} {done : List Operator} {s t : State}

/-- A run along two lists of operators. -/
private theorem run_append {completed : Nat} {xs ys : List (UInt8 × Operator)}
    (h : s.run func completed xs = .ok t) :
    s.run func completed (xs ++ ys) = t.run func (completed + xs.length) ys := by
  induction xs generalizing s completed with
  | nil =>
    obtain rfl := Except.ok.inj h
    rfl
  | cons entry xs ih =>
    obtain ⟨opcode, op⟩ := entry
    obtain ⟨u, hu, h⟩ := bind_eq_ok.1 h
    have hnext := ih h
    rw [Nat.add_assoc, Nat.add_comm 1] at hnext
    rw [List.cons_append, State.run, hu, List.length_cons]
    exact hnext

/-- An operator of a stream was read with its opcode. -/
private theorem mem_read {scope : BodyScope} {depth : Nat} {last opcode : UInt8} {op : Operator}
    (h : (opcode, op) ∈ (OperatorStream.read scope depth last input).operators) :
    ∃ mid rest, (Decoder.operator scope opcode).run mid = (.ok op, rest) := by
  fun_induction OperatorStream.read scope depth last input with
  | case1 => simp at h
  | case2 => simp at h
  | case3 depth last opcode' rest op' tail hop _ hnest =>
    obtain ⟨rfl, rfl⟩ := Prod.mk.inj (List.mem_singleton.1 h)
    exact ⟨rest, tail, hop⟩
  | case4 depth last opcode' rest op' tail hop _ deeper hnest stream ih =>
    obtain heq | h := List.mem_cons.1 h
    · obtain ⟨rfl, rfl⟩ := Prod.mk.inj heq
      exact ⟨rest, tail, hop⟩
    · exact ih h

/-- A branch has one opcode. -/
private theorem opcode_of_br {opcode : UInt8} {depth : UInt32}
    (hbody : Body.read types type.params input = .ok body)
    (h : (opcode, .br depth) ∈ body.stream.operators) : opcode = 0x0C := by
  obtain ⟨runs, rest, -, rfl⟩ := Body.read_eq_ok hbody
  obtain ⟨mid, tail, hop⟩ := mem_read h
  obtain ⟨bytes, -, form⟩ := sound_operator hop
  cases form with
  | regular form _ =>
    cases form with
    | plain hplain => cases hplain
    | br => rfl
  | overlong form => cases form

/-- A branch that leaves more constructs than are open, in code that can be reached, is a fault. -/
private theorem lowerBody_br_beyond {depth : UInt32}
    (hbody : Body.read types type.params input = .ok body)
    (hpre : done ++ [Operator.br depth] <+: body.stream.operators.map Prod.snd)
    (hs : Boundary types type intrinsics input done s) (live : s.phase = .live)
    (hlt : s.constructs.length < depth.toNat) :
    lowerBody types func type intrinsics input =
      .error (Fault.malformed.within (.inBody func done.length 0x0C)) := by
  obtain ⟨body', start, hbody', hstart, -, hsteps⟩ := hs
  obtain rfl := Except.ok.inj (hbody.symm.trans hbody')
  obtain ⟨more, hmore⟩ := hpre
  rw [List.append_assoc] at hmore
  -- The operators before the branch, the branch, and those after it.
  obtain ⟨front, back, hops, rfl, hback⟩ := List.map_eq_append_iff.1 hmore.symm
  obtain ⟨⟨opcode, op⟩, later, rfl, rfl, -⟩ := List.map_eq_cons_iff.1 hback
  have hmem : (opcode, .br depth) ∈ body.stream.operators := by simp [hops]
  obtain rfl := opcode_of_br hbody hmem
  have hfault : s.step (.br depth) = .error .malformed := by
    rw [State.step, live]
    show s.br depth.toNat = _
    rw [State.br, if_neg (by omega), List.getElem?_eq_none (by omega)]
  have hrun : start.run func 0 front = .ok s := run_eq_ok.2 hsteps
  rw [lowerBody, hbody]
  show (inContext _ (State.start type body.locals intrinsics) >>= _) = _
  rw [hstart]
  show start.runStream func body.stream = _
  rw [State.runStream, hops, run_append hrun, State.run, hfault, List.length_map, Nat.zero_add]
  rfl

end Beyond

/-! ## Results of loops -/

/-- What a loop leaves are zeros, one for each declared result. -/
private theorem loop_results {types : Array FuncType} {type : FuncType}
    {intrinsics : IntrinsicTable}
    {input : Bytes} {before inside : List Operator} {results : List ValueType} {s t : State}
    (hs : Boundary types type intrinsics input before s) (live : s.phase = .live)
    (ht : Boundary types type intrinsics input
      (before ++ Operator.loop results :: (inside ++ [Operator.endBlock])) t)
    (hinside : nestings (some 0) inside = some 0) :
    ∃ natives, results.mapM (ValueType.scalar hostPointerBits) = .ok natives ∧
      t.stack.toList = s.stack.toList ++ natives.map ScalarType.zero := by
  have hsplit : before ++ Operator.loop results :: (inside ++ [Operator.endBlock]) =
      (before ++ [Operator.loop results]) ++ (inside ++ [Operator.endBlock]) := by simp
  obtain ⟨v, hv, -⟩ := (hsplit ▸ ht).earlier
  have hstep := hs.step hv
  have hop : (Operator.loop results).construct? = some (0, results) := rfl
  obtain ⟨c, htop, hlive, hdeclares, -⟩ := step_opens hop live hs.moves.2 hstep
  obtain ⟨-, -, hrole⟩ := loop_goal live hstep htop
  -- No branch leads to the end block, so the phis are empty.
  obtain ⟨u, c', low, hu, hcons, hexit, hresults, rfl, hstack⟩ := hv.ends hlive htop hinside ht
  have hrouted := Moves.routed ht.moves.1 (State.disciplined_initial type intrinsics)
    (State.routed_initial type intrinsics)
  have hno : ∀ source, ¬ u.draft.Branches source c'.exit := fun source hb =>
    hrouted.loopEnds source c'.exit ((branches_left hu hcons).2 hb) (by rw [hexit, hrole])
  obtain ⟨hzeros, -⟩ := results_of_no_branch hu (by simp [hcons]) hno
  -- The loop takes nothing from the stack and leaves as many values as it declares.
  obtain ⟨-, -, -, ⟨values, hvalues, hnatives⟩, -⟩ :=
    steps_construct hs.disciplined hs.moves.2 live hop hinside (hs.steps ht)
  have htypes : c.results.map Operand.type = values.map Operand.type :=
    Except.ok.inj (hdeclares.symm.trans hnatives)
  refine ⟨_, hdeclares, ?_⟩
  rw [hstack, hzeros, hresults, Array.toList_appendList] at hvalues
  obtain ⟨hlow, -⟩ := List.append_inj' hvalues (by simpa using congrArg List.length htypes)
  rw [hstack, hzeros, hresults, Array.toList_appendList, hlow, Nat.sub_zero, List.map_map,
    ← Array.length_toList, List.take_length]
  rfl

/-! ## Branches -/

/-- The block that a branch to a construct goes to. The construct is opened by an operator after
    those of `before`, and the operators of `inside` stand between it and the branch. -/
inductive BranchTarget (reached : List Operator → State → Prop) (before : List Operator)
    (op : Operator) (inside : List Operator) : Label → Prop where
  /-- The block in which the loop starts. -/
  | loop {results : List ValueType} {u : State} (opener : op = .loop results)
      (start : reached (before ++ [op]) u) (labelled : u.draft.current.role = .loopBegin) :
      BranchTarget reached before op inside u.draft.current
  /-- The block in which code goes on after the `end` that matches. -/
  | join {role : BlockRole} {inner : List Operator} {u : State} (opener : op.joinRole = some role)
      (within : inside <+: inner) (whole : nestings (some 0) inner = some 0)
      (stop : reached (before ++ op :: (inner ++ [Operator.endBlock])) u)
      (labelled : u.draft.current.role = role) :
      BranchTarget reached before op inside u.draft.current

section Branches

variable {types : Array FuncType} {index : Nat} {func : UInt32} {type : FuncType}
  {intrinsics table : IntrinsicTable} {input : Bytes} {f : Ssa.Function} {done : List Operator}
  {s : State} {depth : Nat}

/-- Branches to the constructs that enclose a position, in a function that was lowered. -/
theorem Boundary.target (h : lowerFunction types index func type intrinsics input = .ok (f, table))
    (hs : Boundary types type intrinsics input done s) (live : s.phase = .live)
    (hdepth : depth < s.constructs.length) :
    ∃ before op inside k, done = before ++ op :: inside ∧ op.opens = true ∧
      nestings (some 0) inside = some depth ∧ s.constructs[depth]? = some k ∧
      BranchTarget (Boundary types type intrinsics input) before op inside k.goal := by
  obtain ⟨before, op, inside, u, v, c, k, rfl, hop, hinside, hu, hlive, hv, hvlive, htop, hk,
    hgoal⟩ := hs.enclosed live hdepth
  refine ⟨before, op, inside, k, rfl, hop, hinside, hk, ?_⟩
  rw [hgoal]
  have hstep := hu.step hv
  -- Loops are entered again, other constructs are left.
  obtain ⟨results, rfl⟩ | ⟨role, hjoin⟩ := loop_or_joins hop
  · obtain ⟨hstart, hrole, -⟩ := loop_goal hlive hstep htop
    rw [hstart] at hrole ⊢
    exact .loop rfl hv hrole
  · obtain ⟨hexit, hrole⟩ := join_goal hlive hstep hjoin htop
    obtain ⟨inner, w, hwithin, hinner, hw⟩ := hs.closed h live hop hinside
    obtain ⟨x, c', -, -, -, hsame, -, rfl, -⟩ := hv.ends hvlive htop hinner hw
    have hcurrent : (x.left c' u.constructs).draft.current = c.exit := hsame
    rw [hexit, ← hcurrent]
    exact .join hjoin hwithin hinner hw (by rw [hcurrent, hrole])

/-- Branches go where the nesting of the source says. A branch in code that can be reached, with `n`
    constructs open around it in the source, ends its block: with a branch to the first block of the
    loop that it names or to the end block of another construct, if it leaves fewer than `n`
    constructs, and with a return of as many operands as the function has results, if it leaves `n`.
    If it leaves more, the body is malformed. So each arm of a conditional has one predecessor and
    the end of a loop has none. The results of a loop are zeros, and no execution reaches what
    follows its end, up to the next block in which code goes on after an `else` or an `end`. -/
theorem branches_follow_nesting {body : Body}
    (hbody : Body.read types type.params input = .ok body) :
    (∀ done s (depth : UInt32), done ++ [Operator.br depth] <+: body.stream.operators.map Prod.snd →
      Boundary types type intrinsics input done s → s.phase = .live →
      ∃ n, nestings (some 0) done = some n ∧
        (n < depth.toNat → lowerBody types func type intrinsics input =
          .error (Fault.malformed.within (.inBody func done.length 0x0C))) ∧
        ∀ f table, lowerFunction types index func type intrinsics input = .ok (f, table) →
          (depth.toNat < n → ∃ before op inside target, done = before ++ op :: inside ∧
            op.opens = true ∧ nestings (some 0) inside = some depth.toNat ∧
            BranchTarget (Boundary types type intrinsics input) before op inside target ∧
            f.EndsWith s.draft.current [.br target]) ∧
          (depth.toNat = n → ∃ xs values, s.stack.toList = xs ++ values ∧
            values.length = type.results.length ∧
            ReturnsAt f s.draft.current type.results values)) ∧
    ∀ f table, lowerFunction types index func type intrinsics input = .ok (f, table) →
      (∀ b ∈ f.blocks, b.label.role.isArm = true → ∃! source, f.Edge source b.label) ∧
      (∀ source target, f.Edge source target → target.role ≠ .loopEnd) ∧
      (∀ before results inside s t, Boundary types type intrinsics input before s →
        s.phase = .live → nestings (some 0) inside = some 0 →
        Boundary types type intrinsics input
          (before ++ Operator.loop results :: (inside ++ [Operator.endBlock])) t →
        ∃ natives, results.mapM (ValueType.scalar hostPointerBits) = .ok natives ∧
          t.stack.toList = s.stack.toList ++ natives.map ScalarType.zero) ∧
      ∀ front l between back, f.blocks.map Block.label = front ++ l :: (between ++ back) →
        l.role = .loopEnd → (∀ x ∈ between, x.role.resumes = false) →
        ∀ x ∈ l :: between, ¬ f.Reachable x := by
  constructor
  · intro done s depth hpre hs live
    refine ⟨s.constructs.length, ?_, lowerBody_br_beyond hbody hpre hs live, fun f table h => ?_⟩
    · rw [← hs.depth_eq, State.depth_of_live live]
    -- The function was lowered, so there is a state after the branch.
    obtain ⟨t, ht⟩ := exists_boundary h hbody hpre
    have hbr : s.br depth.toNat = .ok t := by
      have hstep := hs.step ht
      rwa [State.step, live] at hstep
    refine ⟨fun hlt => ?_, fun heq => ?_⟩
    · obtain ⟨before, op, inside, k, hdone, hop, hinside, hk, htarget⟩ := hs.target h live hlt
      obtain ⟨hdead, hcurrent, hcode⟩ := code_br hs.disciplined hk hbr
      refine ⟨before, op, inside, k.goal, hdone, hop, hinside, htarget, ?_⟩
      rw [← hcurrent]
      refine ht.endsWith h (by rw [hdead]; exact fun hl => by cases hl) ?_
      rw [hcurrent, hcode]
      exact List.suffix_append ..
    · rw [State.br, if_pos heq] at hbr
      exact hs.returns h ht hbr
  · intro f table h
    obtain ⟨hloops, harms⟩ := edges_routed h
    exact ⟨harms, hloops, fun before results inside s t hs live hinside ht =>
      loop_results hs live ht hinside, fun front l between back =>
      not_reachable_after_loopEnd h⟩

/-- The body `loop (result i32) i32.const 1 if br 1 end br 1 end drop end`: the first branch goes
    back to the start of the loop, the second one returns, and the result of the loop is a zero. The
    same branch outside of all constructs is malformed. -/
theorem branches_follow_nesting_loop :
    ∃ (input : Bytes) (f : Ssa.Function) (table : IntrinsicTable) (s t u : State) (target : Label),
      input = [0x00, 0x03, 0x7F, 0x41, 0x01, 0x04, 0x40, 0x0C, 0x01, 0x0B, 0x0C, 0x01, 0x0B, 0x1A,
        0x0B] ∧
      lowerFunction #[] 0 0 {} {} input = .ok (f, table) ∧
      (Boundary #[] {} {} input [.loop [.i32], .i32Const 1, .ifBlock {}] s ∧ s.phase = .live ∧
        f.EndsWith s.draft.current [.br target] ∧ target.role = .loopBegin) ∧
      (Boundary #[] {} {} input [.loop [.i32], .i32Const 1, .ifBlock {}, .br 1, .endBlock] t ∧
        t.phase = .live ∧ ReturnsAt f t.draft.current [] []) ∧
      (∀ source target, f.Edge source target → target.role ≠ .loopEnd) ∧
      (Boundary #[] {} {} input [.loop [.i32], .i32Const 1, .ifBlock {}, .br 1, .endBlock, .br 1,
        .endBlock] u ∧ u.stack.toList = [.int 32 0]) ∧
      lowerBody #[] 0 {} {} [0x00, 0x0C, 0x01, 0x0B] =
        .error (Fault.malformed.within (.inBody 0 0 0x0C)) := by
  have hok : (lowerFunction #[] 0 0 {} {} [0x00, 0x03, 0x7F, 0x41, 0x01, 0x04, 0x40, 0x0C, 0x01,
      0x0B, 0x0C, 0x01, 0x0B, 0x1A, 0x0B]).toOption.isSome = true := by decide +kernel
  obtain ⟨⟨f, table⟩, h⟩ := exists_ok_of_isSome hok
  have hbody : Body.read #[] [] [0x00, 0x03, 0x7F, 0x41, 0x01, 0x04, 0x40, 0x0C, 0x01, 0x0B, 0x0C,
      0x01, 0x0B, 0x1A, 0x0B] =
      .ok ⟨[], [(0x03, .loop [.i32]), (0x41, .i32Const 1), (0x04, .ifBlock {}), (0x0C, .br 1),
        (0x0B, .endBlock), (0x0C, .br 1), (0x0B, .endBlock), (0x1A, .drop), (0x0B, .endBlock)],
        none⟩ := by decide +kernel
  have hstart : State.start {} [] {} = .ok (State.initial {} {}) := rfl
  have hlive : ((State.initial {} {}).steps
      [.loop [.i32], .i32Const 1, .ifBlock {}]).toOption.map State.phase = some .live := by
    decide +kernel
  have hlive' : ((State.initial {} {}).steps [.loop [.i32], .i32Const 1, .ifBlock {}, .br 1,
      .endBlock]).toOption.map State.phase = some .live := by decide +kernel
  have hlive'' : ((State.initial {} {}).steps [.loop [.i32], .i32Const 1, .ifBlock {}, .br 1,
      .endBlock, .br 1, .endBlock]).toOption.map State.phase = some .live := by decide +kernel
  obtain ⟨s, hs, hslive⟩ := exists_ok_of_map hlive
  obtain ⟨t, ht, htlive⟩ := exists_ok_of_map hlive'
  obtain ⟨u, hu, -⟩ := exists_ok_of_map hlive''
  have hboundary : ∀ {done : List Operator} {s : State},
      done <+: [.loop [.i32], .i32Const 1, .ifBlock {}, .br 1, .endBlock, .br 1, .endBlock, .drop,
        .endBlock] → (State.initial {} {}).steps done = .ok s →
      Boundary #[] {} {} [0x00, 0x03, 0x7F, 0x41, 0x01, 0x04, 0x40, 0x0C, 0x01, 0x0B, 0x0C, 0x01,
        0x0B, 0x1A, 0x0B] done s := fun hdone hsteps => ⟨_, _, hbody, hstart, hdone, hsteps⟩
  have hbs := hboundary (by simp [List.cons_prefix_cons]) hs
  have hbt := hboundary (by simp [List.cons_prefix_cons]) ht
  have hbu := hboundary (by simp [List.cons_prefix_cons]) hu
  obtain ⟨hbranches, hfunction⟩ := @branches_follow_nesting #[] 0 0 {} {} _ _ hbody
  -- The branch to the loop, the only operator with one construct open inside it.
  obtain ⟨n, hn, -, hfirst⟩ := hbranches _ s 1 (by simp [List.cons_prefix_cons]) hbs hslive
  obtain rfl := Option.some.inj hn
  obtain ⟨before, op, inside, target, hdone, hop, hinside, htarget, hends⟩ :=
    (hfirst f table h).1 (by decide)
  have hrole : target.role = .loopBegin := by
    cases htarget with
    | loop _ _ labelled => exact labelled
    | join opener _ _ _ _ =>
      rcases before with _ | ⟨_, _ | ⟨_, _ | ⟨_, before⟩⟩⟩
      · obtain ⟨rfl, -⟩ := List.cons.inj hdone
        cases opener
      · obtain ⟨rfl, -⟩ := List.cons.inj (List.cons.inj hdone).2
        cases hop
      · obtain ⟨-, rfl⟩ := List.cons.inj (List.cons.inj (List.cons.inj hdone).2).2
        cases hinside
      · simp at hdone
  obtain ⟨m, hm, -, hsecond⟩ := hbranches _ t 1 (by simp [List.cons_prefix_cons]) hbt htlive
  obtain rfl := Option.some.inj hm
  obtain ⟨xs, values, -, hlength, hreturns⟩ := (hsecond f table h).2 rfl
  obtain rfl := List.eq_nil_of_length_eq_zero hlength
  obtain ⟨-, hedges, hresults, -⟩ := hfunction f table h
  obtain ⟨natives, hnatives, hstack⟩ := hresults [] [.i32]
    [.i32Const 1, .ifBlock {}, .br 1, .endBlock, .br 1] (State.initial {} {}) u
    (hboundary List.nil_prefix rfl) rfl rfl hbu
  obtain rfl : [.int 32] = natives := Except.ok.inj hnatives
  have hbody' : Body.read #[] [] [0x00, 0x0C, 0x01, 0x0B] =
      .ok ⟨[], [(0x0C, .br 1), (0x0B, .endBlock)], none⟩ := by decide +kernel
  obtain ⟨k, hk, hbeyond, -⟩ := (@branches_follow_nesting #[] 0 0 {} {} _ _ hbody').1 []
    (State.initial {} {}) 1 (by simp [List.cons_prefix_cons])
    ⟨_, _, hbody', hstart, List.nil_prefix, rfl⟩ rfl
  obtain rfl := Option.some.inj hk
  exact ⟨_, f, table, s, t, u, target, rfl, h, ⟨hbs, hslive, hends, hrole⟩, ⟨hbt, htlive, hreturns⟩,
    hedges, ⟨hbu, hstack⟩, hbeyond (by decide)⟩

end Branches

end WasmLowering.Lowering
