import WasmLowering.Proofs.Completion
import WasmLowering.Proofs.ReturnedValues
import WasmLowering.Proofs.Transfers

/-!
# Open constructs

While a body runs, every construct that it is in has a label, and the lowering has the same
construct open. A branch to the label of a loop goes back to the point at which the loop was
entered. A branch to another label goes on after the construct, where the lowering gets later.

## Key results

- `Aims`, `Targets`: what the labels stand for in the lowering
- `Simulates`: a machine stands where the body stands
- `joins_inside`: from a branch to the end of a construct, the lowering gets to that end
- `block_simulates`, `loop_simulates`: entering a construct
-/

namespace WasmLowering.Ssa.Draft

variable {d : Draft} {waiting : List Label}

/-- A new end block leaves the other blocks as they are. -/
theorem code_newJoin (hn : d.Numbered) (role : BlockRole) (types : List ScalarType) {l : Label}
    (hl : l ∈ d.labels) : (d.newJoin role types).code l = d.code l := by
  rw [newJoin, code_addPhis (hn.newBlock role) (by simp) types (by simp [hl]),
    if_neg (newBlock_ne role hn hl), code_newBlock role hn hl]

/-- A block that is gone on to starts out empty. -/
private theorem code_goOn (ha : d.Arranged waiting) (role : BlockRole) :
    (d.goOn role).code d.current = d.code d.current ++ [.br (d.newBlock role).1] ∧
      (d.goOn role).code (d.newBlock role).1 = [] := by
  have hn := ha.newBlock role
  have hne := (newBlock_ne role ha.numbered ha.current_mem).symm
  have hcode := code_newBlock role ha.numbered ha.current_mem
  constructor
  · refine (hn.code_append _).trans ?_
    exact congrArg (· ++ [Line.br (d.newBlock role).1]) hcode
  · refine (code_append _ hn.numbered hn.current_mem (by simp)).trans ?_
    rw [if_neg (by simpa using hne), code_newBlock_self]

end WasmLowering.Ssa.Draft

namespace WasmLowering.Lowering

open Ssa Draft Validation

theorem OperandsTyped.map_type_eq {vs ws : List Operand} {ts : List ValueType}
    (hv : OperandsTyped vs ts) (hw : OperandsTyped ws ts) :
    vs.map Operand.type = ws.map Operand.type :=
  Except.ok.inj (hv.mapM.symm.trans hw.mapM)

theorem length_eq_of_types {vs ws : List Operand}
    (h : vs.map Operand.type = ws.map Operand.type) : vs.length = ws.length := by
  simpa using congrArg List.length h

/-! ## Results on top of the stack -/

/-- The topmost operands and those below them make up the stack. -/
theorem take_append_top (s : State) (n : Nat) :
    s.stack.toList.take (s.stack.size - n) ++ (s.top n).toList = s.stack.toList := by
  have hdrop : (s.stack.toList.drop (s.stack.size - n)).length ≤
      s.stack.size - (s.stack.size - n) := by simp
  rw [State.top, Array.toList_extract, List.extract_eq_take_drop, List.take_of_length_le hdrop,
    List.take_append_drop]

/-- On top of the stack are operands of the types of a construct's results. -/
def State.Carries (s : State) (k : Construct) : Prop :=
  (s.top k.results.length).toList.map Operand.type = k.results.map Operand.type

section Carries

variable {args : List Scalar} {f : Ssa.Function} {last s v : State} {m : Machine}
  {stack locals : List Value} {k : Construct} {xs vs : List Operand}

/-- The topmost operands are carried if they are of the types of the results. -/
theorem State.Carries.of_stack (hstack : s.stack.toList = xs ++ vs)
    (htypes : vs.map Operand.type = k.results.map Operand.type) : s.Carries k := by
  rw [State.Carries, ← length_eq_of_types htypes, toList_top hstack]
  exact htypes

/-- As many operands are carried as the construct has results. -/
theorem State.Carries.size_eq (h : s.Carries k) :
    (s.top k.results.length).size = k.results.length := by
  rw [← Array.length_toList]
  exact length_eq_of_types h

theorem State.Carries.move (h : s.Carries k) (live : s.phase = .live) (mem : k ∈ s.constructs)
    (hk : ∀ head, k.kind ≠ .loop head) : Move s (s.jumped k.exit (s.top k.results.length)) :=
  .jump live mem hk h.size_eq fun _ hv => .inl (mem_of_mem_top hv)

/-- A branch to the end of a construct takes the results along. -/
theorem Running.carry (h : Running args last s stack locals m) (hl : Lowered f last)
    (hd : s.Disciplined) (hordered : s.Ordered) (mem : k ∈ s.constructs) (hc : s.Carries k)
    (hmove : Move s (s.jumped k.exit (s.top k.results.length)))
    (hlast : Moves (s.jumped k.exit (s.top k.results.length)) last)
    (hj : Joins last s k (s.top k.results.length).toList v) :
    ∃ m', f.Leads args m m' ∧ Running args last v
      (stack.take k.base ++ stack.drop (stack.length - k.results.length)) locals m' := by
  have hstack := h.stack
  rw [← take_append_top s k.results.length] at hstack
  exact h.jump hl hd hordered mem hmove hlast hj (hstack.split (length_eq_of_types hc)).2 hc

/-- At the end of an arm, nothing is left between what is below a construct and its results. -/
theorem Running.arm_stack (h : Running args last s stack locals m)
    (hsize : s.stack.size = k.base + k.results.length) :
    stack.take k.base ++ stack.drop (stack.length - k.results.length) = stack := by
  have hlen : stack.length - k.results.length = k.base := by
    rw [← h.stack.length_eq, Array.length_toList, hsize, Nat.add_sub_cancel]
  rw [hlen, List.take_append_drop]

end Carries

/-! ## Labels -/

/-- Where a branch to the label of a construct goes on in the lowering. -/
inductive Aims (body : BodyTypes) (result : NativeType) (last : State) (stack : List Operand)
    (next : List Operator) (outer : List Construct) (label : Target) (k : Construct) : Prop where
  /-- At the point where the loop was entered, whose state is `h`. -/
  | loop {head : Label} {h : State} (kind : k.kind = .loop head) (isLoop : label.isLoop = true)
      (arity : label.arity = 0) (height : label.height = k.base)
      (code : afterEnd 0 label.code = next) (point : At body result last label.code h)
      (live : h.phase = .live) (constructs : h.constructs = k :: outer)
      (current : h.draft.current = head) (empty : h.draft.code head = [])
      (stack : h.stack.toList = stack.take k.base)
  /-- After the construct. -/
  | join (kind : ∀ head, k.kind ≠ .loop head) (isLoop : label.isLoop = false)
      (arity : label.arity = k.results.length) (height : label.height = k.base)
      (code : label.code = next)

/-- The labels of a body that runs are those of the constructs that the lowering has open. -/
inductive Targets (body : BodyTypes) (result : NativeType) (last : State) (stack : List Operand) :
    List Operator → List Target → List Construct → Prop where
  | nil {code : List Operator} : Targets body result last stack code [] []
  | cons {code : List Operator} {label : Target} {labels : List Target} {k : Construct}
      {ks : List Construct} (top : Aims body result last stack (afterEnd 0 code) ks label k)
      (rest : Targets body result last stack (afterEnd 0 code) labels ks) :
      Targets body result last stack code (label :: labels) (k :: ks)

section Targets

variable {body : BodyTypes} {result : NativeType} {last : State} {stack stack' : List Operand}
  {code code' : List Operator} {label : Target} {labels outer : List Target} {k : Construct}
  {ks : List Construct}

/-- There are as many labels as open constructs. -/
theorem Targets.length_eq (h : Targets body result last stack code labels ks) :
    labels.length = ks.length := by
  induction h with
  | nil => rfl
  | cons _ _ ih => simp [ih]

/-- Where a branch goes depends on what is below the construct only. -/
theorem Aims.congr (h : Aims body result last stack code ks label k)
    (hstack : stack'.take k.base = stack.take k.base) :
    Aims body result last stack' code ks label k := by
  cases h with
  | loop kind isLoop arity height code point live constructs current empty stack =>
    exact .loop kind isLoop arity height code point live constructs current empty
      (stack.trans hstack.symm)
  | join kind isLoop arity height code => exact .join kind isLoop arity height code

/-- Labels depend on the code after the innermost construct only, and on what is below the
    constructs. -/
theorem Targets.congr (h : Targets body result last stack code labels ks)
    (hcode : afterEnd 0 code' = afterEnd 0 code)
    (hstack : ∀ k ∈ ks, stack'.take k.base = stack.take k.base) :
    Targets body result last stack' code' labels ks := by
  induction h generalizing code' with
  | nil => exact .nil
  | cons top rest ih =>
    refine .cons ?_ ?_
    · rw [hcode]
      exact top.congr (hstack _ List.mem_cons_self)
    · rw [hcode]
      exact ih rfl fun k hk => hstack k (List.mem_cons_of_mem _ hk)

/-- The label that a branch goes to. -/
theorem Targets.drop {depth : Nat} (h : Targets body result last stack code labels ks)
    (hdrop : labels.drop depth = label :: outer) :
    ∃ k ks', ks.drop depth = k :: ks' ∧
      Aims body result last stack (afterEnd depth code) ks' label k ∧
      Targets body result last stack (afterEnd depth code) outer ks' := by
  induction depth generalizing code labels ks with
  | zero =>
    cases h with
    | nil => cases hdrop
    | cons top rest =>
      obtain ⟨rfl, rfl⟩ := List.cons.inj hdrop
      exact ⟨_, _, rfl, top, rest⟩
  | succ depth ih =>
    cases h with
    | nil => cases hdrop
    | cons top rest =>
      -- The label of an outer construct is found behind the end of the inner one.
      obtain ⟨k, ks', hks, htop, hrest⟩ := ih rest hdrop
      rw [afterEnd_afterEnd, Nat.zero_add, Nat.add_comm] at htop hrest
      exact ⟨k, ks', hks, htop, hrest⟩

end Targets

/-! ## Simulation -/

/-- A machine that runs a lowered function stands where the body stands. -/
structure Simulates (body : BodyTypes) (result : NativeType) (args : List Scalar) (last : State)
    (c : Config) (m : Machine) (s : State) : Prop where
  point : At body result last c.code s
  live : s.phase = .live
  running : Running args last s c.stack c.locals m
  targets : Targets body result last s.stack.toList c.code c.labels s.constructs

/-- The labels of constructs that stay open. -/
theorem Targets.moves {body : BodyTypes} {result : NativeType} {last s t : State}
    {code code' : List Operator} {labels : List Target} {ks : List Construct}
    (h : Targets body result last s.stack.toList code labels ks) (hd : s.Disciplined)
    (hf : s.Framed) (hm : Moves s t) (hs : ks ⊆ s.constructs) (ht : ks ⊆ t.constructs)
    (hcode : afterEnd 0 code' = afterEnd 0 code) :
    Targets body result last t.stack.toList code' labels ks :=
  h.congr hcode fun _ hk =>
    (Moves.stays_open hm hd hf (hs hk) (ht hk) rfl).2.2.1

section Leaving

variable {body : BodyTypes} {result : NativeType} {last s t : State} {code : List Operator}
  {k : Construct} {ks : List Construct} {depth : Nat}

/-- At the end of an arm, the code is live or was dead within this arm. -/
theorem State.AtArmEnd.isLive (h : s.AtArmEnd) :
    (s.phase.isLive = true → s.phase = .live) ∧
      (s.phase.isLive = false → ∃ depth, s.phase = .dead depth) := by
  obtain h | h := h
  · rw [h]
    exact ⟨fun _ => rfl, fun h => by cases h⟩
  · rw [h]
    exact ⟨fun h => (by cases h), fun _ => ⟨0, rfl⟩⟩

/-- An `else` at the end of an arm is that of the innermost construct. -/
theorem elseBlock_of_step (hend : s.AtArmEnd) (h : s.step .elseBlock = .ok t) :
    s.elseBlock s.phase.isLive = .ok t := by
  unfold State.step at h
  obtain hp | hp := hend
  · rw [hp] at h ⊢
    exact h
  · rw [hp] at h ⊢
    exact h

/-- Where the code is live, the innermost construct is the one that the code is in. -/
theorem Inside.of_top (htop : s.constructs = k :: ks) (live : s.phase = .live) :
    Inside k ks 0 s where
  split := ⟨[], htop⟩
  depth := by simp [State.depth, live, htop]

/-- After a branch to the end of a construct, the lowering gets to that end. -/
theorem joins_inside {values : Array Operand} (hd : s.Disciplined) (hf : s.Framed)
    (mem : k ∈ s.constructs) (harity : values.size = k.results.length)
    (hmove : Move s (s.jumped k.exit values)) (hm : Moves (s.jumped k.exit values) t)
    (hat : At body result last code t) {kind : ConstructKind}
    (hin : Inside { k with kind } ks depth t) (hfinished : last.phase = .finished) :
    ∃ v, Joins last s k values.toList v ∧ Moves t v ∧ At body result last (afterEnd depth code) v ∧
      v.phase = .live ∧ v.constructs = ks := by
  -- The operators up to the end may be dead code, and there may be a second arm among them.
  obtain ⟨before, u, v, kind', hcode, hbefore, hend, -, harm, htop, -⟩ :=
    hin.atEnd hat.steps hfinished
  have hsteps : t.steps (before ++ [.endBlock]) = .ok v :=
    steps_append.2 ⟨u, hbefore, steps_cons.2 ⟨v, hend, steps_nil⟩⟩
  have hatv : At body result last (afterEnd depth code) v := by
    refine At.after ?_ hsteps
    rw [List.append_assoc, List.singleton_append, ← hcode]
    exact hat
  -- The last arm of the construct is left, and what follows starts at its end block.
  obtain ⟨u', _, kind'', hu', -, htop', -, -, -, rfl⟩ :=
    endBlock_left harm.isLive.1 harm.isLive.2 htop (endBlock_of_step harm hend)
  have hmoves := (hm.trans (steps_moves hat.framed hbefore)).trans hu'
  exact ⟨_, joins_left hd hf mem harity hmove hmoves htop' rfl hatv.disciplined hatv.moves,
    steps_moves hat.framed hsteps, hatv, rfl, rfl⟩

/-- A branch to the end of a construct leads to the state that follows the construct. -/
theorem Simulates.leaves {args : List Scalar} {f : Ssa.Function} {c : Config} {m : Machine}
    (h : Simulates body result args last c m s) (hl : Lowered f last)
    (hfinished : last.phase = .finished) (mem : k ∈ s.constructs)
    (hk : ∀ head, k.kind ≠ .loop head) (hc : s.Carries k)
    (hm : Moves (s.jumped k.exit (s.top k.results.length)) t) (hat : At body result last code t)
    {kind : ConstructKind} (hin : Inside { k with kind } ks depth t) :
    ∃ m' v, f.Leads args m m' ∧ Moves t v ∧ At body result last (afterEnd depth code) v ∧
      v.phase = .live ∧ v.constructs = ks ∧ Running args last v
        (c.stack.take k.base ++ c.stack.drop (c.stack.length - k.results.length)) c.locals m' := by
  have hmove := hc.move h.live mem hk
  obtain ⟨v, hj, hmv, hatv, hlive, htop⟩ := joins_inside h.point.disciplined h.point.framed mem
    hc.size_eq hmove hm hat hin hfinished
  obtain ⟨m', hleads, hrun⟩ := h.running.carry hl h.point.disciplined h.point.ordered mem hc hmove
    (hm.trans hat.moves) hj
  exact ⟨m', v, hleads, hmv, hatv, hlive, htop, hrun⟩

end Leaving

/-! ## Entering a construct -/

section Entering

variable {body : BodyTypes} {result : NativeType} {args : List Scalar} {f : Ssa.Function}
  {last s t : State} {c : Config} {m : Machine} {code : List Operator}

/-- The next operator can be lowered, and leads to the next point. -/
theorem Simulates.lower {op : Operator} (h : Simulates body result args last c m s)
    (hcode : c.code = op :: code) :
    ∃ t, s.lower op = .ok t ∧ Moves s t ∧ At body result last code t := by
  have hat := hcode ▸ h.point
  obtain ⟨t, ht, hat'⟩ := hat.step
  refine ⟨t, ?_, step_moves hat.framed ht, hat'⟩
  rw [State.step, h.live] at ht
  exact ht

/-- At a `block` the machine stays where it is, and a label for the end is added. -/
theorem block_simulates (h : Simulates body result args last c m s) {type : FuncType}
    (hcode : c.code = .block type :: code) :
    ∃ t, Simulates body result args last
      { c with code, labels := Config.label type c.stack code :: c.labels } m t := by
  obtain ⟨t, hlower, hm, hat⟩ := h.lower hcode
  have hd := h.point.disciplined
  obtain ⟨-, types, htypes, rfl⟩ := enter_eq_ok.1 hlower
  refine ⟨_, hat, h.live, ?_, .cons (.join (fun _ h => by cases h) rfl ?_ ?_ rfl) ?_⟩
  -- Only the end block is new, and the insertion block stays.
  · refine h.running.restack hd hm hat.moves ?_ ?_ h.running.stack
    · simp [State.opened, newJoin]
    · exact code_newJoin hd.sound.numbered .blockEnd types hd.sound.current_mem
  · exact (operandsTyped_phiValues _ htypes).length_eq.symm
  · show c.stack.length - _ = s.stack.size - _
    rw [← h.running.stack.length_eq, Array.length_toList]
  · refine h.targets.moves hd h.point.framed hm (fun _ hk => hk)
      (fun _ hk => List.mem_cons_of_mem _ hk) ?_
    rw [afterEnd_afterEnd, hcode]
    rfl

/-- At a `loop` the machine goes on in a new block, which is where branches to the loop go. -/
theorem loop_simulates (hl : Lowered f last) (h : Simulates body result args last c m s)
    {results : List ValueType} (hcode : c.code = .loop results :: code) :
    ∃ m' t, f.Leads args m m' ∧ Simulates body result args last
      { c with
        code
        labels := { isLoop := true, code, arity := 0, height := c.stack.length } :: c.labels }
      m' t := by
  obtain ⟨t, hlower, hm, hat⟩ := h.lower hcode
  have hd := h.point.disciplined
  have hs := hd.open h.live
  obtain ⟨-, types, htypes, rfl⟩ := enter_eq_ok.1 hlower
  have hgoOn := hs.goOn .loopBegin rfl
  obtain ⟨hbr, hempty⟩ := code_goOn hs.toArranged .loopBegin
  have hcurrent : s.draft.current ∈ (s.draft.goOn .loopBegin).labels := by
    simp [goOn, hs.current_mem]
  have hne := (newBlock_ne .loopBegin hs.numbered hs.entry_mem).symm
  let t := (s.begun .loopBegin).opened (.loop (s.draft.newBlock .loopBegin).1) .loopEnd types
    s.stack.size
  have hhead : t.draft.current = (s.draft.newBlock .loopBegin).1 := by
    simp [t, State.opened, State.begun, newJoin, goOn]
  have hstart : t.draft.code (s.draft.newBlock .loopBegin).1 = [] :=
    (code_newJoin hgoOn.numbered .loopEnd types hgoOn.current_mem).trans hempty
  -- The insertion block ends with a branch to the first block of the loop, which is new.
  obtain ⟨rest, hrest, -, -⟩ := h.running.next hd hm hat.moves
    ((code_newJoin hgoOn.numbered .loopEnd types hcurrent).trans hbr) (by simp [Line.isReturnSlot])
  obtain ⟨m', henter, hrun⟩ := @arrive args f last t m c.stack c.locals hl hat.disciplined hat.moves
    (hhead ▸ hstart) (by rw [hhead]; rfl) (by rw [hhead]; exact hne) h.running.stack
    h.running.stored
  rw [hhead] at henter
  refine ⟨m', t, f.leads_br hrest henter, hat, h.live, hrun, .cons ?_ ?_⟩
  · refine .loop rfl rfl rfl ?_ rfl hat h.live rfl hhead hstart ?_
    · show c.stack.length = s.stack.size
      rw [← h.running.stack.length_eq, Array.length_toList]
    · show s.stack.toList = s.stack.toList.take s.stack.size
      rw [← Array.length_toList, List.take_length]
  · refine h.targets.moves hd h.point.framed hm (fun _ hk => hk)
      (fun _ hk => List.mem_cons_of_mem _ hk) ?_
    rw [afterEnd_afterEnd, hcode]
    rfl

end Entering

end WasmLowering.Lowering
