import WasmLowering.Proofs.OpenConstructs

/-!
# Leaving constructs

At the end of an arm and at a branch, the results of a construct are on top of the stack. They go
along into the phis of the end block. What follows a branch up to the end of the construct is
lowered as dead code, so the state that the machine gets to is found by counting.

## Key results

- `At.arm`, `At.carries`: the results are on top of the stack
- `elseBlock_simulates`, `endBlock_simulates`: the end of an arm
- `br_simulates`: branches out of constructs and back to loops
-/

namespace WasmLowering

/-- What a branch to a label makes of a configuration. A loop stays open. -/
def Config.taken (c : Config) (label : Target) (outer : List Target) : Config :=
  { c with
    code := label.code
    stack := c.stack.take label.height ++ c.stack.drop (c.stack.length - label.arity)
    labels := if label.isLoop then label :: outer else outer }

/-- A branch goes to a label that is open. -/
theorem Config.branch_eq_some {c : Config} {depth : Nat} {r : Config.Step}
    (h : c.branch depth = some r) :
    ∃ label outer, c.labels.drop depth = label :: outer ∧ r = .next (c.taken label outer) := by
  unfold Config.branch at h
  split at h
  · cases h
  next label outer hlabels =>
    simp only [Option.bind_eq_bind, Option.bind_eq_some_iff, Option.pure_def] at h
    obtain ⟨⟨below, values⟩, hsplit, h⟩ := h
    obtain ⟨-, -, rfl⟩ := Config.split_eq_some.1 hsplit
    exact ⟨label, outer, hlabels, (Option.some.inj h).symm⟩

end WasmLowering

namespace WasmLowering.Lowering

open Ssa Draft Validation

section Exits

variable {body : BodyTypes} {result : NativeType} {args : List Scalar} {f : Ssa.Function}
  {last s t : State} {c c' : Config} {m : Machine} {code : List Operator} {k : Construct}
  {ks : List Construct}

/-- The operands at the end of an arm. -/
theorem Reached.arm {ch ch' : Checker} {ts : List ValueType} {fr fr' : Validation.Frame}
    {rest : List Validation.Frame} (h : Reached body result ch s ts fr rest)
    (hleave : ch.leave = some (fr', ch')) :
    ∃ xs vs, s.stack.toList = xs ++ vs ∧ xs.length = fr.height ∧ OperandsTyped vs fr.stop := by
  obtain ⟨ts', rfl, hlen, -⟩ :=
    size_of_leave h.vals h.typed h.agrees.framed h.split h.top_live hleave
  obtain ⟨xs, vs, hstack, hxs, hvs⟩ := h.typed.split
  exact ⟨xs, vs, hstack, hxs.length_eq.trans hlen, hvs⟩

/-- At the end of an arm, nothing but the results of the construct is on top of what is below it. -/
theorem At.arm {op : Operator} (hat : At body result last (op :: code) s) (live : s.phase = .live)
    (hop : op = .elseBlock ∨ op = .endBlock) (htop : s.constructs = k :: ks) :
    s.Carries k ∧ s.stack.size = k.base + k.results.length := by
  obtain ⟨ch, ch', ts, fr, rest, hr, hcheck⟩ := hat.reached live
  -- Both ends of an arm leave the frame of the construct.
  obtain ⟨fr', ch₁, hleave⟩ : ∃ fr' ch₁, ch.leave = some (fr', ch₁) := by
    obtain rfl | rfl := hop
    · obtain ⟨fr', ch₁, hleave, -⟩ := Checker.elseBlock_eq_some hcheck
      exact ⟨fr', ch₁, hleave⟩
    · obtain ⟨fr', ch₁, hleave, -⟩ := Checker.endBlock_eq_some hcheck
      exact ⟨fr', ch₁, hleave⟩
  obtain ⟨xs, vs, hstack, hlen, hvs⟩ := hr.arm hleave
  have hagree := hr.split ▸ hr.frames
  rw [htop] at hagree
  cases hagree with
  | construct top _ =>
    have htypes := hvs.map_type_eq top.results
    refine ⟨.of_stack hstack htypes, ?_⟩
    rw [← Array.length_toList, hstack, List.length_append, hlen, top.height,
      length_eq_of_types htypes]

/-- A live arm ends with a branch to the end of its construct. -/
private theorem exitLast_eq_jumped {u : State} (hk : ∀ head, k.kind ≠ .loop head)
    (h : s.exitLast k true = .ok u) :
    ({ u with phase := .dead 0 } : State) = s.jumped k.exit (s.top k.results.length) := by
  have hexit : s.exitTo k = .ok u := by
    simp only [State.exitLast, if_true] at h
    exact (exitArm_eq_ok.1 h).2
  obtain ⟨head, hhead, -⟩ | ⟨-, -, rfl⟩ := exitTo_eq_ok.1 hexit
  · exact absurd hhead (hk head)
  · rfl

/-- At the end of a first arm the machine goes on after the conditional. -/
theorem elseBlock_simulates (hl : Lowered f last) (hfinished : last.phase = .finished)
    (h : Simulates body result args last c m s) (hcode : c.code = .elseBlock :: code)
    {label : Target} {labels : List Target} (hlabels : c.labels = label :: labels) :
    ∃ m' t, f.Leads args m m' ∧
      Simulates body result args last { c with code := label.code, labels } m' t := by
  obtain ⟨t, hlower, hm, hat⟩ := h.lower hcode
  obtain ⟨k, ks, other, ps, u, htop, hk, hexit, hbase, rfl⟩ := elseBlock_eq_ok.1 hlower
  have hloop : ∀ head, k.kind ≠ .loop head := fun head hhead => by
    rw [hk] at hhead
    cases hhead
  have mem : k ∈ s.constructs := htop ▸ List.mem_cons_self
  obtain ⟨hcarries, hsize⟩ := (hcode ▸ h.point).arm h.live (.inl rfl) htop
  -- The lowering goes on with the second arm, and gets to the end after that.
  have halt : Move { u with phase := .dead 0 } (u.alternated k ks other ps) :=
    .alternate rfl (exitLast_eq_jumped hloop hexit ▸ htop) hk hbase
  rw [exitLast_eq_jumped hloop hexit] at halt
  have hin : Inside { k with kind := .elseArm } ks 0 (u.alternated k ks other ps) :=
    .of_top rfl rfl
  obtain ⟨m', v, hleads, hmv, hatv, hlive, hconstructs, hrun⟩ :=
    h.leaves hl hfinished mem hloop hcarries (.single halt) hat hin
  rw [h.running.arm_stack hsize] at hrun
  have htargets := h.targets
  rw [hlabels, htop] at htargets
  cases htargets with
  | cons top rest =>
    -- The label of a conditional is that of its end.
    cases top with
    | loop kind => exact absurd kind (hloop _)
    | join _ _ _ _ hnext =>
      have hafter : afterEnd 0 c.code = afterEnd 0 code := by
        rw [hcode]
        rfl
      refine ⟨m', v, hleads, ?_, hlive, hrun, ?_⟩
      · show At body result last label.code v
        rw [hnext, hafter]
        exact hatv
      · show Targets body result last v.stack.toList label.code labels v.constructs
        rw [hconstructs, hnext]
        exact rest.moves h.point.disciplined h.point.framed (hm.trans hmv)
          (htop ▸ List.subset_cons_self ..) (by rw [hconstructs]; exact fun _ hk => hk) rfl

/-- At the end of a construct the machine goes on in the end block. Loops are not among them: the
    lowering makes a branch back of falling off their end. -/
theorem endBlock_simulates (hl : Lowered f last) (h : Simulates body result args last c m s)
    (hcode : c.code = .endBlock :: code) {label : Target} {labels : List Target}
    (hlabels : c.labels = label :: labels) (hloop : label.isLoop = false) :
    ∃ m' t, f.Leads args m m' ∧ Simulates body result args last { c with code, labels } m' t := by
  obtain ⟨t, hlower, hm, hat⟩ := h.lower hcode
  have htargets := h.targets
  rw [hlabels] at htargets
  generalize hks : s.constructs = constructs at htargets
  cases htargets with
  | @cons _ _ _ k ks top rest =>
    cases top with
    | loop _ hisLoop =>
      rw [hloop] at hisLoop
      cases hisLoop
    | join hk _ _ _ _ =>
      have mem : k ∈ s.constructs := hks ▸ List.mem_cons_self
      obtain ⟨hcarries, hsize⟩ := (hcode ▸ h.point).arm h.live (.inr rfl) hks
      have hmove := hcarries.move h.live mem hk
      obtain ⟨u, hexit, hleave⟩ := (endBlock_eq_ok hks).1 hlower
      have hjumped := exitLast_eq_jumped hk hexit
      have htop : u.constructs = k :: ks := by
        have hconstructs := congrArg State.constructs hjumped
        exact hconstructs.trans hks
      -- An arm that has no code may come between the branch and the end block.
      obtain ⟨u', depth, kind, hmu, hdead, htop', hkind, hbase, -, rfl⟩ := leave_left 0 htop hleave
      rw [hjumped] at hmu
      have hj := joins_left h.point.disciplined h.point.framed mem hcarries.size_eq hmove hmu htop'
        rfl hat.disciplined hat.moves
      have hleft : Move u' (u'.left { k with kind } ks) := .leave hdead htop' hkind hbase
      obtain ⟨m', hleads, hrun⟩ := h.running.carry hl h.point.disciplined h.point.ordered mem
        hcarries hmove ((hmu.tail hleft).trans hat.moves) hj
      rw [h.running.arm_stack hsize] at hrun
      refine ⟨m', _, hleads, hat, rfl, hrun, ?_⟩
      rw [hcode] at rest
      exact rest.moves h.point.disciplined h.point.framed hm (hks ▸ List.subset_cons_self ..)
        (fun _ hk => hk) rfl

/-! ## Branches -/

/-- A branch takes the results of the construct along, or those of the function if it leaves all
    constructs. -/
theorem At.carries {depth : UInt32} (hat : At body result last (.br depth :: code) s)
    (live : s.phase = .live) :
    ∃ xs vs, s.stack.toList = xs ++ vs ∧
      (∀ k, s.constructs[depth.toNat]? = some k → (∀ head, k.kind ≠ .loop head) → s.Carries k) ∧
      (depth.toNat = s.constructs.length → OperandsTyped vs s.results) := by
  obtain ⟨ch, ch', ts, fr, rest, hr, hcheck⟩ := hat.reached live
  replace hcheck : ch.br depth.toNat = some ch' := hcheck
  simp only [Checker.br, Option.bind_eq_bind, Option.bind_eq_some_iff] at hcheck
  obtain ⟨target, htarget, hjump⟩ := hcheck
  simp only [Checker.jump, Option.bind_eq_bind, Option.bind_eq_some_iff] at hjump
  obtain ⟨ch₁, hpop, -⟩ := hjump
  obtain ⟨ts', xs, vs, -, hstack, -, hvs, -⟩ := hr.pop hpop
  refine ⟨xs, vs, hstack, fun k hk hloop => ?_, fun hdepth => ?_⟩
  -- Out of an open construct, the branch takes its results.
  · obtain ⟨hdepth, -, -⟩ | ⟨-, k', hk', hagree⟩ := hr.frames.get htarget
    · rw [List.getElem?_eq_none (by omega)] at hk
      cases hk
    · obtain rfl := Option.some.inj (hk'.symm.trans hk)
      have hlabel : target.label = target.stop := by
        have hkind := hagree.kind
        cases hk' : k'.kind <;> simp_all [KindAgrees, Validation.Frame.label]
      exact .of_stack hstack ((hlabel ▸ hvs).map_type_eq hagree.results)
  -- Out of all constructs, those of the function.
  · obtain ⟨-, hkind, hstop⟩ | ⟨hlt, -⟩ := hr.frames.get htarget
    · have hlabel : target.label = s.results := by
        simp [Validation.Frame.label, hkind, hstop, hr.agrees.results]
      exact hlabel ▸ hvs
    · omega

/-- A branch out of fewer constructs than are open. -/
theorem exits_of_br {depth : Nat} (hk : s.constructs[depth]? = some k) (h : s.br depth = .ok t) :
    ∃ u, s.exitTo k = .ok u ∧ u.base ≤ u.stack.size ∧
      t = { u with stack := u.stack.take u.base, phase := .dead 0 } := by
  have hlt : depth < s.constructs.length := (List.getElem?_eq_some_iff.1 hk).1
  rw [State.br, if_neg (Nat.ne_of_lt hlt), hk] at h
  obtain ⟨u, hu, h⟩ := bind_eq_ok.1 h
  obtain ⟨hbase, rfl⟩ := enterDead_eq_ok.1 h
  exact ⟨u, hu, hbase, rfl⟩

/-- A branch to a loop leads to the point where the loop was entered. -/
theorem Simulates.returns_to (h : Simulates body result args last c m s) (hl : Lowered f last)
    (hm : Moves s t) (hlast : Moves t last) {head : Label} {start : State} {next : List Operator}
    (hdraft : t.draft = s.draft.append (.br head)) (hk : k.kind = .loop head)
    (hat : At body result last next start) (htop : start.constructs = k :: ks)
    (hcurrent : start.draft.current = head) (hempty : start.draft.code head = [])
    (hstack : start.stack.toList = s.stack.toList.take k.base) :
    ∃ m', f.Leads args m m' ∧ Running args last start (c.stack.take k.base) c.locals m' := by
  have hcode : t.draft.code s.draft.current = s.draft.code s.draft.current ++ [.br head] := by
    rw [hdraft]
    exact h.point.disciplined.sound.toArranged.code_append _
  obtain ⟨rest, hrest, -, -⟩ := h.running.next h.point.disciplined hm hlast hcode
    (by simp [Line.isReturnSlot])
  -- The start of a loop has no phis, and it is not the entry block.
  have hrole : head.role = .loopBegin :=
    ((hat.disciplined.labelled k (htop ▸ List.mem_cons_self)).head hk).2
  obtain ⟨m', henter, hrun⟩ := arrive hl hat.disciplined hat.moves (hcurrent ▸ hempty)
    (by rw [hcurrent, hrole]; rfl) (fun heq => by rw [← hcurrent, heq] at hrole; cases hrole)
    (hstack ▸ h.running.stack.take k.base) h.running.stored
  exact ⟨m', f.leads_br hrest (hcurrent ▸ henter), hrun⟩

section Taken

variable {label : Target} {outer : List Target} {next : List Operator}

/-- A branch back to a loop. The labels are those of the time when the loop was entered. -/
theorem Simulates.back (h : Simulates body result args last c m s) (hl : Lowered f last)
    (hm : Moves s t) (hlast : Moves t last) {head : Label}
    (hdraft : t.draft = s.draft.append (.br head)) (hkind : k.kind = .loop head)
    (haims : Aims body result last s.stack.toList next ks label k)
    (hrest : Targets body result last s.stack.toList next outer ks) :
    ∃ m' v, f.Leads args m m' ∧
      Simulates body result args last (c.taken label outer) m' v := by
  cases haims with
  | join hk => exact absurd hkind (hk head)
  | @loop head' start hk hisLoop harity hheight hnext hpoint hlive htop hcurrent hempty hstack =>
    obtain rfl := ConstructKind.loop.inj (hk.symm.trans hkind)
    obtain ⟨m', hleads, hrun⟩ :=
      h.returns_to hl hm hlast hdraft hk hpoint htop hcurrent hempty hstack
    -- Nothing was pushed below the loop since it was entered.
    have hbelow : ∀ k' : Construct, k'.base ≤ k.base →
        start.stack.toList.take k'.base = s.stack.toList.take k'.base := fun k' hle => by
      rw [hstack, List.take_take, Nat.min_eq_left hle]
    refine ⟨m', start, hleads, hpoint, hlive, ?_, ?_⟩
    · rw [Config.taken, hheight, harity, Nat.sub_zero, List.drop_length, List.append_nil]
      exact hrun
    · rw [Config.taken, if_pos hisLoop, htop]
      refine .cons ?_ ?_
      · rw [hnext]
        exact Aims.congr (.loop hk hisLoop harity hheight hnext hpoint hlive htop hcurrent
          hempty hstack) (hbelow k (Nat.le_refl _))
      · rw [hnext]
        exact hrest.congr rfl fun k' hk' => hbelow k' ((hpoint.framed.rest htop).2 k' hk')

/-- A branch out of a construct. What follows it in the innermost construct is dead code. -/
theorem Simulates.forth (h : Simulates body result args last c m s) (hl : Lowered f last)
    (hfinished : last.phase = .finished) {depth : Nat} (hks : s.constructs.drop depth = k :: ks)
    (hloop : ∀ head, k.kind ≠ .loop head) (hc : s.Carries k)
    (hm : Moves (s.jumped k.exit (s.top k.results.length)) t) (hat : At body result last code t)
    (hphase : t.phase = .dead 0) (hopen : t.constructs = s.constructs)
    (haims : Aims body result last s.stack.toList (afterEnd depth code) ks label k)
    (hrest : Targets body result last s.stack.toList (afterEnd depth code) outer ks) :
    ∃ m' v, f.Leads args m m' ∧
      Simulates body result args last (c.taken label outer) m' v := by
  have hsplit : s.constructs = s.constructs.take depth ++ k :: ks := by
    rw [← hks, List.take_append_drop]
  have mem : k ∈ s.constructs := by
    rw [hsplit]
    exact List.mem_append_right _ List.mem_cons_self
  have hsub : ks ⊆ s.constructs := by
    rw [hsplit]
    exact fun _ hk => List.mem_append_right _ (List.mem_cons_of_mem _ hk)
  -- From the jump to the matching `end` the code is dead.
  have hin : Inside { k with kind := k.kind } ks depth t := by
    refine ⟨⟨s.constructs.take depth, hopen.trans hsplit⟩, ?_⟩
    have hlength := congrArg List.length hks
    rw [List.length_drop, List.length_cons] at hlength
    rw [State.depth, hphase, hopen]
    show some (s.constructs.length + 0) = _
    congr 1
    omega
  -- It is live again behind the construct.
  obtain ⟨m', v, hleads, hmv, hatv, hlive, hconstructs, hrun⟩ :=
    h.leaves hl hfinished mem hloop hc hm hat hin
  cases haims with
  | loop hk => exact absurd hk (hloop _)
  | join _ hisLoop harity hheight hnext =>
    refine ⟨m', v, hleads, ?_, hlive, ?_, ?_⟩
    · show At body result last label.code v
      rw [hnext]
      exact hatv
    · rw [Config.taken, hheight, harity]
      exact hrun
    · rw [Config.taken, hisLoop, hconstructs, hnext]
      exact hrest.moves h.point.disciplined h.point.framed
        ((hm.head (hc.move h.live mem hloop)).trans hmv) hsub
        (by rw [hconstructs]; exact fun _ hk => hk) rfl

end Taken

/-- A branch goes back to the start of a loop, or forth to the end of another construct. -/
theorem br_simulates (hl : Lowered f last) (hfinished : last.phase = .finished)
    (h : Simulates body result args last c m s) {depth : UInt32}
    (hcode : c.code = .br depth :: code) (hstep : c.branch depth.toNat = some (.next c')) :
    ∃ m' t, f.Leads args m m' ∧ Simulates body result args last c' m' t := by
  obtain ⟨t, hlower, hm, hat⟩ := h.lower hcode
  obtain ⟨label, outer, hlabels, hnext⟩ := Config.branch_eq_some hstep
  obtain rfl := Config.Step.next.inj hnext
  obtain ⟨k, ks, hks, haims, hrest⟩ := h.targets.drop hlabels
  rw [hcode] at haims hrest
  have hget : s.constructs[depth.toNat]? = some k := by
    rw [← List.head?_drop, hks]
    rfl
  obtain ⟨u, hexit, hbase, rfl⟩ := exits_of_br hget hlower
  -- A branch goes back only to the head of a loop.
  obtain ⟨head, hk, rfl⟩ | ⟨hloop, -, rfl⟩ := exitTo_eq_ok.1 hexit
  · exact h.back hl hm hat.moves rfl hk haims hrest
  · obtain ⟨-, -, -, hcarries, -⟩ := (hcode ▸ h.point).carries h.live
    let x := s.jumped k.exit (s.top k.results.length)
    have hdead : Moves x (x.restacked (x.stack.take x.base)) := moves_truncate hbase
    exact h.forth hl hfinished hks hloop (hcarries k hget hloop) hdead hat rfl rfl haims hrest

end Exits

end WasmLowering.Lowering
