import WasmLowering.Proofs.OpenConstructs

/-!
# Conditionals

The test of a conditional is run in the insertion block, which then branches to the first or to the
second arm. The first arm comes next in the lowering. The second arm is found at its `else`. Without
an `else` there is an arm all the same, with nothing but a branch to the end of the conditional that
takes the parameters along.

## Key results

- `Running.tests`: the test
- `then_runs`, `else_runs`, `otherwise_runs`: from the test to where each arm starts
- `ifBlock_simulates`: entering a conditional
-/

namespace WasmLowering.Ssa.Draft

/-- The arms of a conditional start out empty. -/
private theorem code_fork {d : Draft} {waiting : List Label} (ha : d.Arranged waiting)
    (condition : Operand) :
    (d.fork condition).code d.current =
        d.code d.current ++ [.condBr condition d.arms.1 d.arms.2] ∧
      (d.fork condition).code d.arms.1 = [] := by
  have hn₁ := ha.newBlock .ifThen
  have hn₂ := hn₁.newBlock .ifElse
  have hcurrent : d.current ∈ (d.newBlock .ifThen).2.labels := by simp [ha.current_mem]
  have hne : d.arms.1 ≠ d.current := (newBlock_ne .ifThen ha.numbered ha.current_mem).symm
  constructor
  · -- The branch is appended to the insertion block, which the new blocks leave as it is.
    refine (hn₂.code_append _).trans (congrArg (· ++ [Line.condBr condition _ _]) ?_)
    exact (code_newBlock .ifElse hn₁.numbered hcurrent).trans
      (code_newBlock .ifThen ha.numbered ha.current_mem)
  · -- The first arm is not the insertion block, so it stays empty.
    refine (code_append _ hn₂.numbered hn₂.current_mem (by simp [arms])).trans ?_
    rw [if_neg (by simpa using hne)]
    refine (code_newBlock .ifElse hn₁.numbered (by simp [arms])).trans ?_
    exact code_newBlock_self .ifThen

end WasmLowering.Ssa.Draft

namespace WasmLowering

/-- A value that is a 32-bit integer is made from its bits. -/
theorem Value.eq_i32_of_toInt? {v : Value} {p : BitVec 32} (h : v.toInt? .w32 = some p) :
    v = .i32 p := by
  cases v with
  | i32 a => exact congrArg Value.i32 (Option.some.inj h)
  | _ => cases h

/-- Where a conditional goes. -/
theorem Config.ifBlock_eq_some {c : Config} {type : FuncType} {code : List Operator}
    {r : Config.Step} (h : c.ifBlock type code = some r) :
    ∃ stack p, c.stack = stack ++ [.i32 p] ∧
      (p ≠ 0 ∧ r = .next { c with code, stack, labels := label type stack code :: c.labels } ∨
        p = 0 ∧ (∃ arm, elseArm 0 code = some arm ∧
          r = .next { c with code := arm, stack, labels := label type stack code :: c.labels }) ∨
        p = 0 ∧ elseArm 0 code = none ∧ r = .next { c with code := afterEnd 0 code, stack }) := by
  simp only [Config.ifBlock, Option.bind_eq_bind, Option.bind_eq_some_iff] at h
  obtain ⟨⟨stack, condition⟩, hsplit, h⟩ := h
  obtain ⟨hle, rfl, hcondition⟩ := Config.split_eq_some.1 hsplit
  -- The condition is a single value.
  rcases condition with _ | ⟨v, _ | ⟨w, rest⟩⟩
  · cases h
  · obtain ⟨p, hp, h⟩ := Option.bind_eq_some_iff.1 h
    obtain rfl := Value.eq_i32_of_toInt? hp
    refine ⟨c.stack.take (c.stack.length - 1), p, ?_, ?_⟩
    · rw [hcondition, List.take_append_drop]
    · split at h
      -- Zero stands for false.
      next hzero =>
        split at h
        next arm harm => exact .inr (.inl ⟨hzero, arm, harm, (Option.some.inj h).symm⟩)
        next hnone => exact .inr (.inr ⟨hzero, hnone, (Option.some.inj h).symm⟩)
      next hzero => exact .inl ⟨hzero, (Option.some.inj h).symm⟩
  · cases h

end WasmLowering

namespace WasmLowering.Lowering

open Ssa Draft Validation

section Conditionals

variable {body : BodyTypes} {result : NativeType} {args : List Scalar} {f : Ssa.Function}
  {last s t u : State} {m : Machine} {stack locals : List Value} {xs : Array Operand}
  {v : Operand} {p : BitVec 32} {types : List ScalarType} {params : Nat}

/-- The test of a conditional is run before the branch to one of the arms. -/
theorem Running.tests (h : Running args last s (stack ++ [.i32 p]) locals m) (hl : Lowered f last)
    (hd : s.Disciplined) (hordered : s.Ordered) (hstack : s.stack = xs.push v)
    {d : Draft} (hdraft : d = s.draft.skipValue.append
      (.assign s.draft.nextValue (.icmp .ne v v.type.zero)))
    (ht : t = ((s.restacked xs).computed (.icmp .ne v v.type.zero)).forked
      (.result s.draft.nextValue (.int 1)) params types) (hm : Moves s t) (hlast : Moves t last) :
    ∃ m₁ rest, f.Leads args m m₁ ∧
      m₁.rest = .condBr (.result s.draft.nextValue (.int 1)) d.arms.1 d.arms.2 :: rest ∧
      m₁.eval args (.result s.draft.nextValue (.int 1)) =
        some (.int 1 (BitVec.ofBool (p != 0))) ∧
      m₁.Represents args xs.toList stack ∧ Stored last last.locals.toList locals m₁ := by
  have ha := hd.sound.toArranged
  -- The insertion block gets two lines: the test and the branch.
  let line := Line.assign s.draft.nextValue (.icmp .ne v v.type.zero)
  let fork := Line.condBr (.result s.draft.nextValue (.int 1)) d.arms.1 d.arms.2
  have had : d.Arranged s.waiting := by
    rw [hdraft]
    exact ha.skipValue.append line
  have hcurrent : d.current = s.draft.current := by
    rw [hdraft]
    rfl
  have hcode : t.draft.code s.draft.current =
      s.draft.code s.draft.current ++ [line, fork] := by
    have hline : d.code d.current = s.draft.code s.draft.current ++ [line] := by
      rw [hdraft]
      exact ha.skipValue.code_append line
    have hmem : d.current ∈ (d.fork (.result s.draft.nextValue (.int 1))).labels := by
      simp [Draft.fork, had.current_mem]
    have hnumbered : (d.fork (.result s.draft.nextValue (.int 1))).Numbered :=
      ((had.newBlock .ifThen).newBlock .ifElse).numbered.append _
    have hjoin := code_newJoin hnumbered .ifEnd types hmem
    rw [(code_fork had _).1, hline, List.append_assoc, hcurrent] at hjoin
    subst hdraft ht
    exact hjoin
  obtain ⟨rest, hrest, -, hmem⟩ := h.next hd hm hlast hcode
    (by simp [line, fork, Line.isReturnSlot])
  have hstk : s.stack.toList = xs.toList ++ [v] := by rw [hstack, Array.toList_push]
  obtain ⟨hrep, hv⟩ := (hstk ▸ h.stack).concat
  have hcompute : m.compute args (.icmp .ne v v.type.zero) =
      some (.int 1 (BitVec.ofBool (p != 0))) := Machine.compute_icmp hv (eval_zero hv) .ne
  let m₁ := m.define s.draft.nextValue (.scalar (.int 1 (BitVec.ofBool (p != 0)))) (fork :: rest)
  -- The number of the test is new, so neither the operands below nor the slots are touched.
  have hkeep : ∀ id, id ≠ s.draft.nextValue → m₁.values id = m.values id := fun id hid =>
    Function.update_of_ne hid _ _
  refine ⟨m₁, rest, .single ?_, rfl, Machine.eval_define_int _ _ _, ?_, ?_⟩
  · rw [Function.step, hrest]
    simp [line, hcompute, m₁]
  · refine hrep.congr (fun x hx => hordered.stack x ?_) fun id hid => hkeep id (Nat.ne_of_lt hid)
    rw [hstack]
    exact Array.mem_push_of_mem v (Array.mem_toList_iff.1 hx)
  · refine h.stored.of_values hl.isSlot rfl fun id hid => hkeep id fun heq => ?_
    have hlabel := Moves.labels (hm.trans hlast) hd hd.sound.current_mem
    exact hl.not_isSlot hlabel (hmem line List.mem_cons_self) rfl (by simp [line]) (heq ▸ hid)

/-- The second arm of a conditional starts in an empty block. -/
private theorem arrive_other (hl : Lowered f last) (hd : u.Disciplined) {depth : Nat}
    (dead : u.phase = .dead depth) {k : Construct} {ks : List Construct} {other : Label}
    {ps : Array Operand} (htop : u.constructs = k :: ks) (hk : k.kind = .thenArm other ps)
    (hbase : k.base ≤ u.stack.size) (hlast : Moves (u.alternated k ks other ps) last)
    (hrep : m.Represents args (u.stack.toList.take k.base ++ ps.toList) stack)
    (hstored : Stored last last.locals.toList locals m) :
    ∃ m', f.enter args m other = some m' ∧
      Running args last (u.alternated k ks other ps) stack locals m' := by
  have hmem : k ∈ u.constructs := by
    rw [htop]
    exact List.mem_cons_self
  have hwait : other ∈ u.waiting := by
    refine List.mem_flatMap.2 ⟨k, hmem, ?_⟩
    simp [Construct.waiting, hk]
  have hrole : other.role = .ifElse := by
    have hlabelled := (hd.labelled k hmem).2
    rwa [hk] at hlabelled
  -- A block that waits has only phis, and an arm has none.
  have hempty : u.draft.code other = [] := by
    have honly := hd.sound.onlyPhis other hwait
    have hno := hd.sound.noPhis other (hd.sound.waiting_mem _ hwait) (by rw [hrole]; rfl)
    refine List.eq_nil_iff_forall_not_mem.2 fun line hline => ?_
    exact absurd ((honly line hline).symm.trans (hno line hline)) Bool.true_eq_false.mp
  have hd' := (Move.alternate dead htop hk hbase).disciplined hd
  refine arrive hl hd' hlast hempty ?_ (hd.sound.entry_ne hwait) ?_ hstored
  · show other.role.joins = false
    rw [hrole]
    rfl
  · have hstack : (u.alternated k ks other ps).stack.toList =
        u.stack.toList.take k.base ++ ps.toList := by simp [State.alternated]
    rw [hstack]
    exact hrep

variable {code arm : List Operator} {k : Construct} {ks : List Construct} {other : Label}
  {ps : Array Operand}

/-- At the end of the first arm, the conditional and what is below it are as they were at its
    start. -/
private theorem first_arm_left (hat : At body result last code t) (htop : t.constructs = k :: ks)
    {before : List Operator} {u' : State} (hbefore : t.steps before = .ok u) (hend : u.AtArmEnd)
    (htop' : u.constructs = k :: ks) (hexit : u.exitLast k u.phase.isLive = .ok u') :
    ∃ depth, Moves t { u' with phase := .dead depth } ∧ u'.constructs = k :: ks ∧
      u'.stack.toList.take k.base = t.stack.toList.take k.base := by
  obtain ⟨⟨depth, hmu⟩, -, hcs⟩ := exitLast_moves hend.isLive.1 hend.isLive.2
    (htop' ▸ List.mem_cons_self) hexit
  have hmoves : Moves t { u' with phase := .dead depth } :=
    (steps_moves hat.framed hbefore).trans hmu
  have hopen : k ∈ u'.constructs := by
    rw [hcs, htop']
    exact List.mem_cons_self
  exact ⟨depth, hmoves, hcs.trans htop', (Moves.stays_open hmoves hat.disciplined hat.framed
    (htop ▸ List.mem_cons_self) hopen rfl).2.2.1⟩

/-- From the test of a conditional to its second arm. -/
theorem else_runs (hl : Lowered f last) (hat : At body result last code t)
    (htop : t.constructs = k :: ks) (live : t.phase = .live) (hk : k.kind = .thenArm other ps)
    (harm : elseArm 0 code = some arm)
    (hrep : m.Represents args (t.stack.toList.take k.base ++ ps.toList) stack)
    (hstored : Stored last last.locals.toList locals m) :
    ∃ m' w, f.enter args m other = some m' ∧ Moves t w ∧ At body result last arm w ∧
      w.phase = .live ∧ w.constructs = { k with kind := .elseArm } :: ks ∧
      Running args last w stack locals m' := by
  have hin := Inside.of_top htop live
  obtain ⟨before, u, w, hcode, hbefore, helse, -, hend, htop'⟩ := hin.atElse hat.steps harm
  -- The steps up to the `else` are those of the first arm, and `w` is behind it.
  have hatw : At body result last arm w := by
    have hsteps : t.steps (before ++ [.elseBlock]) = .ok w :=
      steps_append.2 ⟨u, hbefore, steps_cons.2 ⟨w, helse, steps_nil⟩⟩
    refine At.after ?_ hsteps
    rw [List.append_assoc, List.singleton_append, ← hcode]
    exact hat
  obtain ⟨k', ks', other', ps', u', htop'', hk', hexit, hbase, rfl⟩ :=
    elseBlock_eq_ok.1 (elseBlock_of_step hend helse)
  obtain ⟨rfl, rfl⟩ := List.cons.inj (htop'.symm.trans htop'')
  obtain ⟨rfl, rfl⟩ := ConstructKind.thenArm.inj (hk.symm.trans hk')
  obtain ⟨depth, hmoves, hopen, hbelow⟩ := first_arm_left hat htop hbefore hend htop' hexit
  obtain ⟨m', henter, hrun⟩ := @arrive_other args f last { u' with phase := .dead depth } m stack
    locals hl (Moves.disciplined hmoves hat.disciplined) depth rfl k ks other ps hopen hk hbase
    hatw.moves (hbelow ▸ hrep) hstored
  exact ⟨m', _, henter, hmoves.tail (.alternate rfl hopen hk hbase), hatw, rfl, rfl, hrun⟩

/-- At the end of an arm, the innermost construct is the validator's innermost frame. -/
theorem At.frame {op : Operator} (hat : At body result last (op :: code) s) (hend : s.AtArmEnd) :
    ∃ (c c' : Checker) (fr : Validation.Frame) (rest : List Validation.Frame),
      c.step body op = some c' ∧ c.frames = fr :: rest ∧
      FramesAgree body.results s.constructs (fr :: rest) := by
  obtain ⟨c, c', hagrees, hrun⟩ := hat.checked
  obtain ⟨-, c₁, hcheck, -⟩ := Checker.run_cons.1 hrun
  cases hagrees.position with
  | live ts phase vals typed frames reached =>
    obtain ⟨fr, rest, hfr⟩ := frames.eq_cons
    exact ⟨c, c₁, fr, rest, hcheck, hfr, hfr ▸ frames⟩
  | dead inner fr rest ts phase split below typed frames reached =>
    -- The code became dead in the innermost construct, with nothing opened since.
    obtain rfl : inner = [] := by
      obtain hend | hend := hend
      · rw [phase] at hend
        cases hend
      · exact List.length_eq_zero_iff.1 (Phase.dead.inj (phase.symm.trans hend))
    exact ⟨c, c₁, fr, rest, hcheck, split, frames⟩
  | finished phase frames =>
    obtain hend | hend := hend <;> · rw [phase] at hend; cases hend

/-- A conditional without a second arm has its parameters as its results. -/
theorem At.passes (hat : At body result last (.endBlock :: code) s) (hend : s.AtArmEnd)
    (htop : s.constructs = k :: ks) (hk : k.kind = .thenArm other ps) :
    ps.toList.map Operand.type = k.results.map Operand.type := by
  obtain ⟨c, c', fr, rest, hcheck, hfr, hagree⟩ := hat.frame hend
  rw [htop] at hagree
  cases hagree with
  | construct top _ =>
    obtain ⟨fr', c₁, hleave, hsame, -⟩ := Checker.endBlock_eq_some hcheck
    obtain ⟨-, -, -, hframes, -⟩ := Checker.leave_eq_some hleave
    obtain rfl : fr' = fr := (List.cons.inj (hframes.symm.trans hfr)).1
    have hkind := top.kind
    rw [hk] at hkind
    have hps := hkind.2
    -- The two lists of types are that of the parameters and that of the results.
    rw [hsame hkind.1] at hps
    exact hps.map_type_eq top.results

/-- From the test of a conditional without a second arm to what follows the conditional. -/
theorem otherwise_runs (hl : Lowered f last) (hat : At body result last code t)
    (hfinished : last.phase = .finished)
    (htop : t.constructs = k :: ks) (live : t.phase = .live) (hk : k.kind = .thenArm other ps)
    (harm : elseArm 0 code = none)
    (hrep : m.Represents args (t.stack.toList.take k.base ++ ps.toList) stack)
    (hstored : Stored last last.locals.toList locals m) :
    ∃ m₁ m' v, f.enter args m other = some m₁ ∧ f.Leads args m₁ m' ∧ Moves t v ∧
      At body result last (afterEnd 0 code) v ∧ v.phase = .live ∧ v.constructs = ks ∧
      Running args last v stack locals m' := by
  have hin := Inside.of_top htop live
  obtain ⟨before, u, v, kind, hcode, hbefore, hstep, -, hend, htop', hkind⟩ :=
    hin.atEnd hat.steps hfinished
  obtain rfl := hkind harm
  -- The first arm is lowered as dead code from here on, up to its end.
  have hatu : At body result last (.endBlock :: afterEnd 0 code) u := by
    refine At.after ?_ hbefore
    rw [← hcode]
    exact hat
  obtain ⟨v', hv', hatv⟩ := hatu.step
  obtain rfl : v' = v := Except.ok.inj (hv'.symm.trans hstep)
  obtain ⟨u', hexit, hleave⟩ := (endBlock_eq_ok htop').1 (endBlock_of_step hend hstep)
  obtain ⟨depth, hmoves, hopen, hbelow⟩ := first_arm_left hat htop hbefore hend htop' hexit
  obtain ⟨hne, -⟩ | ⟨other', ps', y, w, hk', hy, hw, hleave⟩ := hleave
  · exact absurd hk (hne other ps)
  obtain ⟨rfl, rfl⟩ := ConstructKind.thenArm.inj (hk.symm.trans hk')
  have hbase : k.base ≤ u'.stack.size := (startArm_eq_ok.1 hy).1
  obtain ⟨halt, hjump, hn, hb, rfl⟩ := leave_otherwise depth hopen hk hy hw hleave
  -- The second arm, which has no code, is a block of its own that goes on to the end.
  let x := ({ u' with phase := .dead depth } : State).alternated k ks other ps
  have hmx : Moves t x := hmoves.tail halt
  have hdx : x.Disciplined := Moves.disciplined hmx hat.disciplined
  have hfx : x.Framed := Moves.framed hmx hat.framed
  have hleft : Move (x.jumped k.exit (x.top k.results.length))
      ((x.jumped k.exit (x.top k.results.length)).left { k with kind := .elseArm } ks) :=
    .leave rfl rfl (fun _ _ h => by cases h) hb
  have hlast := (Relation.ReflTransGen.single hleft).trans hatv.moves
  obtain ⟨m₁, henter, hrun⟩ := @arrive_other args f last { u' with phase := .dead depth } m stack
    locals hl (Moves.disciplined hmoves hat.disciplined) depth rfl k ks other ps hopen hk hbase
    ((Relation.ReflTransGen.single hjump).trans hlast) (hbelow ▸ hrep) hstored
  -- It takes the parameters along, which are on top.
  have hpass := hatu.passes hend htop' hk
  have hstack : x.stack.toList = u'.stack.toList.take k.base ++ ps.toList := by
    simp [x, State.alternated]
  have hcarries : x.Carries { k with kind := .elseArm } := .of_stack hstack hpass
  have hsize : x.stack.size = k.base + k.results.length := by
    rw [← Array.length_toList, hstack, List.length_append, List.length_take, Array.length_toList,
      Nat.min_eq_left hbase, length_eq_of_types hpass]
  have hj := joins_left hdx hfx (c := { k with kind := .elseArm }) List.mem_cons_self
    hcarries.size_eq hjump .refl rfl rfl hatv.disciplined hatv.moves
  obtain ⟨m', hleads, hrun'⟩ := hrun.carry hl hdx (Moves.ordered hmx hat.disciplined hat.framed
    hat.ordered) List.mem_cons_self hcarries hjump hlast hj
  refine ⟨m₁, m', _, henter, hleads, (hmx.tail hjump).tail hleft, hatv, rfl, rfl, ?_⟩
  rw [← hrun.arm_stack hsize]
  exact hrun'

/-- From the test of a conditional to its first arm. -/
theorem then_runs (hl : Lowered f last) (hd : s.Disciplined) {d : Draft}
    (hdraft : d = s.draft.skipValue.append
      (.assign s.draft.nextValue (.icmp .ne v v.type.zero)))
    (ht : t = ((s.restacked xs).computed (.icmp .ne v v.type.zero)).forked
      (.result s.draft.nextValue (.int 1)) params types) (hat : At body result last code t)
    (hrep : m.Represents args xs.toList stack)
    (hstored : Stored last last.locals.toList locals m) :
    ∃ m', f.enter args m d.arms.1 = some m' ∧ Running args last t stack locals m' := by
  have had : d.Arranged s.waiting := by
    rw [hdraft]
    exact hd.sound.toArranged.skipValue.append _
  have hmem : d.arms.1 ∈ (d.fork (.result s.draft.nextValue (.int 1))).labels := by
    simp [Draft.fork, arms]
  have hnumbered : (d.fork (.result s.draft.nextValue (.int 1))).Numbered :=
    ((had.newBlock .ifThen).newBlock .ifElse).numbered.append _
  -- The block of the first arm has no lines yet.
  have hempty := (code_newJoin hnumbered .ifEnd types hmem).trans (code_fork had _).2
  have hne : d.arms.1 ≠ entryLabel := fun heq =>
    (arms_not_mem had.numbered).1 (heq ▸ had.entry_mem)
  subst hdraft ht
  exact arrive hl hat.disciplined hat.moves hempty rfl hne hrep hstored

/-- A conditional goes on in one of its arms, or after it if there is no second arm. -/
theorem ifBlock_simulates {c c' : Config} (hl : Lowered f last) (hfinished : last.phase = .finished)
    (h : Simulates body result args last c m s) {type : FuncType}
    (hcode : c.code = .ifBlock type :: code) (hstep : c.ifBlock type code = some (.next c')) :
    ∃ m' t, f.Leads args m m' ∧ Simulates body result args last c' m' t := by
  obtain ⟨stack, p, hstack, hcases⟩ := Config.ifBlock_eq_some hstep
  obtain ⟨t, hlower, hm, hat⟩ := h.lower hcode
  obtain ⟨xs, v, types, hxs, hbase, hparams, htypes, ht⟩ := ifBlock_eq_ok.1 hlower
  have hd := h.point.disciplined
  let d := s.draft.skipValue.append (.assign s.draft.nextValue (.icmp .ne v v.type.zero))
  have had : d.Arranged s.waiting := hd.sound.toArranged.skipValue.append _
  obtain ⟨m₁, rest, hleads, hrest, hcond, hrep, hstored⟩ := (hstack ▸ h.running).tests hl hd
    h.point.ordered hxs (d := d) rfl ht hm hat.moves
  -- The construct that the lowering opened, and the label that the body opened.
  let ps := (s.restacked xs).top type.params.length
  let k : Construct :=
    { kind := .thenArm d.arms.2 ps
      exit := ((d.fork (.result s.draft.nextValue (.int 1))).newBlock .ifEnd).1
      results := phiValues (d.fork (.result s.draft.nextValue (.int 1))).nextValue types
      base := xs.size - type.params.length }
  have htop : t.constructs = k :: s.constructs := by
    rw [ht]
    rfl
  have hxt : t.stack = xs := by
    rw [ht]
    rfl
  have hlive : t.phase = .live := by
    rw [ht]
    exact h.live
  have hheight : (Config.label type stack code).height = k.base := by
    show stack.length - _ = xs.size - _
    rw [← hrep.length_eq, Array.length_toList]
  have harity : (Config.label type stack code).arity = k.results.length :=
    (operandsTyped_phiValues _ htypes).length_eq.symm
  -- The labels outside the conditional keep their targets.
  have hinner : ∀ {w : State} {next : List Operator}, Moves t w →
      s.constructs ⊆ w.constructs → afterEnd 0 next = afterEnd 0 c.code →
      Targets body result last w.stack.toList next c.labels s.constructs := fun hmw hsub hnext =>
    h.targets.moves hd h.point.framed (hm.trans hmw) (fun _ hk => hk) hsub hnext
  have hafter : afterEnd 0 (afterEnd 0 code) = afterEnd 0 c.code := by
    rw [afterEnd_afterEnd, hcode]
    rfl
  have harms : m₁.Represents args (t.stack.toList.take k.base ++ ps.toList) stack := by
    rw [hxt]
    exact (take_append_top (s.restacked xs) type.params.length).symm ▸ hrep
  -- The condition holds, or it does not and there is a second arm, or there is none.
  obtain ⟨hp, hnext⟩ | ⟨hp, arm, harm, hnext⟩ | ⟨hp, harm, hnext⟩ := hcases
  · obtain rfl := Config.Step.next.inj hnext
    obtain ⟨m', henter, hrun⟩ := then_runs hl hd (d := d) rfl ht hat hrep hstored
    refine ⟨m', t, hleads.trans (f.leads_condBr hrest hcond ?_), hat, hlive, hrun, ?_⟩
    · rw [if_pos (by simpa using hp)]
      exact henter
    · rw [htop]
      exact .cons (.join (fun _ h => by cases h) rfl harity hheight rfl)
        (hinner .refl (htop ▸ List.subset_cons_self ..) hafter)
  · obtain rfl := Config.Step.next.inj hnext
    obtain ⟨m', w, henter, hmw, hatw, hlivew, htopw, hrun⟩ :=
      else_runs hl hat htop hlive rfl harm harms hstored
    refine ⟨m', w, hleads.trans (f.leads_condBr hrest hcond ?_), hatw, hlivew, hrun, ?_⟩
    · rw [if_neg (by simpa using hp)]
      exact henter
    · have hend : afterEnd 0 arm = afterEnd 0 code := afterEnd_of_elseArm harm 0
      rw [htopw]
      refine .cons (.join (fun _ h => by cases h) rfl harity hheight hend.symm) ?_
      exact hinner hmw (htopw ▸ List.subset_cons_self ..) (by rw [hend, hafter])
  · obtain rfl := Config.Step.next.inj hnext
    obtain ⟨m₂, m', w, henter, hleads', hmw, hatw, hlivew, htopw, hrun⟩ :=
      otherwise_runs hl hat hfinished htop hlive rfl harm harms hstored
    refine ⟨m', w, hleads.trans ((f.leads_condBr hrest hcond ?_).trans hleads'), hatw, hlivew,
      hrun, ?_⟩
    · rw [if_neg (by simpa using hp)]
      exact henter
    · rw [htopw]
      exact hinner hmw (by rw [htopw]; exact fun _ hk => hk) hafter

end Conditionals

end WasmLowering.Lowering
