import WasmLowering.Proofs.Layout
import WasmLowering.Proofs.Phis

/-!
# Predecessors

The branches of a function go to the blocks that a conditional, a loop or a check has just made, to
the first blocks of open loops and to the end blocks of other open constructs. So the block of an
arm has one predecessor, the block that ends in the choice between the arms. The end block of a loop
has none at all: a branch to a loop goes back to its start. What follows the end of a loop is
therefore never executed, up to the next block in which code goes on after an `else` or an `end`.

## Key results

- `Move.created`: the blocks that a move makes
- `Move.routed`: where branches go, along a run
- `Moves.left_of_joins`: every end block that is placed is placed at the end of its construct
- `edges_routed`: the predecessors of arms and of the ends of loops
- `not_reachable_after_loopEnd`: the code that follows the end of a loop
-/

namespace WasmLowering.Ssa

/-- Whether blocks of the role start an arm of a conditional. -/
def BlockRole.isArm : BlockRole → Bool
  | ifThen | ifElse => true
  | _ => false

/-- Whether code goes on in blocks of the role after an `else` or an `end`. -/
def BlockRole.resumes : BlockRole → Bool
  | blockEnd | loopEnd | ifElse | ifEnd => true
  | _ => false

/-- Code goes on in the end block of every construct. -/
theorem BlockRole.resumes_of_joins {role : BlockRole} (h : role.joins = true) :
    role.resumes = true := by
  cases role with
  | blockEnd | loopEnd | ifEnd => rfl
  | _ => cases h

namespace Draft

section Created

variable {d : Draft} {waiting : List Label} {source target : Label}

private theorem mem_labels_start {l : Label} : l ∈ Draft.start.labels ↔ l = entryLabel := by
  simp [labels, Draft.start]

/-- Storing fields makes no block. -/
private theorem labels_storeFields (d : Draft) (slot : ValueId) (index : Nat)
    (values : List Operand) : (d.storeFields slot index values).labels = d.labels := by
  induction values generalizing d index with
  | nil => rfl
  | cons v values ih =>
    refine (ih _ _).trans ?_
    rw [labels_append, labels_append, labels_skipValue]

private theorem labels_retPacked (d : Draft) (fields : List ScalarType) (values : List Operand) :
    (d.retPacked fields values).labels = d.labels := by
  rw [retPacked, labels_append, labels_append, labels_skipValue, labels_storeFields]
  exact labels_modifyLines ..

private theorem labels_newJoin (d : Draft) (role : BlockRole) (types : List ScalarType) :
    (d.newJoin role types).labels = d.labels ++ [(d.newBlock role).1] := by
  rw [newJoin, labels_addPhis, labels_newBlock]

private theorem branches_newJoin (hn : d.Numbered) (role : BlockRole) (types : List ScalarType) :
    (d.newJoin role types).Branches source target ↔ d.Branches source target :=
  (branches_addPhis (hn.newBlock role) (by simp) types).trans (branches_newBlock hn role)

private theorem labels_goOn (d : Draft) (role : BlockRole) :
    (d.goOn role).labels = d.labels ++ [(d.newBlock role).1] := by
  rw [goOn, labels_place, labels_append, labels_newBlock]

private theorem labels_fork (d : Draft) (condition : Operand) :
    (d.fork condition).labels = d.labels ++ [d.arms.1, d.arms.2] := by
  rw [fork, labels_append, labels_newBlock, labels_newBlock, List.append_assoc]
  rfl

/-- A conditional branches from the insertion block to its arms. -/
private theorem branches_fork (ha : d.Arranged waiting) (condition : Operand) :
    (d.fork condition).Branches source target ↔ d.Branches source target ∨
      source = d.current ∧ (target = d.arms.1 ∨ target = d.arms.2) := by
  have hfirst := ha.newBlock .ifThen
  have hother := hfirst.newBlock .ifElse
  rw [fork, branches_append hother.numbered hother.current_mem,
    branches_newBlock hfirst.numbered, branches_newBlock ha.numbered]
  simp [Line.targets]

end Created

end Draft

end WasmLowering.Ssa

namespace WasmLowering.Lowering

open Ssa Draft

/-! ## New blocks -/

section Created

variable {s t : State} {l : Label}

/-- The end block of a construct waits when it has been made. The block of an arm has one
    predecessor by then. -/
theorem Move.created (hm : Move s t) (hd : s.Disciplined) (hl : l ∈ t.draft.labels)
    (hnew : l ∉ s.draft.labels) :
    (l.role.joins = true → l ∈ t.waiting) ∧
      (l.role.isArm = true → ∀ source, t.draft.Branches source l ↔ source = s.draft.current) := by
  have ha := hd.sound.toArranged
  have hwait : ∀ c ∈ t.constructs, l = c.exit → l ∈ t.waiting := by
    rintro c hc rfl
    exact State.exit_mem_waiting hc
  cases hm with
  | block live arity =>
    obtain h | h := List.mem_append.1 ((labels_newJoin ..) ▸ hl)
    · exact absurd h hnew
    · obtain rfl := List.mem_singleton.1 h
      exact ⟨fun _ => hwait _ List.mem_cons_self rfl, fun h => by cases h⟩
  | loop live base =>
    obtain h | h := List.mem_append.1 ((labels_newJoin ..) ▸ hl)
    · obtain h | h := List.mem_append.1 ((labels_goOn ..) ▸ h)
      · exact absurd h hnew
      · obtain rfl := List.mem_singleton.1 h
        exact ⟨fun h => (by cases h), fun h => by cases h⟩
    · obtain rfl := List.mem_singleton.1 h
      exact ⟨fun _ => hwait _ List.mem_cons_self rfl, fun h => by cases h⟩
  -- A conditional makes three blocks: its arms and its end.
  | @fork xs condition params types live stack base arity =>
    have hs := (hd.open live).fork condition
    have hbranches : ∀ source, ((s.draft.fork condition).newJoin .ifEnd types).Branches source l ↔
        s.draft.Branches source l ∨ source = s.draft.current ∧
          (l = s.draft.arms.1 ∨ l = s.draft.arms.2) := fun source =>
      (branches_newJoin hs.numbered .ifEnd types).trans (branches_fork ha condition)
    -- No branch leads to a block before it is made.
    have hnone : ∀ source, ¬ s.draft.Branches source l := fun source hb =>
      hnew (hd.sound.targets source l hb)
    obtain h | h := List.mem_append.1 ((labels_newJoin ..) ▸ hl)
    · obtain h | h := List.mem_append.1 ((labels_fork ..) ▸ h)
      · exact absurd h hnew
      · have harm : l = s.draft.arms.1 ∨ l = s.draft.arms.2 :=
          (List.mem_cons.1 h).imp_right List.mem_singleton.1
        refine ⟨fun hj => ?_, fun _ source => (hbranches source).trans (by simp [hnone, harm])⟩
        obtain rfl | rfl := harm <;> cases hj
    · obtain rfl := List.mem_singleton.1 h
      exact ⟨fun _ => hwait _ List.mem_cons_self rfl, fun h => by cases h⟩
  -- Neither block of a check is an end block or an arm.
  | @guard xs condition live stack base =>
    have hlabels : (s.draft.guard condition).labels = s.draft.labels ++
        [(s.draft.newBlock .truncTrap).1,
          ((s.draft.newBlock .truncTrap).2.newBlock .truncOk).1] := by simp [Draft.guard]
    obtain h | h := List.mem_append.1 (hlabels ▸ hl)
    · exact absurd h hnew
    · obtain rfl | h := List.mem_cons.1 h
      · exact ⟨fun h => (by cases h), fun h => by cases h⟩
      · obtain rfl := List.mem_singleton.1 h
        exact ⟨fun h => (by cases h), fun h => by cases h⟩
  -- All other moves make no block.
  | retPacked => exact absurd ((labels_retPacked ..) ▸ hl) hnew
  | leave => exact absurd (by simpa [State.left] using hl) hnew
  | jump => exact absurd (by simpa [State.jumped] using hl) hnew
  | slot => exact absurd (by simpa [State.allotted] using hl) hnew
  | compute | nop | store | back | close => exact absurd ((labels_append ..) ▸ hl) hnew
  | declare | restack | count | finish | alternate => exact absurd hl hnew

end Created

/-! ## Where branches go -/

/-- The role of the end block of a construct. -/
def ConstructKind.endRole : ConstructKind → BlockRole
  | block => .blockEnd
  | loop _ => .loopEnd
  | thenArm .. | elseArm => .ifEnd

/-- Where the branches of a draft go: not to the end of a loop, and once to each arm. -/
structure State.Routed (s : State) : Prop where
  ends : ∀ c ∈ s.constructs, c.exit.role = c.kind.endRole
  loopEnds : ∀ source target, s.draft.Branches source target → target.role ≠ .loopEnd
  arms : ∀ l ∈ s.draft.labels, l.role.isArm = true → ∃! source, s.draft.Branches source l

section Routed

variable {s t : State}

/-- The end blocks of open constructs keep the role for their kind. -/
theorem Move.ends (hm : Move s t) (h : ∀ c ∈ s.constructs, c.exit.role = c.kind.endRole) :
    ∀ c ∈ t.constructs, c.exit.role = c.kind.endRole := by
  cases hm with
  | block | loop | fork => exact List.forall_mem_cons.2 ⟨rfl, h⟩
  -- The second arm has the end block of the first one.
  | @alternate depth c rest other params dead top kind base =>
    rw [top] at h
    obtain ⟨hc, hrest⟩ := List.forall_mem_cons.1 h
    rw [kind] at hc
    exact List.forall_mem_cons.2 ⟨hc, hrest⟩
  | leave dead top kind base =>
    rw [top] at h
    exact (List.forall_mem_cons.1 h).2
  | _ => exact h

/-- A branch to an open construct goes neither to the end of a loop nor to an arm. -/
theorem State.Routed.goal (h : s.Routed) (hd : s.Disciplined) {c : Construct}
    (hc : c ∈ s.constructs) : c.goal.role ≠ .loopEnd ∧ c.goal.role.isArm = false := by
  have hend := h.ends c hc
  cases hk : c.kind with
  | loop head =>
    rw [Construct.goal_of_loop hk, ((hd.labelled c hc).head hk).2]
    exact ⟨by decide, rfl⟩
  | _ =>
    rw [Construct.goal, hk, hend, hk]
    exact ⟨fun hloop => (by cases hloop), rfl⟩

/-- A move adds no branch to the end of a loop, and none to an arm that was there before. -/
theorem Move.routed (hm : Move s t) (hd : s.Disciplined) (h : s.Routed) : t.Routed := by
  -- A new block at which nothing joins is no end of a loop.
  have hnew : ∀ l, l ∉ s.draft.labels → l.role.joins = false →
      l.role ≠ .loopEnd ∧ (l.role.isArm = true → l ∉ s.draft.labels) := by
    intro l hl hrole
    refine ⟨fun hloop => ?_, fun _ => hl⟩
    rw [hloop] at hrole
    cases hrole
  have hgoal : ∀ c ∈ s.constructs, c.goal.role ≠ .loopEnd ∧
      (c.goal.role.isArm = true → c.goal ∉ s.draft.labels) := by
    intro c hc
    obtain ⟨hloop, harm⟩ := h.goal hd hc
    exact ⟨hloop, fun harm' => by rw [harm] at harm'; cases harm'⟩
  obtain ⟨hadds, -⟩ | ⟨depth, c, rest, other, params, -, -, -, -, rfl⟩ |
    ⟨depth, c, rest, -, top, -, -, rfl⟩ := hm.grows hd hnew hgoal
  · refine ⟨hm.ends h.ends, fun source target hb => ?_, fun l hl harm => ?_⟩
    · obtain hb | ⟨-, hloop, -⟩ := hadds.branches source target hb
      · exact h.loopEnds source target hb
      · exact hloop
    -- An arm that was there before keeps its one predecessor.
    · by_cases hold : l ∈ s.draft.labels
      · refine (existsUnique_congr fun source => ?_).1 (h.arms l hold harm)
        refine ⟨hadds.branches_mono, fun hb => ?_⟩
        exact (hadds.branches source l hb).resolve_right fun hright => hright.2.2 harm hold
      -- A new arm is entered from the current block only.
      · have hsource := (hm.created hd hl hold).2 harm
        exact ⟨s.draft.current, (hsource _).2 rfl, fun other hb => (hsource other).1 hb⟩
  · exact ⟨hm.ends h.ends, h.loopEnds, h.arms⟩
  · have hlabels : (s.left c rest).draft.labels = s.draft.labels := by simp [State.left]
    refine ⟨hm.ends h.ends, fun source target hb => ?_, fun l hl harm => ?_⟩
    · exact h.loopEnds source target ((branches_left hd top).1 hb)
    · refine (existsUnique_congr fun source => ?_).1 (h.arms l (hlabels ▸ hl) harm)
      exact (branches_left hd top).symm

/-- There are neither branches nor arms at first. -/
theorem State.routed_initial (type : FuncType) (intrinsics : IntrinsicTable) :
    (State.initial type intrinsics).Routed := by
  have hentry : ∀ l ∈ Draft.start.labels, l = entryLabel := fun l => mem_labels_start.1
  refine ⟨fun c hc => absurd hc List.not_mem_nil, fun source target hb => ?_, fun l hl harm => ?_⟩
  · obtain ⟨hmem, htarget⟩ := hb
    rw [hentry source hmem] at htarget
    cases htarget
  · rw [hentry l hl] at harm
    cases harm

/-- Along a sequence of moves, branches go where they should. -/
theorem Moves.routed (hm : Moves s t) (hd : s.Disciplined) (h : s.Routed) : t.Routed := by
  induction hm with
  | refl => exact h
  | tail hms hm ih => exact hm.routed (Moves.disciplined hms hd) ih

end Routed

/-! ## Placing the end of a construct -/

section Left

variable {s t : State} {l : Label}

/-- The end block of a construct is placed when the construct is left. -/
theorem Moves.left_of_joins (hm : Moves s t) (hd : s.Disciplined) (hrole : l.role.joins = true)
    (hold : l ∉ s.draft.labels) (hl : l ∈ t.draft.labels) (hw : l ∉ t.waiting) :
    ∃ u c rest, Moves s u ∧ u.constructs = c :: rest ∧ c.exit = l ∧ Moves u (u.left c rest) ∧
      Moves (u.left c rest) t := by
  induction hm with
  | refl => exact absurd hl hold
  | @tail t t' hms hm ih =>
    have hd' := Moves.disciplined hms hd
    by_cases hmem : l ∈ t.draft.labels
    · by_cases hwait : l ∈ t.waiting
      · obtain ⟨-, hcons⟩ | ⟨depth, c, rest, other, params, -, top, kind, -, rfl⟩ |
          ⟨depth, c, rest, -, top, kind, -, rfl⟩ := hm.shape hd'
        · -- All constructs stay open, so that their end blocks go on waiting.
          obtain ⟨c, hc, hlc⟩ := List.mem_flatMap.1 hwait
          refine absurd (List.mem_flatMap.2 ⟨c, ?_, hlc⟩) hw
          obtain hcons | ⟨c', hopen⟩ := hcons
          · exact hcons ▸ hc
          · exact hopen.constructs ▸ List.mem_cons_of_mem _ hc
        -- The second arm is no end block.
        · have hother : other.role = .ifElse := by
            have hlabelled := (hd'.labelled c (by simp [top])).2
            rwa [kind] at hlabelled
          have hsplit : l = c.exit ∨ l = other ∨ l ∈ rest.flatMap Construct.waiting := by
            simpa [State.waiting, top, Construct.waiting, kind] using hwait
          obtain rfl | rfl | hrest := hsplit
          · exact absurd List.mem_cons_self hw
          · rw [hother] at hrole
            cases hrole
          · exact absurd (List.mem_cons_of_mem _ hrest) hw
        · rw [State.waiting_of_top top kind] at hwait
          obtain rfl | hrest := List.mem_cons.1 hwait
          · exact ⟨t, c, rest, hms, top, rfl, .single hm, .refl⟩
          · exact absurd hrest hw
      -- The block was placed before, when its construct was left.
      · obtain ⟨u, c, rest, hu, htop, hexit, hleft, hlater⟩ := ih hmem hwait
        exact ⟨u, c, rest, hu, htop, hexit, hleft, hlater.tail hm⟩
    · exact absurd ((hm.created hd' hl hmem).1 hrole) hw

end Left

/-! ## Code after the end of a loop -/

section Resumed

variable {s t : State} {blocks : Set Label} {outer : List Construct}

/-- Where a confinement ends, code goes on after an `else` or an `end`. -/
theorem Move.resumes {c : Construct} {rest : List Construct} (hm : Move s t) (hd : s.Disciplined)
    (hc : Confined blocks (c :: rest) s) (hg : Gone c t) :
    ∃ l, l.role.resumes = true ∧ s.draft.Advances s.waiting [l] t.draft t.waiting := by
  obtain ⟨-, hcons⟩ | ⟨depth, c', rest', other, params, -, top, kind, -, rfl⟩ |
    ⟨depth, c', rest', -, top, kind, -, rfl⟩ := hm.shape hd
  · -- As long as the construct is open and in the same arm, it is not gone.
    obtain ⟨inner, hinner, -⟩ := hc.inner
    have hmem : c ∈ s.constructs := by simp [hinner]
    have hopen : c ∈ t.constructs := by
      obtain hcons | ⟨c', hopen⟩ := hcons
      · exact hcons ▸ hmem
      · exact hopen.constructs ▸ List.mem_cons_of_mem _ hmem
    obtain ⟨hk, hne⟩ := hg.2 c hopen rfl
    exact absurd hk hne
  · have hother : other.role = .ifElse := by
      have hlabelled := (hd.labelled c' (by simp [top])).2
      rwa [kind] at hlabelled
    exact ⟨other, by rw [hother]; rfl, advances_alternated top kind⟩
  · have hexit := (hd.labelled c' (by simp [top])).1
    exact ⟨c'.exit, BlockRole.resumes_of_joins hexit, advances_left top kind⟩

/-- A run from a confined state is confined, up to a point where code goes on after an `else` or an
    `end`. -/
theorem Moves.confined_or_resumes (hm : Moves s t) (hd : s.Disciplined)
    (hc : Confined blocks outer s) :
    Confined blocks outer t ∨
      ∃ u v l, Moves s u ∧ Confined blocks outer u ∧ Moves u t ∧ Moves v t ∧
        l.role.resumes = true ∧ u.draft.Advances u.waiting [l] v.draft v.waiting := by
  induction hm with
  | refl => exact .inl hc
  | @tail t t' hms hm ih =>
    obtain hc' | ⟨u, v, l, hu, hcu, hut, hvt, hl, hadv⟩ := ih
    · obtain hc'' | ⟨c, rest, rfl, -, hg⟩ := hm.confined (Moves.disciplined hms hd) hc'
      · exact .inl hc''
      · obtain ⟨l, hl, hadv⟩ := hm.resumes (Moves.disciplined hms hd) hc' hg
        exact .inr ⟨t, t', l, hms, hc', .single hm, .refl, hl, hadv⟩
    · exact .inr ⟨u, v, l, hu, hcu, hut.tail hm, hvt.tail hm, hl, hadv⟩

/-- The blocks that are placed between two confined states are those of the confinement. -/
theorem Confined.placed (hs : Confined blocks outer s) (ht : Confined blocks outer t)
    {before placed : List Label} (laid : s.draft.LaidOut before s.waiting)
    (hadv : s.draft.Advances s.waiting placed t.draft t.waiting) {l : Label} (hl : l ∈ placed) :
    l ∈ blocks ∧ l ∈ t.draft.labels := by
  have laid' := hadv.laidOut before laid
  refine ⟨?_, laid'.placed_subset (List.mem_append_right _ hl)⟩
  by_cases hmem : l ∈ s.draft.labels
  · have hbefore : l ∉ before := fun h =>
      (List.nodup_append.1 laid'.placed_nodup).2.2 l h l hl rfl
    obtain ⟨c, hc, hlc⟩ := List.mem_flatMap.1 ((laid.mem_waiting l).2 ⟨hmem, hbefore⟩)
    obtain ⟨inner, hinner, hblocks⟩ := hs.inner
    rw [hinner] at hc
    obtain hc | hc := List.mem_append.1 hc
    · exact hblocks c hc l (c.waiting_subset_blocks hlc)
    · -- The blocks of the constructs around go on waiting.
      obtain ⟨inner', hinner', -⟩ := ht.inner
      have hopen : c ∈ t.constructs := hinner' ▸ List.mem_append_right _ hc
      have hwait : l ∈ t.waiting := List.mem_flatMap.2 ⟨c, hopen, hlc⟩
      exact absurd (List.mem_append_right _ hl) ((laid'.mem_waiting l).1 hwait).2
  · exact hs.new l hmem

end Resumed

/-- Behind the blocks that a state has placed, a finished run has those that it placed later. -/
theorem Moves.layout_eq {s last : State} (hm : Moves s last) (hwaiting : last.waiting = [])
    {before : List Label} (laid : s.draft.LaidOut before s.waiting) :
    ∃ later, s.draft.Advances s.waiting later last.draft last.waiting ∧
      last.draft.layout = before ++ later := by
  obtain ⟨later, hadv⟩ := Moves.advances hm
  have laid' := hadv.laidOut _ laid
  rw [hwaiting] at laid'
  exact ⟨later, hadv, laid'.all_placed⟩

/-- In the layout of a finished run, the blocks in front of the insertion block of a state are those
    that were placed before it. -/
theorem Moves.laidOut_current {s last : State} {type : FuncType} {intrinsics : IntrinsicTable}
    (hs : Moves (State.initial type intrinsics) s) (hm : Moves s last)
    (hwaiting : last.waiting = []) (hn : last.draft.Numbered) {front back : List Label}
    (hlayout : last.draft.layout = front ++ s.draft.current :: back) :
    s.draft.LaidOut (front ++ [s.draft.current]) s.waiting := by
  obtain ⟨first, hadv⟩ := Moves.advances hs
  have laid := hadv.laidOut [entryLabel] laidOut_start
  obtain ⟨placed, hplaced⟩ := List.getLast?_eq_some_iff.1 laid.last
  rw [hplaced] at laid
  obtain ⟨later, -, hrest⟩ := Moves.layout_eq hm hwaiting laid
  rw [List.append_assoc, List.singleton_append] at hrest
  -- The insertion block stands once in the layout, so both ways to split it there are the same.
  have hnodup : last.draft.layout.Nodup := hn.layout.nodup_iff.2 (nodup_labels hn)
  rw [hlayout, List.nodup_append, List.nodup_cons] at hnodup
  obtain ⟨rfl, -, -⟩ := (List.append_cons_inj_of_notMem
    (fun hfront => hnodup.2.2 _ hfront _ List.mem_cons_self rfl) hnodup.2.1.1).1
    (hlayout.symm.trans hrest)
  exact laid

/-- What a run lays out behind a confined state, up to the next block in which code goes on after an
    `else` or an `end`, is part of the confinement. -/
theorem Confined.between {s last : State} {blocks : Set Label} {outer : List Construct}
    (hd : s.Disciplined) (hc : Confined blocks outer s) (hm : Moves s last)
    (hwaiting : last.waiting = []) {before between back : List Label}
    (laid : s.draft.LaidOut before s.waiting)
    (hlayout : last.draft.layout = before ++ (between ++ back))
    (hbetween : ∀ x ∈ between, x.role.resumes = false) :
    ∃ u, Confined blocks outer u ∧ Moves s u ∧ Moves u last ∧
      ∀ x ∈ between, x ∈ blocks ∧ x ∈ u.draft.labels := by
  obtain hc' | ⟨u, v, l, hu, hcu, hulast, hvlast, hl, hadvl⟩ := Moves.confined_or_resumes hm hd hc
  -- Everything up to the end is written inside.
  · obtain ⟨later, hadv, hlater⟩ := Moves.layout_eq hm hwaiting laid
    obtain rfl : between ++ back = later := List.append_cancel_left (hlayout.symm.trans hlater)
    exact ⟨last, hc', hm, .refl, fun x hx => hc.placed hc' laid hadv (List.mem_append_left _ hx)⟩
  -- Something outside is resumed, and what lies between is placed before it.
  · obtain ⟨inner, hadv⟩ := Moves.advances hu
    have laidv := hadvl.laidOut _ (hadv.laidOut _ laid)
    obtain ⟨later, -, hlater⟩ := Moves.layout_eq hvlast hwaiting laidv
    have hsplit : between ++ back = inner ++ l :: later := by
      rw [hlayout, List.append_assoc, List.append_assoc] at hlater
      exact List.append_cancel_left hlater
    refine ⟨u, hcu, hu, hulast, fun x hx => hc.placed hcu laid hadv ?_⟩
    -- The block that resumes is not among those in between.
    obtain ⟨more, rfl, -⟩ | ⟨more, hmore, hback⟩ := List.append_eq_append_iff.1 hsplit
    · exact List.mem_append_left _ hx
    · cases more with
      | nil => rwa [hmore, List.append_nil] at hx
      | cons y more =>
        obtain ⟨rfl, -⟩ := List.cons.inj hback
        rw [hbetween l (by simp [hmore])] at hl
        cases hl

section Functions

variable {types : Array FuncType} {index : Nat} {func : UInt32} {type : FuncType}
  {intrinsics table : IntrinsicTable} {input : Bytes} {f : Ssa.Function}

/-- The last state of a function that was lowered, in which all blocks have been placed. -/
theorem exists_last (h : lowerFunction types index func type intrinsics input = .ok (f, table)) :
    ∃ last, Moves (State.initial type intrinsics) last ∧ last.phase = .finished ∧
      last.waiting = [] ∧ f.blocks = last.draft.finish ∧
      ∀ done s, Boundary types type intrinsics input done s → Moves s last := by
  obtain ⟨signature, body, start, last, -, hbody, hstart, hlast, hstop, rfl, -⟩ :=
    lowerFunction_eq_ok.1 h
  have hb := Boundary.of_steps hbody hstart hlast
  obtain ⟨finished, hnone⟩ := finished_of_stop_eq_none hbody hstart hlast hstop
  refine ⟨last, hb.moves.1, finished, by simp [State.waiting, hnone], rfl, fun done s hs => ?_⟩
  -- Every boundary is on the way to the last state.
  obtain ⟨body', -, hbody', -, ⟨more, hmore⟩, -⟩ := id hs
  obtain rfl := Except.ok.inj (hbody.symm.trans hbody')
  rw [← hmore] at hb
  exact steps_moves hs.moves.2 (hs.steps hb)

/-- In a function, no block goes to the end of a loop, and one block goes to each arm. -/
theorem edges_routed (h : lowerFunction types index func type intrinsics input = .ok (f, table)) :
    (∀ source target, f.Edge source target → target.role ≠ .loopEnd) ∧
      ∀ b ∈ f.blocks, b.label.role.isArm = true → ∃! source, f.Edge source b.label := by
  obtain ⟨last, hm, -, -, hf, -⟩ := exists_last h
  have hd := State.disciplined_initial type intrinsics
  have hsound := (Moves.disciplined hm hd).sound
  have hrouted := Moves.routed hm hd (State.routed_initial type intrinsics)
  constructor
  · exact fun source target hedge =>
      hrouted.loopEnds source target ((edge_iff hsound hf).1 hedge)
  · intro b hb harm
    have hmem := ((mem_finish hsound.numbered).1 (hf ▸ hb)).1
    exact (existsUnique_congr fun source => edge_iff hsound hf).2 (hrouted.arms b.label hmem harm)

/-- No execution reaches what follows the end of a loop, up to the next block in which code goes on
    after an `else` or an `end`. -/
theorem not_reachable_after_loopEnd
    (h : lowerFunction types index func type intrinsics input = .ok (f, table))
    {front between back : List Label} {l : Label}
    (hblocks : f.blocks.map Block.label = front ++ l :: (between ++ back))
    (hl : l.role = .loopEnd) (hbetween : ∀ x ∈ between, x.role.resumes = false) :
    ∀ x ∈ l :: between, ¬ f.Reachable x := by
  obtain ⟨last, hm, -, hwaiting, hf, -⟩ := exists_last h
  have hd := State.disciplined_initial type intrinsics
  have hn := (Moves.disciplined hm hd).sound.numbered
  have hlayout : last.draft.layout = front ++ l :: (between ++ back) := by
    rw [← hblocks, hf, map_label_finish hn]
  have hmem : l ∈ last.draft.labels := hn.layout.subset (by simp [hlayout])
  have hold : l ∉ (State.initial type intrinsics).draft.labels := by
    intro hentry
    obtain rfl := mem_labels_start.1 hentry
    cases hl
  -- The state in which the loop is left, with no branch to its end.
  obtain ⟨u, c, rest, hu, htop, rfl, hleft, hlater⟩ :=
    Moves.left_of_joins hm hd (by rw [hl]; rfl) hold hmem (by simp [hwaiting])
  have hud := Moves.disciplined hu hd
  have hld := Moves.disciplined hleft hud
  have hno : ∀ source, ¬ u.draft.Branches source c.exit := fun source hb =>
    (Moves.routed hu hd (State.routed_initial type intrinsics)).loopEnds source _ hb hl
  have hconf := confined_left hud hld htop hno
  -- The end block is the last one that has been placed by then.
  have laid : (u.left c rest).draft.LaidOut (front ++ [c.exit]) (u.left c rest).waiting :=
    Moves.laidOut_current (hu.trans hleft) hlater hwaiting hn hlayout
  have hrest : last.draft.layout = front ++ [c.exit] ++ (between ++ back) := by simp [hlayout]
  obtain ⟨v, hv, hleftv, hvlast, hmembers⟩ :=
    hconf.between hld hlater hwaiting laid hrest hbetween
  have hreach : ∀ x, x ∈ { x | x ∉ u.draft.labels ∨ x = c.exit } → x ∈ v.draft.labels →
      ¬ f.Reachable x := fun x =>
    not_reachable_of_confined (Moves.disciplined hleftv hld) hv hvlast hf
  refine List.forall_mem_cons.2 ⟨?_, fun x hx => hreach x (hmembers x hx).1 (hmembers x hx).2⟩
  exact hreach _ (.inr rfl) (Moves.labels hleftv hld hld.sound.current_mem)

end Functions

end WasmLowering.Lowering
