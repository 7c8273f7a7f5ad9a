import WasmLowering.Proofs.DraftGrowth
import WasmLowering.Proofs.Run

/-!
# Block discipline of runs

At every boundary of a run, the blocks that wait are the end blocks of the open constructs and the
second arms of open conditionals, each end block has the phis of its construct, and lines may be
appended exactly while the state is live. A move either lets the draft grow, where new branches go
to new blocks or to blocks of open constructs, or it places a waiting block of the innermost
construct.

## Key results

- `Move.grows`, `Move.shape`: what a move does to the draft and to the open constructs
- `Move.disciplined`, `Boundary.disciplined`: the discipline holds at every boundary
-/

namespace WasmLowering.Lowering

open Ssa

/-! ## States -/

/-- Whether lines may be appended. -/
def Phase.isLive : Phase → Bool
  | live => true
  | _ => false

/-- The blocks that a construct still has to place. -/
def Construct.waiting (c : Construct) : List Label :=
  match c.kind with
  | .thenArm other _ => [c.exit, other]
  | _ => [c.exit]

/-- The blocks of a construct that are or will be branched to. -/
def Construct.blocks (c : Construct) : List Label :=
  match c.kind with
  | .thenArm other _ => [c.exit, other]
  | .loop head => [c.exit, head]
  | _ => [c.exit]

/-- The block that a branch to a construct goes to. -/
def Construct.goal (c : Construct) : Label :=
  match c.kind with
  | .loop head => head
  | _ => c.exit

/-- The blocks that have not been placed. -/
def State.waiting (s : State) : List Label :=
  s.constructs.flatMap Construct.waiting

/-- A label that the next move may branch to: that of a new block, or of a block of an open
    construct. -/
def State.Target (s : State) (l : Label) : Prop :=
  l ∉ s.draft.labels ∨ ∃ c ∈ s.constructs, l ∈ c.blocks

/-- The blocks of a construct are what their names say. -/
def Construct.Labelled (d : Draft) (c : Construct) : Prop :=
  c.exit.role.joins = true ∧
    match c.kind with
    | .loop head => head ∈ d.labels ∧ head.role = .loopBegin
    | .thenArm other _ => other.role = .ifElse
    | _ => True

/-- The block discipline of a state: its draft is sound, each end block has the phis of its
    construct, and the other blocks of a construct are what they are for. -/
structure State.Disciplined (s : State) : Prop where
  sound : s.draft.Sound s.waiting s.phase.isLive
  exits : ∀ c ∈ s.constructs, s.draft.joined c.exit = c.results
  labelled : ∀ c ∈ s.constructs, c.Labelled s.draft

section Constructs

variable {s t : State}

/-- The end block of a construct waits. -/
theorem Construct.exit_mem_waiting (c : Construct) : c.exit ∈ c.waiting := by
  unfold waiting
  split <;> simp

/-- The end block is one of the blocks of its construct. -/
theorem Construct.exit_mem_blocks (c : Construct) : c.exit ∈ c.blocks := by
  unfold blocks
  split <;> simp

theorem Construct.goal_of_loop {c : Construct} {head : Label} (h : c.kind = .loop head) :
    c.goal = head := by
  rw [goal, h]

/-- A branch to any other construct goes to its end. -/
theorem Construct.goal_of_not_loop {c : Construct} (h : ∀ head, c.kind ≠ .loop head) :
    c.goal = c.exit := by
  unfold goal
  split
  · next head hk => exact absurd hk (h head)
  · rfl

theorem Construct.goal_mem_blocks (c : Construct) : c.goal ∈ c.blocks := by
  cases hk : c.kind <;> simp [goal, blocks, hk]

theorem Construct.waiting_subset_blocks (c : Construct) : c.waiting ⊆ c.blocks := by
  cases hk : c.kind <;> simp [waiting, blocks, hk]

theorem State.exit_mem_waiting {c : Construct} (hc : c ∈ s.constructs) : c.exit ∈ s.waiting :=
  List.mem_flatMap.2 ⟨c, hc, c.exit_mem_waiting⟩

/-- A construct without a second arm has its end block to place. -/
theorem State.waiting_of_top {c : Construct} {rest : List Construct}
    (top : s.constructs = c :: rest) (kind : ∀ other params, c.kind ≠ .thenArm other params) :
    s.waiting = c.exit :: rest.flatMap Construct.waiting := by
  unfold State.waiting
  rw [top, List.flatMap_cons, Construct.waiting]
  split
  · next other params hk => exact absurd hk (kind other params)
  · rfl

/-- While the state is live, the insertion block is open. -/
theorem State.Disciplined.open (hd : s.Disciplined) (live : s.phase = .live) :
    s.draft.Sound s.waiting true := by
  have := hd.sound
  rwa [live] at this

/-- While the state is dead, the insertion block is closed. -/
theorem State.Disciplined.closed (hd : s.Disciplined) {depth : Nat} (dead : s.phase = .dead depth) :
    s.draft.Sound s.waiting false := by
  have := hd.sound
  rwa [dead] at this

/-- New blocks do not change what the blocks of a construct are. -/
theorem Construct.Labelled.mono {d d' : Draft} {c : Construct} (h : c.Labelled d)
    (hsub : d.labels ⊆ d'.labels) : c.Labelled d' := by
  unfold Construct.Labelled at h ⊢
  cases hk : c.kind with
  | loop head =>
    rw [hk] at h
    exact ⟨h.1, hsub h.2.1, h.2.2⟩
  | _ =>
    rw [hk] at h
    exact h

/-- The start of a loop exists. -/
theorem Construct.Labelled.head {d : Draft} {c : Construct} {head : Label} (h : c.Labelled d)
    (hk : c.kind = .loop head) : head ∈ d.labels ∧ head.role = .loopBegin := by
  unfold Construct.Labelled at h
  rw [hk] at h
  exact h.2

/-- The blocks of an open construct exist. -/
theorem State.Disciplined.mem_labels (hd : s.Disciplined) {c : Construct} (hc : c ∈ s.constructs)
    {l : Label} (hl : l ∈ c.blocks) : l ∈ s.draft.labels := by
  -- All blocks of a construct wait, but for the start of a loop, which was placed.
  have hwait : ∀ l ∈ c.waiting, l ∈ s.draft.labels := fun l hl =>
    hd.sound.waiting_mem l (List.mem_flatMap.2 ⟨c, hc, hl⟩)
  unfold Construct.blocks at hl
  unfold Construct.waiting at hwait
  split at hl
  · next other params hk =>
    rw [hk] at hwait
    exact hwait l hl
  · next head hk =>
    rw [hk] at hwait
    obtain rfl | hl := List.mem_cons.1 hl
    · exact hwait _ List.mem_cons_self
    · rw [List.mem_singleton.1 hl]
      exact ((hd.labelled c hc).head hk).1
  · rw [List.mem_singleton.1 hl]
    exact hd.sound.waiting_mem _ (State.exit_mem_waiting hc)

/-- An end block has one phi for each result. -/
theorem State.Disciplined.length_exit (hd : s.Disciplined) {c : Construct}
    (hc : c ∈ s.constructs) : (s.draft.code c.exit).length = c.results.length := by
  have honly := hd.sound.onlyPhis _ (State.exit_mem_waiting hc)
  rw [← hd.exits c hc, Draft.joined]
  refine (List.filterMap_length_eq_length.2 fun line hl => ?_).symm
  have := honly line hl
  cases line <;> simp_all [Line.isPhi, Line.phiValue]

/-- A block of another construct that is open is not the end block of the innermost one. -/
theorem State.Disciplined.exit_not_mem (hd : s.Disciplined) {c c' : Construct}
    {rest : List Construct} (top : s.constructs = c :: rest) (hc : c' ∈ rest) :
    c.exit ∉ c'.blocks := by
  intro hl
  have hnodup := (List.nodup_cons.1 hd.sound.nodup).2
  rw [State.waiting, top, List.flatMap_cons, List.nodup_append] at hnodup
  -- No block waits for two constructs.
  have hwait : c.exit ∉ c'.waiting := fun h =>
    hnodup.2.2 _ c.exit_mem_waiting _ (List.mem_flatMap.2 ⟨c', hc, h⟩) rfl
  have hrole := (hd.labelled c (by simp [top])).1
  have hlab := hd.labelled c' (by simp [top, hc])
  cases hk : c'.kind with
  | loop head =>
    -- The head of a loop has another role.
    rw [Construct.waiting, hk] at hwait
    rw [Construct.blocks, hk] at hl
    obtain h | h := List.mem_cons.1 hl
    · exact hwait (h ▸ List.mem_cons_self)
    · rw [List.mem_singleton.1 h, (hlab.head hk).2] at hrole
      cases hrole
  | _ =>
    rw [Construct.waiting, hk] at hwait
    rw [Construct.blocks, hk] at hl
    exact hwait hl

end Constructs

/-! ## Moves -/

/-- How a move opens a construct: its blocks are new, and its end block has the phis of its
    results. -/
structure Opens (s : State) (c : Construct) (t : State) : Prop where
  constructs : t.constructs = c :: s.constructs
  blocks : ∀ l ∈ c.blocks, l ∉ s.draft.labels
  results : t.draft.joined c.exit = c.results
  labelled : c.Labelled t.draft

section Shape

variable {s t : State}

open Draft

/-- A move lets the draft grow and may open a construct of new blocks, or it places a waiting block
    of the innermost construct. The new branches go to new blocks that are no end blocks, and to the
    goals of open constructs. -/
theorem Move.grows {allowed : Label → Prop} (hm : Move s t) (hd : s.Disciplined)
    (hnew : ∀ l, l ∉ s.draft.labels → l.role.joins = false → allowed l)
    (hgoal : ∀ c ∈ s.constructs, allowed c.goal) :
    (Adds s.draft.labels allowed s.draft t.draft ∧
      (t.constructs = s.constructs ∨ ∃ c, Opens s c t)) ∨
    (∃ depth c rest other params, s.phase = .dead depth ∧ s.constructs = c :: rest ∧
      c.kind = .thenArm other params ∧ c.base ≤ s.stack.size ∧
      t = s.alternated c rest other params) ∨
    ∃ depth c rest, s.phase = .dead depth ∧ s.constructs = c :: rest ∧
      (∀ other params, c.kind ≠ .thenArm other params) ∧ c.base ≤ s.stack.size ∧
      t = s.left c rest := by
  have ha := hd.sound.toArranged
  have hn := ha.numbered
  -- Most lines go nowhere, so no target of theirs has to be allowed.
  have hnone : ∀ line : Line, line.targets = [] → ∀ l ∈ line.targets, allowed l := by
    intro line h l hl
    rw [h] at hl
    cases hl
  cases hm with
  | slot live entry constant type =>
    refine .inl ⟨?_, .inl rfl⟩
    have ha' := ha.skipValue.append (.alloca s.draft.nextValue (.scalar type)
      (.ofLocal s.locals.size))
    exact (adds_skipValue.trans (adds_append ha.skipValue _ rfl rfl (hnone _ rfl))).trans
      (adds_append ha' _ rfl rfl (hnone _ rfl))
  | compute live operands slots =>
    exact .inl ⟨adds_skipValue.trans (adds_append ha.skipValue _ rfl rfl (hnone _ rfl)), .inl rfl⟩
  | store live value mem => exact .inl ⟨adds_append ha _ rfl rfl (hnone _ rfl), .inl rfl⟩
  | nop live =>
    exact .inl ⟨adds_skipValue.trans (adds_append ha.skipValue _ rfl rfl (hnone _ rfl)), .inl rfl⟩
  | declare intrinsic => exact .inl ⟨.refl .., .inl rfl⟩
  | restack base below held => exact .inl ⟨.refl .., .inl rfl⟩
  | count dead depth => exact .inl ⟨.refl .., .inl rfl⟩
  | finish dead outermost => exact .inl ⟨.refl .., .inl rfl⟩
  -- Opening a construct adds blocks that were not there, the one to join at among them.
  | block live arity =>
    refine .inl ⟨adds_newJoin hn ..,
      .inr ⟨_, rfl, fun l hl => ?_, joined_newJoin hn .., rfl, trivial⟩⟩
    rw [List.mem_singleton.1 hl]
    exact newBlock_not_mem _ hn
  | @loop types live base =>
    have hs := (hd.open live).goOn .loopBegin rfl
    have hgo := adds_goOn hnew ha .loopBegin rfl
    have hjoin := hgo.trans (adds_newJoin hs.numbered .loopEnd types)
    refine .inl ⟨hjoin, .inr ⟨_, rfl, fun l hl => ?_, joined_newJoin hs.numbered .., rfl, ?_, rfl⟩⟩
    · obtain rfl | hl := List.mem_cons.1 hl
      · exact fun h => newBlock_not_mem _ hs.numbered (hgo.labels h)
      · rw [List.mem_singleton.1 hl]
        exact newBlock_not_mem _ hn
    · exact (@adds_newJoin _ s.draft.labels allowed hs.numbered .loopEnd _).labels hs.current_mem
  | @fork xs condition params types live stack base arity =>
    have hs := (hd.open live).fork condition
    have hfork := adds_fork hnew ha condition
    have harms := arms_not_mem hn
    refine .inl ⟨(hfork.trans (adds_newJoin hs.numbered ..)).trans (adds_place harms.1),
      .inr ⟨_, rfl, fun l hl => ?_, joined_newJoin hs.numbered .., rfl, rfl⟩⟩
    obtain rfl | hl := List.mem_cons.1 hl
    · exact fun h => newBlock_not_mem _ hs.numbered (hfork.labels h)
    · rw [List.mem_singleton.1 hl]
      exact harms.2
  | guard live stack base => exact .inl ⟨adds_guard hnew ha _, .inl rfl⟩
  -- A jump goes to the exit of an open construct.
  | jump live mem kind arity held =>
    have hl := hd.mem_labels mem (Construct.exit_mem_blocks _)
    refine .inl ⟨(adds_addEdges hn hl _).trans (adds_append (ha.modifyLines ..) _ rfl rfl ?_),
      .inl rfl⟩
    intro l hl
    rw [List.mem_singleton.1 hl, ← Construct.goal_of_not_loop kind]
    exact hgoal _ mem
  | back live mem kind =>
    refine .inl ⟨adds_append ha _ rfl rfl fun l hl => ?_, .inl rfl⟩
    rw [List.mem_singleton.1 hl, ← Construct.goal_of_loop kind]
    exact hgoal _ mem
  | @close line live terminator targets uses =>
    exact .inl ⟨adds_append ha line (Line.isPhi_of_isTerminator terminator)
      (Line.isReturnSlot_of_isTerminator terminator) (hnone _ targets), .inl rfl⟩
  | retPacked live held => exact .inl ⟨adds_retPacked ha .., .inl rfl⟩
  -- The last two moves change the innermost construct that was open.
  | alternate dead top kind base => exact .inr (.inl ⟨_, _, _, _, _, dead, top, kind, base, rfl⟩)
  | leave dead top kind base => exact .inr (.inr ⟨_, _, _, dead, top, kind, base, rfl⟩)

/-- What a move does, where new branches go to new blocks or to blocks of open constructs. -/
theorem Move.shape (hm : Move s t) (hd : s.Disciplined) :
    (Adds s.draft.labels s.Target s.draft t.draft ∧
      (t.constructs = s.constructs ∨ ∃ c, Opens s c t)) ∨
    (∃ depth c rest other params, s.phase = .dead depth ∧ s.constructs = c :: rest ∧
      c.kind = .thenArm other params ∧ c.base ≤ s.stack.size ∧
      t = s.alternated c rest other params) ∨
    ∃ depth c rest, s.phase = .dead depth ∧ s.constructs = c :: rest ∧
      (∀ other params, c.kind ≠ .thenArm other params) ∧ c.base ≤ s.stack.size ∧
      t = s.left c rest :=
  hm.grows hd (fun _ hl _ => .inl hl) fun c hc => .inr ⟨c, hc, c.goal_mem_blocks⟩

/-- After a move the draft is sound again, with the blocks waiting that the constructs say. -/
theorem Move.sound (hm : Move s t) (hd : s.Disciplined) :
    t.draft.Sound t.waiting t.phase.isLive := by
  have hlive : ∀ u : State, u.phase = .live → u.draft.Sound u.waiting true →
      u.draft.Sound u.waiting u.phase.isLive := by
    intro u hu h
    rwa [hu]
  cases hm with
  | slot live entry constant type =>
    exact hlive _ live (((hd.open live).skipValue.append _ rfl rfl).append _ rfl rfl)
  | compute live operands slots => exact hlive _ live ((hd.open live).skipValue.append _ rfl rfl)
  | store live value mem => exact hlive _ live ((hd.open live).append _ rfl rfl)
  | nop live => exact hlive _ live ((hd.open live).skipValue.append _ rfl rfl)
  | declare intrinsic => exact hd.sound
  | restack base below held => exact hd.sound
  | count dead depth => exact hd.closed dead
  | finish dead outermost => exact hd.closed dead
  | block live arity => exact hlive _ live ((hd.open live).newJoin .blockEnd rfl _)
  | loop live base =>
    exact hlive _ live (((hd.open live).goOn .loopBegin rfl).newJoin .loopEnd rfl _)
  | @fork xs condition params types live stack base arity =>
    have hjoin := ((hd.open live).fork condition).newJoin .ifEnd rfl types
    -- The block of the first arm is placed, the other two go on waiting.
    let exit := ((s.draft.fork condition).newBlock .ifEnd).1
    have hperm := @List.perm_middle _ s.draft.arms.1 [exit, s.draft.arms.2] s.waiting
    exact hlive _ live (hjoin.perm hperm).place
  | guard live stack base => exact hlive _ live ((hd.open live).guard _)
  | jump live mem kind arity held =>
    exact (hd.open live).jump (State.exit_mem_waiting mem) (arity.trans (hd.length_exit mem).symm)
  -- The start of a loop has no phis, so a branch back needs no edge.
  | back live mem kind =>
    have hhead := (hd.labelled _ mem).head kind
    refine (hd.open live).close _ rfl fun l hl => ?_
    rw [List.mem_singleton.1 hl]
    exact ⟨hhead.1, (hd.open live).noPhis _ hhead.1 (by rw [hhead.2]; rfl)⟩
  | close live terminator targets uses =>
    exact (hd.open live).close _ terminator (by simp [targets])
  | retPacked live held => exact (hd.open live).retPacked ..
  -- The second arm waits behind the end block, and is placed before it.
  | @alternate depth c rest other params dead top kind base =>
    have hw : s.waiting = [c.exit, other] ++ rest.flatMap Construct.waiting := by
      simp [State.waiting, Construct.waiting, top, kind]
    have hs := hd.closed dead
    rw [hw] at hs
    exact (hs.perm (.swap other c.exit _)).place
  | @leave depth c rest dead top kind base =>
    have hs := hd.closed dead
    rw [State.waiting_of_top top kind] at hs
    exact hs.place.dropEmptyPhis

/-- Going on after a construct changes nothing but its end block. -/
theorem code_left (hd : s.Disciplined) {c : Construct} {rest : List Construct}
    (top : s.constructs = c :: rest) {l : Label} (hl : l ∈ s.draft.labels) :
    (s.left c rest).draft.code l =
      if l = c.exit then (s.draft.code l).filter (!·.isEmptyPhi) else s.draft.code l := by
  have hexit := hd.mem_labels (c := c) (by simp [top]) c.exit_mem_blocks
  have hn := hd.sound.numbered.place c.exit hexit
  exact code_dropEmptyPhis hn hexit hl

/-- A move keeps the discipline. -/
theorem Move.disciplined (hm : Move s t) (hd : s.Disciplined) : t.Disciplined := by
  refine ⟨hm.sound hd, ?_, ?_⟩
  -- Lines and blocks are added, the other arm is entered, or a construct is left.
  all_goals
    obtain ⟨hadds, hcons⟩ | ⟨depth, c₀, rest, other, params, -, top, -, -, rfl⟩ |
      ⟨depth, c₀, rest, -, top, -, -, rfl⟩ := hm.shape hd
  -- The phis of an end block stay as they were when the construct was opened.
  · have hexit : ∀ c ∈ s.constructs, t.draft.joined c.exit = c.results := fun c hc =>
      (hadds.joined (hd.mem_labels hc c.exit_mem_blocks)).trans (hd.exits c hc)
    intro c hc
    obtain hcons | ⟨c', hopen⟩ := hcons
    · exact hexit c (hcons ▸ hc)
    · rw [hopen.constructs] at hc
      obtain rfl | hc := List.mem_cons.1 hc
      · exact hopen.results
      · exact hexit c hc
  · intro c hc
    obtain rfl | hc := List.mem_cons.1 hc
    · exact hd.exits c₀ (by simp [top])
    · exact hd.exits c (by simp [top, hc])
  -- Leaving a construct changes the code of its own exit only.
  · intro c hc
    have hmem : c ∈ s.constructs := by rw [top]; exact List.mem_cons_of_mem _ hc
    have hne : c.exit ≠ c₀.exit := fun h => hd.exit_not_mem top hc (h ▸ c.exit_mem_blocks)
    rw [joined, code_left hd top (hd.mem_labels hmem c.exit_mem_blocks), if_neg hne]
    exact hd.exits c hmem
  · intro c hc
    obtain hcons | ⟨c', hopen⟩ := hcons
    · exact (hd.labelled c (hcons ▸ hc)).mono hadds.labels
    · rw [hopen.constructs] at hc
      obtain rfl | hc := List.mem_cons.1 hc
      · exact hopen.labelled
      · exact (hd.labelled c hc).mono hadds.labels
  · intro c hc
    obtain rfl | hc := List.mem_cons.1 hc
    · exact ⟨(hd.labelled c₀ (by simp [top])).1, trivial⟩
    · exact hd.labelled c (by simp [top, hc])
  · intro c hc
    refine (hd.labelled c (by rw [top]; exact List.mem_cons_of_mem _ hc)).mono ?_
    simp [State.left]

/-- The discipline holds of the empty state. -/
theorem State.disciplined_initial (type : FuncType) (intrinsics : IntrinsicTable) :
    (State.initial type intrinsics).Disciplined := by
  -- There is one block, the entry block, and it has no lines yet.
  have hcode : ∀ l ∈ Draft.start.labels, l = entryLabel ∧ Draft.start.code l = [] := by
    intro l hl
    obtain rfl : l = entryLabel := by simpa [labels, Draft.start] using hl
    exact ⟨rfl, rfl⟩
  have hbranch : ∀ source target, ¬ Draft.start.Branches source target := by
    rintro source target ⟨hl, ht⟩
    rw [(hcode source hl).2] at ht
    cases ht
  refine ⟨?_, fun c hc => absurd hc List.not_mem_nil, fun c hc => absurd hc List.not_mem_nil⟩
  show Draft.start.Sound [] true
  constructor
  case toArranged =>
    refine ⟨⟨fun i b hb => ?_, .refl _⟩, ?_, ?_, ?_, ?_, ?_⟩
    · obtain ⟨hi, rfl⟩ := Array.getElem?_eq_some_iff.1 hb
      obtain rfl : i = 0 := by simpa [Draft.start] using hi
      rfl
    all_goals simp [labels, Draft.start]
  case noPhis => exact fun l hl _ line h => by simp [(hcode l hl).2] at h
  case onlyPhis => exact fun l hl => absurd hl List.not_mem_nil
  case unended => exact fun _ line h => absurd h List.not_mem_nil
  case ended => exact fun l hl _ hne => absurd (hcode l hl).1 (hne rfl)
  case phisFirst =>
    intro l hl
    rw [(hcode l hl).2]
    exact List.Pairwise.nil
  case targets => exact fun source target h => absurd h (hbranch source target)
  case edges => exact fun l hl line h => by simp [(hcode l hl).2] at h

/-- A sequence of moves keeps the discipline. -/
theorem Moves.disciplined (hm : Moves s t) (hd : s.Disciplined) : t.Disciplined := by
  induction hm with
  | refl => exact hd
  | tail _ hm ih => exact hm.disciplined ih

/-- The discipline holds at every boundary. -/
theorem Boundary.disciplined {types : Array FuncType} {type : FuncType}
    {intrinsics : IntrinsicTable} {input : Bytes} {done : List Operator}
    (h : Boundary types type intrinsics input done s) : s.Disciplined :=
  Moves.disciplined h.moves.1 (State.disciplined_initial ..)

end Shape

end WasmLowering.Lowering
