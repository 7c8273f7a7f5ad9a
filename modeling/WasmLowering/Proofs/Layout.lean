import WasmLowering.Proofs.Completion
import WasmLowering.Proofs.Discipline

/-!
# Layout of blocks

Blocks are created at the end of the layout and moved behind the insertion block when they are
placed. So the layout always has the placed blocks first, in the order in which they were placed,
and then the others, in the order in which they were created; the insertion block is the last one
that was placed.

What was placed is part of no draft. `Draft.Builds` says that a draft becomes another one by
operations that place given blocks in a given order.

## Key results

- `Draft.Advances.newBlock`, `Draft.Advances.place`, …: one lemma for each operation on drafts
- `Move.advances`, `Moves.advances`: the layout along a run
-/

namespace WasmLowering.Ssa

/-! ## Positions in a list -/

/-- Behind the last element of a list that has it once. -/
private theorem insertAfter_append {placed rest : List Label} {anchor : Label} (x : Label)
    (hlast : placed.getLast? = some anchor) (hnodup : placed.Nodup) :
    insertAfter anchor x (placed ++ rest) = placed ++ x :: rest := by
  induction placed with
  | nil => simp at hlast
  | cons y ys ih =>
    cases ys with
    | nil =>
      obtain rfl : y = anchor := by simpa using hlast
      simp [insertAfter]
    | cons z zs =>
      have hlast' : (z :: zs).getLast? = some anchor := by simpa using hlast
      -- The last element is not the first one, as it is there once.
      have hne : y ≠ anchor := by
        rintro rfl
        exact (List.nodup_cons.1 hnodup).1 (List.mem_of_getLast? hlast')
      have := ih hlast' (List.nodup_cons.1 hnodup).2
      simp only [List.cons_append] at this ⊢
      rw [insertAfter, if_neg hne, this]

/-- What is closed by a terminator is not open. -/
theorem Ended.not_unended {lines : List Line} (h : Ended lines) : ¬ Unended lines := by
  obtain ⟨body, last, rfl, hlast, -⟩ := h
  intro hun
  simp [hun last (by simp)] at hlast

namespace Draft

/-! ## Operations -/

/-- The first draft becomes the second one by operations that place the blocks of the list, in this
    order. -/
inductive Builds (d : Draft) : List Label → Draft → Prop where
  | refl : Builds d [] d
  | value {placed : List Label} {d' : Draft} (h : Builds d placed d') : Builds d placed d'.skipValue
  | lines {placed : List Label} {d' : Draft} (h : Builds d placed d') (label : Label)
      (f : Array Line → Array Line) : Builds d placed (d'.modifyLines label f)
  | create {placed : List Label} {d' : Draft} (h : Builds d placed d') (role : BlockRole) :
      Builds d placed (d'.newBlock role).2
  | place {placed : List Label} {d' : Draft} (h : Builds d placed d') (label : Label) :
      Builds d (placed ++ [label]) (d'.place label)

/-- Operations on operations: the blocks are placed one list after the other. -/
theorem Builds.trans {d d' d'' : Draft} {placed later : List Label} (h : Builds d placed d')
    (h' : Builds d' later d'') : Builds d (placed ++ later) d'' := by
  induction h' with
  | refl => simpa using h
  | value _ ih => exact ih.value
  | lines _ label f ih => exact ih.lines label f
  | create _ role ih => exact ih.create role
  | place _ label ih => simpa using ih.place label

/-! ## Layouts -/

/-- The placed blocks come first, then the waiting ones in the order of creation. -/
structure LaidOut (d : Draft) (placed waiting : List Label) : Prop where
  numbered : d.Numbered
  layout : d.layout = placed ++ d.labels.filter (· ∉ placed)
  last : placed.getLast? = some d.current
  nodup : waiting.Nodup
  mem_waiting : ∀ l, l ∈ waiting ↔ l ∈ d.labels ∧ l ∉ placed

theorem LaidOut.layout_nodup {d : Draft} {placed waiting : List Label}
    (h : d.LaidOut placed waiting) : d.layout.Nodup :=
  h.numbered.layout.nodup_iff.2 (nodup_labels h.numbered)

/-- No block is placed twice. -/
theorem LaidOut.placed_nodup {d : Draft} {placed waiting : List Label}
    (h : d.LaidOut placed waiting) : placed.Nodup := by
  have := h.layout_nodup
  rw [h.layout] at this
  exact this.of_append_left

/-- Only blocks that exist are placed. -/
theorem LaidOut.placed_subset {d : Draft} {placed waiting : List Label}
    (h : d.LaidOut placed waiting) : placed ⊆ d.labels := by
  intro l hl
  apply h.numbered.layout.subset
  rw [h.layout]
  exact List.mem_append_left _ hl

/-- The first draft becomes the second one while the blocks of `placed` are placed, and if some
    blocks were waiting before, others are waiting afterwards. -/
structure Advances (d : Draft) (waiting placed : List Label) (d' : Draft) (waiting' : List Label) :
    Prop where
  builds : d.Builds placed d'
  laidOut : ∀ before, d.LaidOut before waiting → d'.LaidOut (before ++ placed) waiting'

section Advances

variable {d d' d'' : Draft} {waiting waiting' waiting'' placed later : List Label}

theorem Advances.refl : d.Advances waiting [] d waiting :=
  ⟨.refl, fun before h => by simpa using h⟩

/-- What is placed by one change and then by another is placed in this order. -/
theorem Advances.trans (h : d.Advances waiting placed d' waiting')
    (h' : d'.Advances waiting' later d'' waiting'') :
    d.Advances waiting (placed ++ later) d'' waiting'' :=
  ⟨h.builds.trans h'.builds, fun before hb => by
    simpa using h'.laidOut _ (h.laidOut before hb)⟩

/-- The order of the waiting blocks does not matter. -/
theorem Advances.perm (h : d.Advances waiting placed d' waiting') (hp : waiting'.Perm waiting'') :
    d.Advances waiting placed d' waiting'' where
  builds := h.builds
  laidOut before hb := by
    obtain ⟨numbered, layout, last, nodup, mem⟩ := h.laidOut before hb
    exact ⟨numbered, layout, last, hp.nodup_iff.1 nodup, fun l => hp.mem_iff.symm.trans (mem l)⟩

/-- Skipping a value places nothing. -/
theorem Advances.skipValue (h : d.Advances waiting placed d' waiting') :
    d.Advances waiting placed d'.skipValue waiting' where
  builds := h.builds.value
  laidOut before hb := by
    obtain ⟨numbered, layout, last, nodup, mem⟩ := h.laidOut before hb
    exact ⟨numbered.skipValue, layout, last, nodup, mem⟩

/-- Changing the lines of a block places nothing. -/
theorem Advances.modifyLines (h : d.Advances waiting placed d' waiting') (label : Label)
    (f : Array Line → Array Line) :
    d.Advances waiting placed (d'.modifyLines label f) waiting' where
  builds := h.builds.lines label f
  laidOut before hb := by
    obtain ⟨numbered, layout, last, nodup, mem⟩ := h.laidOut before hb
    refine ⟨numbered.modifyLines label f, ?_, last, nodup, ?_⟩
    · rw [labels_modifyLines]
      exact layout
    · rw [labels_modifyLines]
      exact mem

theorem Advances.append (h : d.Advances waiting placed d' waiting') (line : Line) :
    d.Advances waiting placed (d'.append line) waiting' :=
  h.modifyLines ..

/-- A block that is created starts to wait. -/
theorem Advances.newBlock (h : d.Advances waiting placed d' waiting') (role : BlockRole) :
    d.Advances waiting placed (d'.newBlock role).2 ((d'.newBlock role).1 :: waiting') where
  builds := h.builds.create role
  laidOut before hb := by
    have laid := h.laidOut before hb
    have fresh := newBlock_not_mem role laid.numbered
    -- The new block is not among those that were placed, which all existed before.
    have unplaced : (d'.newBlock role).1 ∉ before ++ placed := fun hl =>
      fresh (laid.placed_subset hl)
    refine ⟨laid.numbered.newBlock role, ?_, laid.last, ?_, fun l => ?_⟩
    · show d'.layout ++ [(d'.newBlock role).1] = _
      have hself : [(d'.newBlock role).1].filter (· ∉ before ++ placed) = [(d'.newBlock role).1] :=
        List.filter_eq_self.2 (by simpa using unplaced)
      rw [labels_newBlock, List.filter_append, hself, laid.layout, List.append_assoc]
    · exact List.nodup_cons.2 ⟨fun hl => fresh ((laid.mem_waiting _).1 hl).1, laid.nodup⟩
    · rw [labels_newBlock, List.mem_cons, List.mem_append, List.mem_singleton, laid.mem_waiting l]
      constructor
      · rintro (rfl | ⟨hl, hp⟩)
        · exact ⟨.inr rfl, unplaced⟩
        · exact ⟨.inl hl, hp⟩
      · rintro ⟨hl | hl, hp⟩
        · exact .inr ⟨hl, hp⟩
        · exact .inl hl

/-- A waiting block that is placed comes right behind the other placed ones. -/
theorem Advances.place {label : Label} (h : d.Advances waiting placed d' (label :: waiting')) :
    d.Advances waiting (placed ++ [label]) (d'.place label) waiting' where
  builds := h.builds.place label
  laidOut before hb := by
    have laid := h.laidOut before hb
    obtain ⟨hmem, hunplaced⟩ := (laid.mem_waiting label).1 List.mem_cons_self
    obtain ⟨hnot, hnodup⟩ := List.nodup_cons.1 laid.nodup
    -- Taking the block out of the waiting ones is filtering once more.
    have herase : (d'.labels.filter (· ∉ before ++ placed)).erase label =
        d'.labels.filter (· ∉ before ++ placed ++ [label]) := by
      rw [((nodup_labels laid.numbered).filter _).erase_eq_filter, List.filter_filter]
      apply List.filter_congr
      intro l _
      by_cases hl : l = label <;> simp [hl]
    refine ⟨laid.numbered.place label hmem, ?_, by simp, hnodup, fun l => ?_⟩
    · show insertAfter d'.current label (d'.layout.erase label) = _
      rw [laid.layout, List.erase_append_right _ hunplaced, insertAfter_append _ laid.last
        laid.placed_nodup, herase, labels_place]
      simp
    · have := laid.mem_waiting l
      rw [List.mem_cons] at this
      rw [labels_place, ← List.append_assoc, List.mem_append, List.mem_singleton, not_or,
        ← and_assoc, ← this]
      constructor
      · exact fun hl => ⟨.inr hl, fun heq => hnot (heq ▸ hl)⟩
      · rintro ⟨rfl | hl, hne⟩
        · exact absurd rfl hne
        · exact hl

end Advances

/-! ## Combined operations -/

section Combined

variable {d d' : Draft} {waiting waiting' placed : List Label}

/-- Adding phis places nothing. -/
theorem Advances.addPhis (h : d.Advances waiting placed d' waiting') (label : Label)
    (types : List ScalarType) :
    d.Advances waiting placed (d'.addPhis label types).2 waiting' := by
  induction types generalizing d' with
  | nil => exact h
  | cons type types ih =>
    rw [addPhis_cons]
    exact ih (h.skipValue.modifyLines ..)

theorem Advances.dropEmptyPhis (h : d.Advances waiting placed d' waiting') (label : Label) :
    d.Advances waiting placed (d'.dropEmptyPhis label) waiting' :=
  h.modifyLines ..

theorem Advances.newJoin (h : d.Advances waiting placed d' waiting') (role : BlockRole)
    (types : List ScalarType) :
    d.Advances waiting placed (d'.newJoin role types) ((d'.newBlock role).1 :: waiting') :=
  (h.newBlock role).addPhis ..

theorem Advances.goOn (h : d.Advances waiting placed d' waiting') (role : BlockRole) :
    d.Advances waiting (placed ++ [(d'.newBlock role).1]) (d'.goOn role) waiting' :=
  ((h.newBlock role).append _).place

theorem Advances.fork (h : d.Advances waiting placed d' waiting') (condition : Operand) :
    d.Advances waiting placed (d'.fork condition) (d'.arms.2 :: d'.arms.1 :: waiting') :=
  ((h.newBlock .ifThen).newBlock .ifElse).append _

/-- The trap is placed first, then the block where the code goes on. -/
theorem Advances.guard (h : d.Advances waiting placed d' waiting') (condition : Operand) :
    ∃ later, d.Advances waiting (placed ++ later) (d'.guard condition) waiting' := by
  let trapLabel := (d'.newBlock .truncTrap).1
  let okLabel := ((d'.newBlock .truncTrap).2.newBlock .truncOk).1
  have trap := (((h.newBlock .truncTrap).newBlock .truncOk).append
    (.condBr condition okLabel trapLabel)).perm (.swap ..)
  have ok := ((trap.place.append .trap).append .unreachable).place
  exact ⟨_, by rw [← List.append_assoc]; exact ok⟩

/-- Storing fields places nothing. -/
theorem Advances.storeFields (h : d.Advances waiting placed d' waiting') (slot : ValueId)
    (index : Nat) (values : List Operand) :
    d.Advances waiting placed (d'.storeFields slot index values) waiting' := by
  induction values generalizing d' index with
  | nil => exact h
  | cons v vs ih => exact ih ((h.skipValue.append _).append _) _

theorem Advances.retPacked (h : d.Advances waiting placed d' waiting') (fields : List ScalarType)
    (values : List Operand) :
    d.Advances waiting placed (d'.retPacked fields values) waiting' :=
  (((h.skipValue.modifyLines ..).storeFields ..).skipValue.append _).append _

end Combined

/-- The blocks of a finished draft stand in the order of the layout. -/
theorem map_label_finish {d : Draft} (hn : d.Numbered) : d.finish.map Block.label = d.layout := by
  have hmem : ∀ l ∈ d.layout, l ∈ d.labels := fun l hl => hn.layout.subset hl
  unfold finish
  -- The labels of the layout all lead to a block with this label.
  generalize d.layout = layout at hmem
  induction layout with
  | nil => rfl
  | cons l rest ih =>
    obtain ⟨b, hb, rfl⟩ := exists_block hn (hmem l List.mem_cons_self)
    simp only [List.filterMap_cons, hb, List.map_cons]
    rw [ih fun l hl => hmem l (List.mem_cons_of_mem _ hl)]

/-- With no block waiting, all blocks have been placed. -/
theorem LaidOut.all_placed {d : Draft} {placed : List Label} (h : d.LaidOut placed []) :
    d.layout = placed := by
  have hnone : d.labels.filter (· ∉ placed) = [] := by
    refine List.filter_eq_nil_iff.2 fun l hl hp => ?_
    exact absurd ((h.mem_waiting l).2 ⟨hl, by simpa using hp⟩) List.not_mem_nil
  rw [h.layout, hnone, List.append_nil]

/-- At first the entry block is placed, and no block waits. -/
theorem laidOut_start : Draft.start.LaidOut [entryLabel] [] where
  numbered := (Lowering.State.disciplined_initial {} {}).sound.numbered
  layout := by decide
  last := rfl
  nodup := List.nodup_nil
  mem_waiting l := by simp [labels, Draft.start]

end Draft

end WasmLowering.Ssa

namespace WasmLowering.Lowering

open Ssa

/-! ## Runs -/

section Runs

variable {s t : State}

/-- The second arm of a conditional starts in the block that waits for it. -/
theorem advances_alternated {c : Construct} {rest : List Construct} {other : Label}
    {params : Array Operand} (top : s.constructs = c :: rest)
    (kind : c.kind = .thenArm other params) :
    s.draft.Advances s.waiting [other] (s.alternated c rest other params).draft
      (s.alternated c rest other params).waiting := by
  have start : s.draft.Advances s.waiting [] s.draft s.waiting := .refl
  -- The end of the conditional goes on waiting, behind the arm that is placed.
  have hw : s.waiting = c.exit :: other :: rest.flatMap Construct.waiting := by
    simp [State.waiting, Construct.waiting, top, kind]
  rw [hw] at start ⊢
  exact (start.perm (.swap ..)).place

/-- The code after a construct starts in its end block. -/
theorem advances_left {c : Construct} {rest : List Construct} (top : s.constructs = c :: rest)
    (kind : ∀ other params, c.kind ≠ .thenArm other params) :
    s.draft.Advances s.waiting [c.exit] (s.left c rest).draft (s.left c rest).waiting := by
  have start : s.draft.Advances s.waiting [] s.draft s.waiting := .refl
  rw [State.waiting_of_top top kind] at start ⊢
  exact start.place.dropEmptyPhis c.exit

/-- A move creates and places blocks in such a way that those of the open constructs wait. -/
theorem Move.advances (hm : Move s t) :
    ∃ placed, s.draft.Advances s.waiting placed t.draft t.waiting := by
  have start : s.draft.Advances s.waiting [] s.draft s.waiting := .refl
  cases hm with
  | slot live entry constant type => exact ⟨_, (start.skipValue.append _).append _⟩
  | compute live operands slots => exact ⟨_, start.skipValue.append _⟩
  | store live value mem => exact ⟨_, start.append _⟩
  | nop live => exact ⟨_, start.skipValue.append _⟩
  | declare intrinsic => exact ⟨_, start⟩
  | restack base below held => exact ⟨_, start⟩
  | count dead depth => exact ⟨_, start⟩
  | finish dead outermost => exact ⟨_, start⟩
  | block live arity => exact ⟨_, start.newJoin ..⟩
  | loop live base => exact ⟨_, (start.goOn .loopBegin).newJoin ..⟩
  | @fork xs condition params types live stack base arity =>
    have join := (start.fork condition).newJoin .ifEnd types
    -- The block of the first arm is placed, the other two go on waiting.
    let exit := ((s.draft.fork condition).newBlock .ifEnd).1
    have hperm := @List.perm_middle _ s.draft.arms.1 [exit, s.draft.arms.2] s.waiting
    exact ⟨_, (join.perm hperm).place⟩
  | guard live stack base => exact start.guard _
  | jump live mem kind arity held => exact ⟨_, (start.modifyLines ..).append _⟩
  | back live mem kind => exact ⟨_, start.append _⟩
  | close live terminator targets uses => exact ⟨_, start.append _⟩
  | retPacked live held => exact ⟨_, start.retPacked ..⟩
  | alternate dead top kind base => exact ⟨_, advances_alternated top kind⟩
  | leave dead top kind base => exact ⟨_, advances_left top kind⟩

/-- A sequence of moves creates and places blocks in the same way. -/
theorem Moves.advances (hm : Moves s t) :
    ∃ placed, s.draft.Advances s.waiting placed t.draft t.waiting := by
  induction hm with
  | refl => exact ⟨[], .refl⟩
  | tail _ hm ih =>
    obtain ⟨placed, h⟩ := ih
    obtain ⟨later, h'⟩ := hm.advances
    exact ⟨_, h.trans h'⟩

/-- The discipline of blocks between two operators, when the given blocks have been placed. -/
structure State.Blocks (s : State) (placed : List Label) : Prop where
  layout : s.draft.layout = placed ++ s.draft.labels.filter (· ∉ placed)
  once : placed.Nodup
  entry : placed.head? = some Draft.entryLabel
  current : placed.getLast? = some s.draft.current
  ended : ∀ l ∈ placed, l ≠ s.draft.current → Ended (s.draft.code l)
  /-- The insertion block has a terminator if the code cannot be reached, and only then. -/
  closed_iff : Ended (s.draft.code s.draft.current) ↔ s.phase ≠ .live
  open_iff : Unended (s.draft.code s.draft.current) ↔ s.phase = .live
  unplaced : ∀ l ∈ s.draft.labels, l ∉ placed → OnlyPhis (s.draft.code l)

/-- Where the blocks lie says how they end. -/
theorem State.Disciplined.blocks {placed : List Label} (hd : s.Disciplined)
    (laid : s.draft.LaidOut placed s.waiting) (entry : placed.head? = some Draft.entryLabel) :
    s.Blocks placed := by
  have hcurrent : s.draft.current ∉ s.waiting := (List.nodup_cons.1 hd.sound.nodup).1
  -- The insertion block does not wait, so it has its terminator unless the code is live.
  have hended : s.phase ≠ .live → Ended (s.draft.code s.draft.current) := by
    intro hdead
    refine hd.sound.ended _ hd.sound.current_mem hcurrent fun hl => absurd ?_ hdead
    cases hp : s.phase <;> simp_all [Phase.isLive]
  have hunended : s.phase = .live → Unended (s.draft.code s.draft.current) := fun live =>
    (hd.open live).unended rfl
  constructor
  case layout => exact laid.layout
  case once => exact laid.placed_nodup
  case entry => exact entry
  case current => exact laid.last
  case ended =>
    intro l hl hne
    refine hd.sound.ended l (laid.placed_subset hl) (fun hw => ?_) fun _ => hne
    exact ((laid.mem_waiting l).1 hw).2 hl
  case closed_iff => exact ⟨fun h live => h.not_unended (hunended live), hended⟩
  case open_iff =>
    exact ⟨fun h => by_contra fun hdead => (hended hdead).not_unended h, hunended⟩
  case unplaced => exact fun l hl hp => hd.sound.onlyPhis l ((laid.mem_waiting l).2 ⟨hl, hp⟩)

section Boundaries

variable {types : Array FuncType} {type : FuncType} {intrinsics : IntrinsicTable} {input : Bytes}

/-- What has been placed at a boundary. -/
theorem Boundary.laidOut {done : List Operator} (h : Boundary types type intrinsics input done s) :
    ∃ placed, Draft.start.Builds placed s.draft ∧
      s.draft.LaidOut (Draft.entryLabel :: placed) s.waiting := by
  obtain ⟨placed, hadv⟩ := Moves.advances h.moves.1
  exact ⟨placed, hadv.builds, hadv.laidOut [Draft.entryLabel] Draft.laidOut_start⟩

theorem Boundary.advances {done more : List Operator}
    (hs : Boundary types type intrinsics input done s)
    (ht : Boundary types type intrinsics input (done ++ more) t) :
    ∃ later, s.draft.Advances s.waiting later t.draft t.waiting :=
  Moves.advances (steps_moves hs.moves.2 (hs.steps ht))

/-- Between any two operators of a body, the layout has the placed blocks in the order in which they
    were placed, the entry block first, and then the others in the order in which they were created.
    The insertion block is the one that was placed last. It has a terminator exactly if the code
    cannot be reached; the other placed blocks have one, and what waits has phis only. In the
    finished function every block that was created has been placed once and has one terminator, at
    its end. -/
theorem blocks_placed_in_order (types : Array FuncType) (type : FuncType)
    (intrinsics : IntrinsicTable) (input : Bytes) :
    (∀ done s, Boundary types type intrinsics input done s →
      ∃ placed, Draft.start.Builds placed s.draft ∧ s.Blocks (Draft.entryLabel :: placed) ∧
        ∀ more t, Boundary types type intrinsics input (done ++ more) t →
          ∃ later, s.draft.Builds later t.draft ∧
            t.Blocks (Draft.entryLabel :: (placed ++ later))) ∧
    ∀ index func f table, lowerFunction types index func type intrinsics input = .ok (f, table) →
      ∃ done s placed, Boundary types type intrinsics input done s ∧
        f.blocks = s.draft.finish ∧ Draft.start.Builds placed s.draft ∧
        f.blocks.map Block.label = Draft.entryLabel :: placed ∧
        (Draft.entryLabel :: placed).Nodup ∧ (Draft.entryLabel :: placed).Perm s.draft.labels ∧
        ∀ b ∈ f.blocks, Ended b.lines.toList := by
  constructor
  · intro done s hs
    obtain ⟨placed, hbuilds, laid⟩ := hs.laidOut
    refine ⟨placed, hbuilds, hs.disciplined.blocks laid rfl, fun more t ht => ?_⟩
    obtain ⟨later, hadv⟩ := hs.advances ht
    exact ⟨later, hadv.builds, ht.disciplined.blocks (hadv.laidOut _ laid) rfl⟩
  · intro index func f table h
    obtain ⟨signature, body, start, last, -, hbody, hstart, hlast, hstop, rfl, -⟩ :=
      lowerFunction_eq_ok.1 h
    have hb := Boundary.of_steps hbody hstart hlast
    obtain ⟨finished, hnone⟩ := finished_of_stop_eq_none hbody hstart hlast hstop
    obtain ⟨placed, hbuilds, laid⟩ := hb.laidOut
    -- At the end no construct is open, so no block is left to be placed.
    have hwaiting : last.waiting = [] := by simp [State.waiting, hnone]
    have sound := hb.disciplined.sound
    rw [hwaiting] at laid sound
    refine ⟨_, last, placed, hb, rfl, hbuilds, ?_, laid.placed_nodup, ?_, fun b hmem => ?_⟩
    · rw [Draft.map_label_finish laid.numbered, laid.all_placed]
    · rw [← laid.all_placed]
      exact laid.numbered.layout
    · obtain ⟨hl, hlines⟩ := (Draft.mem_finish laid.numbered).1 hmem
      rw [hlines]
      exact sound.ended _ hl List.not_mem_nil fun hlive => by simp [finished, Phase.isLive] at hlive

/-- A body with a conditional that has one arm, a loop that goes back, and a checked truncation. -/
theorem blocks_placed_in_order_loop :
    ∃ f table,
      lowerFunction #[] 0 0 { params := [.f32], results := [.i32] } {}
        [0x00, 0x03, 0x40, 0x41, 0x01, 0x04, 0x40, 0x0C, 0x01, 0x0B, 0x0B, 0x20, 0x00, 0xA8,
          0x0B] = .ok (f, table) ∧
      (f.blocks.map Block.label).Nodup ∧ ∀ b ∈ f.blocks, Ended b.lines.toList := by
  have hok : (lowerFunction #[] 0 0 { params := [.f32], results := [.i32] } {}
      [0x00, 0x03, 0x40, 0x41, 0x01, 0x04, 0x40, 0x0C, 0x01, 0x0B, 0x0B, 0x20, 0x00, 0xA8,
        0x0B]).toOption.isSome = true := by decide +kernel
  obtain ⟨⟨f, table⟩, h⟩ := exists_ok_of_isSome hok
  obtain ⟨_, _, placed, -, -, -, hlabels, hnodup, -, hended⟩ :=
    (blocks_placed_in_order ..).2 _ _ f table h
  exact ⟨f, table, h, hlabels ▸ hnodup, hended⟩

end Boundaries

end Runs

end WasmLowering.Lowering
