import WasmLowering.Proofs.Discipline
import WasmLowering.Proofs.Nesting

/-!
# Phis and predecessors

The phis of a lowered function match its control flow: they stand first in their blocks, and their
edges come from the blocks that branch there, one from each. At the end of a construct its results
are its phis if some branch leads to the end block. Otherwise they are zeros and the phis are gone;
then the end block cannot be reached, and neither can any block that is written while the zeros are
on the stack.

## Key results

- `edge_iff`: the control flow of a finished draft
- `Move.settled`: a block that no open construct branches to gains no branch
- `resultsAfter_eq`: what a construct leaves on the stack
- `Moves.confined`: what follows a block that cannot be reached
- `phis_match_predecessors`: the phis of every lowered function
-/

namespace WasmLowering.Ssa

/-! ## Finished drafts -/

section Finished

variable {d : Draft} {waiting : List Label} {live : Bool} {f : Function}

/-- The last line of a block says where the block goes. -/
theorem Draft.Sound.successors (hs : d.Sound waiting live) {b : Block} (hb : b.label ∈ d.labels)
    (hlines : b.lines.toList = d.code b.label) :
    b.successors = (d.code b.label).flatMap Line.targets := by
  -- A block that is still open goes nowhere, and neither does its last line.
  have hopen : Unended (d.code b.label) → b.successors = (d.code b.label).flatMap Line.targets := by
    intro h
    rw [h.targets, Block.successors, hlines]
    split
    · rfl
    · next line hl => exact line.targets_eq_nil (h line (List.mem_of_getLast? hl))
  by_cases hw : b.label ∈ waiting
  · exact hopen (hs.onlyPhis _ hw).unended
  · by_cases hc : live = true ∧ b.label = d.current
    · exact hopen (hc.2 ▸ hs.unended hc.1)
    · obtain ⟨body, last, heq, -, hbody⟩ := hs.ended _ hb hw fun hl h => hc ⟨hl, h⟩
      rw [heq, Ended.targets hbody, Block.successors, hlines, heq]
      simp

/-- The control flow of a finished draft is given by the branches in its blocks. -/
theorem edge_iff (hs : d.Sound waiting live) (hf : f.blocks = d.finish) {source target : Label} :
    f.Edge source target ↔ d.Branches source target := by
  unfold Function.Edge
  rw [hf]
  constructor
  · intro ⟨b, hb, hl, ht⟩
    obtain ⟨hmem, hlines⟩ := (Draft.mem_finish hs.numbered).1 hb
    rw [hs.successors hmem hlines] at ht
    exact ⟨hl ▸ hmem, hl ▸ ht⟩
  · intro ⟨hmem, ht⟩
    let b : Block := { label := source, lines := d.lines source }
    have hb : b ∈ d.finish := (Draft.mem_finish hs.numbered).2 ⟨hmem, rfl⟩
    refine ⟨b, hb, rfl, ?_⟩
    rw [@Draft.Sound.successors d waiting live hs b hmem rfl]
    exact ht

/-- The phis of a finished draft match its branches. -/
theorem Draft.Sound.phisMatch (hs : d.Sound waiting live) (hf : f.blocks = d.finish) :
    f.PhisMatch := by
  intro b hb
  rw [hf] at hb
  obtain ⟨hmem, hlines⟩ := (Draft.mem_finish hs.numbered).1 hb
  rw [hlines]
  refine ⟨hs.phisFirst _ hmem, fun line hl hphi => ?_⟩
  obtain ⟨hnodup, hiff⟩ := hs.edges _ hmem line hl hphi
  exact ⟨hnodup, fun source => (hiff source).trans (edge_iff hs hf).symm⟩

end Finished

/-- Whether the block with a given label has the given phis. -/
def Function.HasPhis (f : Function) (label : Label) (phis : List Operand) : Prop :=
  ∃ b ∈ f.blocks, b.label = label ∧ b.lines.toList.filterMap Line.phiValue = phis

/-- A block of a finished draft has the phis that it had before. -/
private theorem hasPhis_of_joined {d : Draft} {f : Function} (hn : d.Numbered)
    (hf : f.blocks = d.finish)
    {label : Label} (hl : label ∈ d.labels) : f.HasPhis label (d.joined label) := by
  refine ⟨{ label, lines := d.lines label }, ?_, rfl, rfl⟩
  rw [hf]
  exact (Draft.mem_finish hn).2 ⟨hl, rfl⟩

/-- A phi without edges is a phi and has no edges. -/
theorem Line.isEmptyPhi_iff {line : Line} :
    line.isEmptyPhi = true ↔ line.isPhi = true ∧ line.edges = [] := by
  cases line with
  | phi id type edges => cases edges <;> simp [isEmptyPhi, isPhi, Line.edges]
  | _ => simp [isEmptyPhi, isPhi]

end WasmLowering.Ssa

namespace WasmLowering.Lowering

open Ssa Draft

/-! ## Settled blocks -/

section Settled

variable {s t : State} {l : Label}

/-- A block that no open construct will branch to. -/
def State.Settled (s : State) (l : Label) : Prop :=
  l ∈ s.draft.labels ∧ ∀ c ∈ s.constructs, l ∉ c.blocks

/-- Going on after a construct adds no branch. -/
theorem branches_left (hd : s.Disciplined) {c : Construct} {rest : List Construct}
    (top : s.constructs = c :: rest) {source target : Label} :
    (s.left c rest).draft.Branches source target ↔ s.draft.Branches source target := by
  have hc : c ∈ s.constructs := by rw [top]; exact List.mem_cons_self
  have hphis := hd.sound.onlyPhis _ (State.exit_mem_waiting hc)
  have hlabels : (s.left c rest).draft.labels = s.draft.labels := by simp [State.left]
  unfold Branches
  rw [hlabels]
  refine and_congr_right fun hs => ?_
  rw [code_left hd top hs]
  split
  · next heq =>
    -- Neither the phis nor what is left of them go anywhere.
    have hfilter : Unended ((s.draft.code source).filter (!·.isEmptyPhi)) := by
      intro line hl
      rw [heq] at hl
      exact hphis.unended line (List.mem_filter.1 hl).1
    rw [hfilter.targets, heq, hphis.unended.targets]
  · exact Iff.rfl

/-- The second arm of a conditional has fewer blocks to branch to. -/
theorem Construct.blocks_elseArm (c : Construct) :
    ({ c with kind := .elseArm } : Construct).blocks ⊆ c.blocks := by
  intro l hl
  rw [List.mem_singleton.1 hl]
  exact c.exit_mem_blocks

/-- A settled block stays settled, keeps its phis and gains no branch. -/
theorem Move.settled (hm : Move s t) (hd : s.Disciplined) (hl : s.Settled l) :
    t.Settled l ∧ (∀ source, t.draft.Branches source l ↔ s.draft.Branches source l) ∧
      t.draft.joined l = s.draft.joined l := by
  obtain ⟨hmem, hout⟩ := hl
  obtain ⟨hadds, hcons⟩ | ⟨depth, c, rest, other, params, -, top, -, -, rfl⟩ |
    ⟨depth, c, rest, -, top, -, -, rfl⟩ := hm.shape hd
  -- What an added line branches to is new, or belongs to an open construct.
  · refine ⟨⟨hadds.labels hmem, ?_⟩, fun source => ⟨fun h => ?_, hadds.branches_mono⟩,
      hadds.joined hmem⟩
    · obtain hcons | ⟨c, hopen⟩ := hcons
      · rw [hcons]
        exact hout
      · rw [hopen.constructs]
        intro c' hc'
        obtain rfl | hc' := List.mem_cons.1 hc'
        · exact fun h => hopen.blocks l h hmem
        · exact hout c' hc'
    · obtain h | ⟨-, hnew | ⟨c, hc, hl⟩⟩ := hadds.branches source l h
      · exact h
      · exact absurd hmem hnew
      · exact absurd hl (hout c hc)
  · refine ⟨⟨hmem, fun c' hc' => ?_⟩, fun source => Iff.rfl, rfl⟩
    obtain rfl | hc' := List.mem_cons.1 hc'
    · exact fun h => hout c (by simp [top]) (c.blocks_elseArm h)
    · exact hout c' (by simp [top, hc'])
  -- Only the exit of the construct that is left loses phis.
  · have hne : l ≠ c.exit := fun h => hout c (by simp [top]) (h ▸ c.exit_mem_blocks)
    refine ⟨⟨by simpa [State.left] using hmem, fun c' hc' => ?_⟩, fun source => ?_, ?_⟩
    · exact hout c' (by rw [top]; exact List.mem_cons_of_mem _ hc')
    · exact branches_left hd top
    · rw [joined, code_left hd top hmem, if_neg hne]
      rfl

/-- No block is lost. -/
theorem Moves.labels (hm : Moves s t) (hd : s.Disciplined) : s.draft.labels ⊆ t.draft.labels := by
  induction hm with
  | refl => exact fun _ h => h
  | tail hms hm ih =>
    refine fun l hl => ?_
    obtain ⟨hadds, -⟩ | ⟨depth, c, rest, other, params, -, -, -, -, rfl⟩ |
      ⟨depth, c, rest, -, -, -, -, rfl⟩ := hm.shape (Moves.disciplined hms hd)
    · exact hadds.labels (ih hl)
    · exact ih hl
    · simpa [State.left] using ih hl

/-- Along a sequence of moves, a settled block gains no branch and keeps its phis. -/
theorem Moves.settled (hm : Moves s t) (hd : s.Disciplined) (hl : s.Settled l) :
    t.Settled l ∧ (∀ source, t.draft.Branches source l ↔ s.draft.Branches source l) ∧
      t.draft.joined l = s.draft.joined l := by
  induction hm with
  | refl => exact ⟨hl, fun _ => Iff.rfl, rfl⟩
  | tail hms hm ih =>
    obtain ⟨hl', hb, hj⟩ := ih
    obtain ⟨hl'', hb', hj'⟩ := hm.settled (Moves.disciplined hms hd) hl'
    exact ⟨hl'', fun source => (hb' source).trans (hb source), hj'.trans hj⟩

/-- The end block of a construct is settled after its end. -/
private theorem settled_left (hd : s.Disciplined) {c : Construct} {rest : List Construct}
    (top : s.constructs = c :: rest) : (s.left c rest).Settled c.exit := by
  have hc : c ∈ s.constructs := by rw [top]; exact List.mem_cons_self
  exact ⟨by simpa [State.left] using hd.mem_labels hc c.exit_mem_blocks,
    fun c' hc' => hd.exit_not_mem top hc'⟩

end Settled

/-! ## Results of a construct -/

section Results

variable {s : State} {c : Construct}

/-- The phis of an end block have no edges if and only if no branch leads there. -/
private theorem isEmptyPhi_exit (hd : s.Disciplined) (hc : c ∈ s.constructs) {line : Line}
    (hl : line ∈ s.draft.code c.exit) :
    line.isEmptyPhi = true ↔ ∀ source, ¬ s.draft.Branches source c.exit := by
  have hw := State.exit_mem_waiting hc
  have hphi := hd.sound.onlyPhis _ hw line hl
  obtain ⟨-, hiff⟩ := hd.sound.edges _ (hd.sound.waiting_mem _ hw) line hl hphi
  rw [Line.isEmptyPhi_iff]
  -- The edges of a phi are the branches to its block, so there are none of both or some of both.
  constructor
  · intro ⟨_, hnil⟩ source hb
    have := (hiff source).2 hb
    rw [hnil] at this
    cases this
  · intro hno
    refine ⟨hphi, List.eq_nil_iff_forall_not_mem.2 fun edge he => hno edge.2 ?_⟩
    exact (hiff edge.2).1 (List.mem_map_of_mem he)

/-- What a construct leaves on the stack, where all its phis are without edges or none. -/
theorem resultsAfter_eq (hd : s.Disciplined) (hc : c ∈ s.constructs) {empty : Bool}
    (h : ∀ line ∈ s.draft.code c.exit, line.isEmptyPhi = empty) :
    s.resultsAfter c = c.results.map fun phi => if empty then phi.type.zero else phi := by
  unfold State.resultsAfter
  apply List.ext_getElem?
  intro i
  rw [List.getElem?_mapIdx, List.getElem?_map]
  cases hphi : c.results[i]? with
  | none => rfl
  | some phi =>
    -- The end block has a line for each result.
    have hi : i < (s.draft.code c.exit).length := by
      rw [hd.length_exit hc]
      exact (List.getElem?_eq_some_iff.1 hphi).1
    have hline : (s.draft.lines c.exit)[i]? = some (s.draft.code c.exit)[i] := by
      rw [← Array.getElem?_toList]
      exact List.getElem?_eq_getElem hi
    simp only [hline, Option.map_some, h _ (List.getElem_mem hi)]

/-- With a branch to the end of a construct its results are its phis, and all of them stay. -/
theorem results_of_branch (hd : s.Disciplined) (hc : c ∈ s.constructs) {source : Label}
    (hb : s.draft.Branches source c.exit) :
    s.resultsAfter c = c.results ∧
      (s.draft.code c.exit).filter (!·.isEmptyPhi) = s.draft.code c.exit := by
  have hfull : ∀ line ∈ s.draft.code c.exit, line.isEmptyPhi = false := by
    intro line hl
    by_contra h
    exact (isEmptyPhi_exit hd hc hl).1 (by simpa using h) source hb
  constructor
  · rw [resultsAfter_eq hd hc hfull]
    simp
  · exact List.filter_eq_self.2 fun line hl => by simp [hfull line hl]

/-- Without a branch to the end of a construct its results are zeros, and no phi stays. -/
theorem results_of_no_branch (hd : s.Disciplined) (hc : c ∈ s.constructs)
    (hno : ∀ source, ¬ s.draft.Branches source c.exit) :
    s.resultsAfter c = c.results.map (·.type.zero) ∧
      (s.draft.code c.exit).filter (!·.isEmptyPhi) = [] := by
  have hempty : ∀ line ∈ s.draft.code c.exit, line.isEmptyPhi = true :=
    fun line hl => (isEmptyPhi_exit hd hc hl).2 hno
  constructor
  · rw [resultsAfter_eq hd hc hempty]
    simp
  · exact List.filter_eq_nil_iff.2 fun line hl => by simp [hempty line hl]

end Results

/-! ## Code that cannot be reached -/

section Confined

variable {s t : State} {blocks : Set Label} {outer : List Construct}

/-- A set of blocks that only its members branch to. -/
def Closed (d : Draft) (blocks : Set Label) : Prop :=
  entryLabel ∉ blocks ∧ ∀ source target, d.Branches source target → target ∈ blocks →
    source ∈ blocks

/-- A state that writes blocks of a closed set only, as long as the constructs `outer` are open: the
    insertion block, the blocks of the constructs inside them and all new blocks are members. -/
structure Confined (blocks : Set Label) (outer : List Construct) (s : State) : Prop where
  closed : Closed s.draft blocks
  current : s.draft.current ∈ blocks
  new : ∀ l, l ∉ s.draft.labels → l ∈ blocks
  inner : ∃ inner, s.constructs = inner ++ outer ∧ ∀ c ∈ inner, ∀ l ∈ c.blocks, l ∈ blocks
  outer : ∀ c ∈ outer, ∀ l ∈ c.blocks, l ∉ blocks

/-- A closed set of blocks that no open construct will branch to. -/
structure Apart (blocks : Set Label) (s : State) : Prop where
  closed : Closed s.draft blocks
  mem : ∀ l ∈ blocks, l ∈ s.draft.labels
  constructs : ∀ c ∈ s.constructs, ∀ l ∈ c.blocks, l ∉ blocks

/-- A construct that has been left, or of which the second arm has begun. -/
def Gone (c : Construct) (s : State) : Prop :=
  c.exit ∈ s.draft.labels ∧
    ∀ c' ∈ s.constructs, c'.exit = c.exit → c'.kind = .elseArm ∧ c.kind ≠ .elseArm

/-- A set of blocks that no open construct will branch to stays closed. -/
theorem Move.apart (hm : Move s t) (hd : s.Disciplined) (ha : Apart blocks s) : Apart blocks t := by
  obtain ⟨⟨hentry, hclosed⟩, hmem, hout⟩ := ha
  obtain ⟨hadds, hcons⟩ | ⟨depth, c, rest, other, params, -, top, -, -, rfl⟩ |
    ⟨depth, c, rest, -, top, -, -, rfl⟩ := hm.shape hd
  · refine ⟨⟨hentry, fun source target hb ht => ?_⟩, fun l hl => hadds.labels (hmem l hl), ?_⟩
    -- A new branch goes to a new block or to one of an open construct, and so not into the set.
    · obtain hb | ⟨-, hnew | ⟨c, hc, hl⟩⟩ := hadds.branches source target hb
      · exact hclosed source target hb ht
      · exact absurd (hmem target ht) hnew
      · exact absurd ht (hout c hc target hl)
    · obtain hcons | ⟨c, hopen⟩ := hcons
      · rw [hcons]
        exact hout
      · rw [hopen.constructs]
        intro c' hc' l hl
        obtain rfl | hc' := List.mem_cons.1 hc'
        · exact fun h => hopen.blocks l hl (hmem l h)
        · exact hout c' hc' l hl
  · refine ⟨⟨hentry, hclosed⟩, hmem, fun c' hc' l hl => ?_⟩
    obtain rfl | hc' := List.mem_cons.1 hc'
    · exact hout c (by simp [top]) l (c.blocks_elseArm hl)
    · exact hout c' (by simp [top, hc']) l hl
  · refine ⟨⟨hentry, fun source target hb => hclosed source target ((branches_left hd top).1 hb)⟩,
      fun l hl => by simpa [State.left] using hmem l hl, fun c' hc' => ?_⟩
    exact hout c' (by rw [top]; exact List.mem_cons_of_mem _ hc')

/-- A construct that is gone does not come back. -/
theorem Move.gone {c : Construct} (hm : Move s t) (hd : s.Disciplined) (hg : Gone c s) :
    Gone c t := by
  obtain ⟨hmem, hgone⟩ := hg
  obtain ⟨hadds, hcons⟩ | ⟨depth, c₀, rest, other, params, -, top, hk, -, rfl⟩ |
    ⟨depth, c₀, rest, -, top, -, -, rfl⟩ := hm.shape hd
  · refine ⟨hadds.labels hmem, ?_⟩
    obtain hcons | ⟨c', hopen⟩ := hcons
    · rw [hcons]
      exact hgone
    · rw [hopen.constructs]
      intro c'' hc'' heq
      -- A construct that is opened has a new end block, so it is another one.
      obtain rfl | hc'' := List.mem_cons.1 hc''
      · exact absurd (heq ▸ hmem) (hopen.blocks _ c''.exit_mem_blocks)
      · exact hgone c'' hc'' heq
  · refine ⟨hmem, fun c' hc' heq => ?_⟩
    obtain rfl | hc' := List.mem_cons.1 hc'
    · have := (hgone c₀ (by simp [top]) heq).1
      rw [hk] at this
      cases this
    · exact hgone c' (by simp [top, hc']) heq
  · refine ⟨by simpa [State.left] using hmem, fun c' hc' => hgone c' ?_⟩
    rw [top]
    exact List.mem_cons_of_mem _ hc'

/-- Leaving the innermost of the constructs `outer`, or its first arm, ends the confinement. -/
theorem Confined.apart (hd : s.Disciplined) {c : Construct} {rest : List Construct}
    (hc : Confined blocks (c :: rest) s) (htop : s.constructs = c :: rest)
    (hlabels : t.draft.labels = s.draft.labels)
    (hbranches : ∀ source target, t.draft.Branches source target ↔ s.draft.Branches source target)
    (hcons : ∀ c' ∈ t.constructs, c' ∈ rest ∨
      c' = { c with kind := .elseArm } ∧ ∃ other params, c.kind = .thenArm other params) :
    Apart { l | l ∈ blocks ∧ l ∈ s.draft.labels } t ∧ Gone c t := by
  constructor
  · refine ⟨⟨fun h => hc.closed.1 h.1, fun source target hb ht => ?_⟩,
      fun l hl => hlabels ▸ hl.2, fun c' hc' l hl h => ?_⟩
    · rw [hbranches] at hb
      exact ⟨hc.closed.2 source target hb ht.1, hb.1⟩
    -- The blocks of the constructs outside are not in the set, with or without the first arm.
    · obtain hc' | ⟨rfl, -⟩ := hcons c' hc'
      · exact hc.outer c' (List.mem_cons_of_mem _ hc') l hl h.1
      · exact hc.outer c List.mem_cons_self l (c.blocks_elseArm hl) h.1
  · refine ⟨?_, fun c' hc' heq => ?_⟩
    · rw [hlabels]
      exact hd.mem_labels (by rw [htop]; exact List.mem_cons_self) c.exit_mem_blocks
    · obtain hc' | ⟨rfl, other, params, hk⟩ := hcons c' hc'
      · exact absurd (heq ▸ c'.exit_mem_blocks) (hd.exit_not_mem htop hc')
      · exact ⟨rfl, by rw [hk]; nofun⟩

/-- A move of a confined state stays confined, or leaves the innermost of the constructs `outer` or
    its first arm. -/
theorem Move.confined (hm : Move s t) (hd : s.Disciplined) (hc : Confined blocks outer s) :
    Confined blocks outer t ∨
      ∃ c rest, outer = c :: rest ∧ Apart { l | l ∈ blocks ∧ l ∈ s.draft.labels } t ∧ Gone c t := by
  obtain ⟨inner, hinner, hblocks⟩ := hc.inner
  obtain ⟨hadds, hcons⟩ | ⟨depth, c, rest, other, params, -, top, hk, -, rfl⟩ |
    ⟨depth, c, rest, -, top, -, -, rfl⟩ := hm.shape hd
  -- What is added starts from the current block or from a new one, so it stays inside.
  · refine .inl ⟨⟨hc.closed.1, fun source target hb ht => ?_⟩, ?_,
      fun l hl => hc.new l fun h => hl (hadds.labels h), ?_, hc.outer⟩
    · obtain hb | ⟨hs | hs, -⟩ := hadds.branches source target hb
      · exact hc.closed.2 source target hb ht
      · exact hs ▸ hc.current
      · exact hc.new source hs
    · obtain h | h := hadds.current
      · exact h ▸ hc.current
      · exact hc.new _ h
    · obtain hcons | ⟨c, hopen⟩ := hcons
      · exact ⟨inner, hcons.trans hinner, hblocks⟩
      · refine ⟨c :: inner, by rw [hopen.constructs, hinner]; rfl, fun c' hc' l hl => ?_⟩
        obtain rfl | hc' := List.mem_cons.1 hc'
        · exact hc.new l (hopen.blocks l hl)
        · exact hblocks c' hc' l hl
  -- The other arm is one of a construct inside, or of the innermost one outside.
  · cases inner with
    | nil =>
      obtain rfl : outer = c :: rest := by rw [← top, hinner]; rfl
      refine .inr ⟨c, rest, rfl, hc.apart hd top rfl (fun _ _ => Iff.rfl) fun c' hc' => ?_⟩
      obtain rfl | hc' := List.mem_cons.1 hc'
      · exact .inr ⟨rfl, other, params, hk⟩
      · exact .inl hc'
    | cons c₁ inner =>
      obtain ⟨rfl, rfl⟩ : c = c₁ ∧ rest = inner ++ outer := by
        rw [top, List.cons_append, List.cons.injEq] at hinner
        exact hinner
      have hother : other ∈ c.blocks := by simp [Construct.blocks, hk]
      refine .inl ⟨hc.closed, hblocks c List.mem_cons_self other hother, hc.new,
        ⟨{ c with kind := .elseArm } :: inner, rfl, fun c' hc' l hl => ?_⟩, hc.outer⟩
      obtain rfl | hc' := List.mem_cons.1 hc'
      · exact hblocks c List.mem_cons_self l (c.blocks_elseArm hl)
      · exact hblocks c' (List.mem_cons_of_mem _ hc') l hl
  -- The construct that is left is one inside or, again, the innermost one outside.
  · have hlabels : (s.left c rest).draft.labels = s.draft.labels := by simp [State.left]
    cases inner with
    | nil =>
      obtain rfl : outer = c :: rest := by rw [← top, hinner]; rfl
      exact .inr ⟨c, rest, rfl, hc.apart hd top hlabels (fun _ _ => branches_left hd top)
        fun c' hc' => .inl hc'⟩
    | cons c₁ inner =>
      obtain ⟨rfl, rfl⟩ : c = c₁ ∧ rest = inner ++ outer := by
        rw [top, List.cons_append, List.cons.injEq] at hinner
        exact hinner
      refine .inl ⟨⟨hc.closed.1, fun source target hb => ?_⟩, ?_, ?_, ?_, hc.outer⟩
      · exact hc.closed.2 source target ((branches_left hd top).1 hb)
      · exact hblocks c List.mem_cons_self _ c.exit_mem_blocks
      · exact fun l hl => hc.new l (hlabels ▸ hl)
      · exact ⟨inner, rfl, fun c' hc' => hblocks c' (List.mem_cons_of_mem _ hc')⟩

/-- What follows a confined state: the blocks it has written stay closed, and they are all that is
    written until the innermost of the constructs `outer` or its first arm is left. -/
theorem Moves.confined (hm : Moves s t) (hd : s.Disciplined) (hc : Confined blocks outer s) :
    Confined blocks outer t ∨
      ∃ c rest closed, outer = c :: rest ∧ (∀ l ∈ blocks, l ∈ s.draft.labels → l ∈ closed) ∧
        Apart closed t ∧ Gone c t := by
  induction hm with
  | refl => exact .inl hc
  | tail hms hm ih =>
    have hd' := Moves.disciplined hms hd
    -- Once the construct is left, later moves keep apart what it closed.
    obtain hc' | ⟨c, rest, closed, rfl, hsub, ha, hg⟩ := ih
    · obtain hc' | ⟨c, rest, rfl, ha, hg⟩ := hm.confined hd' hc'
      · exact .inl hc'
      · refine .inr ⟨c, rest, _, rfl, ?_, ha, hg⟩
        exact fun l hl hmem => ⟨hl, Moves.labels hms hd hmem⟩
    · exact .inr ⟨c, rest, closed, rfl, hsub, hm.apart hd' ha, hm.gone hd' hg⟩

/-- After a construct to whose end no branch leads, the lowering is confined to the end block and to
    blocks that are new. -/
theorem confined_left (hd : s.Disciplined) {c : Construct} {rest : List Construct}
    (ht : (s.left c rest).Disciplined) (top : s.constructs = c :: rest)
    (hno : ∀ source, ¬ s.draft.Branches source c.exit) :
    Confined { l | l ∉ s.draft.labels ∨ l = c.exit } rest (s.left c rest) := by
  have hlabels : (s.left c rest).draft.labels = s.draft.labels := by simp [State.left]
  have hc : c ∈ s.constructs := by rw [top]; exact List.mem_cons_self
  constructor
  case closed =>
    refine ⟨?_, fun source target hb htarget => ?_⟩
    -- The set has the end block and what does not exist, and nothing branches to either.
    · intro h
      obtain h | h := h
      · exact h hd.sound.entry_mem
      · exact hd.sound.entry_ne (State.exit_mem_waiting hc) h.symm
    · rw [branches_left hd top] at hb
      obtain h | rfl := htarget
      · exact absurd (hd.sound.targets _ _ hb) h
      · exact absurd hb (hno source)
  case current => exact .inr rfl
  case new => exact fun l hl => .inl (hlabels ▸ hl)
  case inner => exact ⟨[], rfl, fun c' hc' => absurd hc' List.not_mem_nil⟩
  case outer =>
    intro c' hc' l hl h
    obtain h | rfl := h
    · exact h (hlabels ▸ ht.mem_labels hc' hl)
    · exact hd.exit_not_mem top hc' hl

/-- While the constructs `outer` stay open, a confined state is confined after every operator. -/
theorem Confined.steps {ops : List Operator} (hd : s.Disciplined) (hf : s.Framed)
    (hc : Confined blocks outer s) (h : s.steps ops = .ok t)
    (hopen : ∀ mid u, mid <+: ops → s.steps mid = .ok u → outer <:+ u.constructs) :
    Confined blocks outer t := by
  induction ops generalizing s with
  | nil =>
    obtain rfl := Except.ok.inj h
    exact hc
  | cons op ops ih =>
    obtain ⟨u, hu, h⟩ := steps_cons.1 h
    have hm := step_moves hf hu
    refine ih (Moves.disciplined hm hd) (Moves.framed hm hf) ?_ h fun mid v hmid hv => ?_
    · have hsuffix := hopen [op] u ⟨ops, rfl⟩ (steps_cons.2 ⟨u, hu, rfl⟩)
      obtain hc' | ⟨c, rest, closed, rfl, -, -, hg⟩ := Moves.confined hm hd hc
      · exact hc'
      · -- A construct that is gone is not open any more.
        obtain ⟨hk, hne⟩ := hg.2 c (hsuffix.subset List.mem_cons_self) rfl
        exact absurd hk hne
    · exact hopen (op :: mid) v (List.prefix_cons_inj op |>.2 hmid) (steps_cons.2 ⟨u, hu, hv⟩)

end Confined

/-! ## Functions -/

section Functions

variable {types : Array FuncType} {index : Nat} {func : UInt32} {type : FuncType}
  {intrinsics table : IntrinsicTable} {input : Bytes} {f : Ssa.Function}

/-- The end of a construct in a live state or at the outermost level of dead code. -/
theorem endBlock_of_step {s t : State} (hphase : s.phase = .live ∨ s.phase = .dead 0)
    (h : s.step .endBlock = .ok t) : s.endBlock s.phase.isLive = .ok t := by
  unfold State.step at h
  obtain hp | hp := hphase
  · rw [hp] at h ⊢
    exact h
  · rw [hp] at h ⊢
    exact h

/-- The constructs `outer` stay open after the operators `done`, through the operators `more`. -/
def StaysOpen (types : Array FuncType) (type : FuncType) (intrinsics : IntrinsicTable)
    (input : Bytes) (outer : List Construct) (done more : List Operator) : Prop :=
  ∀ mid s, mid <+: more → Boundary types type intrinsics input (done ++ mid) s →
    outer <:+ s.constructs

/-- A state confined to blocks that only they branch to writes code that is never executed. -/
theorem not_reachable_of_confined {s last : State} {blocks : Set Label} {outer : List Construct}
    (hd : s.Disciplined) (hc : Confined blocks outer s) (hm : Moves s last)
    (hf : f.blocks = last.draft.finish) {label : Label} (hblock : label ∈ blocks)
    (hlabel : label ∈ s.draft.labels) : ¬ f.Reachable label := by
  have hlast := Moves.disciplined hm hd
  -- A set that only its members branch to and that leaves out the entry block cannot be entered.
  have hnot : ∀ closed : Set Label, Closed last.draft closed → label ∈ closed →
      ¬ f.Reachable label := by
    intro closed hclosed hmem
    refine Function.not_reachable hclosed.1 (fun source target hedge => ?_) hmem
    exact hclosed.2 source target ((edge_iff hlast.sound hf).1 hedge)
  obtain hc' | ⟨c, rest, closed, -, hsub, ha, -⟩ := Moves.confined hm hd hc
  · exact hnot blocks hc'.closed hblock
  · exact hnot closed ha.closed (hsub _ hblock hlabel)

/-- The innermost construct of a boundary is the innermost one that the operators leave open. -/
theorem Boundary.declares {done : List Operator} {s : State} {c : Construct}
    {rest : List Construct} (hs : Boundary types type intrinsics input done s)
    (hphase : s.phase = .live ∨ s.phase = .dead 0) (htop : s.constructs = c :: rest) :
    ∃ declared, (openResults done).head? = some declared ∧ Declares c declared := by
  have hnests : List.Forall₂ Declares (c :: rest) (openResults done) := by
    rw [← htop]
    exact hphase.elim (fun hp => hs.nests.live hp) (fun hp => hs.nests.dead hp)
  -- The boundary has an open construct, so the operators leave one open.
  cases hopen : openResults done with
  | nil =>
    rw [hopen] at hnests
    cases hnests
  | cons declared more =>
    rw [hopen] at hnests
    cases hnests with
    | cons hc _ => exact ⟨declared, rfl, hc⟩

/-- The boundary after the end of a construct, from the state `u` in which the end block is about to
    be placed. -/
theorem Boundary.atEnd {done : List Operator} {s t : State} {c : Construct} {rest : List Construct}
    (hs : Boundary types type intrinsics input done s)
    (ht : Boundary types type intrinsics input (done ++ [.endBlock]) t)
    (hphase : s.phase = .live ∨ s.phase = .dead 0) (htop : s.constructs = c :: rest) :
    ∃ (u : State) (c' : Construct), u.Disciplined ∧ u.constructs = c' :: rest ∧
      c'.exit = c.exit ∧ c'.results = c.results ∧ t = u.left c' rest ∧
      t.stack = s.stack.take c.base ++ u.resultsAfter c' := by
  obtain ⟨u, depth, kind, hm, -, hcons, -, -, htake, hleft⟩ :=
    endBlock_left (fun hl => hphase.resolve_right fun hp => by rw [hp] at hl; cases hl)
      (fun hl => ⟨0, hphase.resolve_left fun hp => by rw [hp] at hl; cases hl⟩) htop
      (endBlock_of_step hphase (hs.step ht))
  refine ⟨u, { c with kind }, Moves.disciplined hm hs.disciplined, hcons, rfl, rfl, hleft, ?_⟩
  rw [hleft, ← htake]
  rfl

/-- What leads to the end block of a construct in the function leads there when it is placed, and
    the phis it has then stay. -/
private theorem edges_left {done : List Operator} {u : State} {c : Construct}
    {rest : List Construct}
    (h : lowerFunction types index func type intrinsics input = .ok (f, table))
    (hu : u.Disciplined) (hcons : u.constructs = c :: rest)
    (ht : Boundary types type intrinsics input done (u.left c rest)) :
    (∀ source, f.Edge source c.exit ↔ u.draft.Branches source c.exit) ∧
      f.HasPhis c.exit
        (((u.draft.code c.exit).filter (!·.isEmptyPhi)).filterMap Line.phiValue) := by
  have hmem : c ∈ u.constructs := by rw [hcons]; exact List.mem_cons_self
  have hexit := settled_left hu hcons
  obtain ⟨rest', last, hlast, hsteps, hf⟩ := Boundary.last h ht
  have hm := steps_moves ht.moves.2 hsteps
  -- Later operators add no branch to the end block, and keep its phis.
  obtain ⟨hset, hbranch, hjoined⟩ := Moves.settled hm ht.disciplined hexit
  constructor
  · intro source
    rw [edge_iff hlast.disciplined.sound hf, hbranch]
    exact branches_left hu hcons
  · have hphis := hasPhis_of_joined hlast.disciplined.sound.numbered hf hset.1
    rw [hjoined, joined, code_left hu hcons (hu.mem_labels hmem c.exit_mem_blocks),
      if_pos rfl] at hphis
    exact hphis

/-- After a construct to whose end no branch leads, nothing that is written can be reached as long
    as the constructs around it stay open. -/
private theorem not_reachable_after {done more : List Operator} {u v : State} {c : Construct}
    {rest : List Construct}
    (h : lowerFunction types index func type intrinsics input = .ok (f, table))
    (hu : u.Disciplined) (hcons : u.constructs = c :: rest)
    (hno : ∀ source, ¬ u.draft.Branches source c.exit)
    (ht : Boundary types type intrinsics input done (u.left c rest))
    (hv : Boundary types type intrinsics input (done ++ more) v)
    (hopen : StaysOpen types type intrinsics input rest done more) :
    ¬ f.Reachable v.draft.current := by
  have hconf := confined_left hu ht.disciplined hcons hno
  have hconf' := hconf.steps ht.disciplined ht.moves.2 (ht.steps hv) fun mid w hmid hw => by
    refine hopen mid w hmid ?_
    -- The boundaries in between are those of the run from the end of the construct to here.
    obtain ⟨body, start, hbody, hstart, -, hst⟩ := ht
    obtain ⟨body', -, hbody', -, hpre, -⟩ := hv
    obtain rfl := Except.ok.inj (hbody.symm.trans hbody')
    refine ⟨body, start, hbody, hstart, ?_, steps_append.2 ⟨_, hst, hw⟩⟩
    exact ((List.prefix_append_right_inj _).2 hmid).trans hpre
  obtain ⟨rest', last, -, hsteps, hf⟩ := Boundary.last h hv
  exact not_reachable_of_confined hv.disciplined hconf' (steps_moves hv.moves.2 hsteps) hf
    hconf'.current hv.disciplined.sound.current_mem

/-- In a lowered function, phis stand first in their blocks, and the edges of each come from the
    blocks that branch there, one from each. At the end of a construct with given declared results,
    the phis of its end block are pushed, one for each declared result and of its native type, if
    some block branches to that end block. Otherwise zeros of these types are pushed, and the end
    block has no phi; then no execution reaches a block that is written before the enclosing
    construct, or its first arm, comes to an end. -/
theorem phis_match_predecessors
    (h : lowerFunction types index func type intrinsics input = .ok (f, table)) :
    f.PhisMatch ∧
      ∀ done s t c rest, Boundary types type intrinsics input done s →
        Boundary types type intrinsics input (done ++ [.endBlock]) t →
        s.phase = .live ∨ s.phase = .dead 0 → s.constructs = c :: rest →
        (∃ declared, (openResults done).head? = some declared ∧
          declared.mapM (ValueType.scalar hostPointerBits) = .ok (c.results.map Operand.type)) ∧
        ((∃ source, f.Edge source c.exit) →
          t.stack = s.stack.take c.base ++ c.results ∧ f.HasPhis c.exit c.results) ∧
        ((¬ ∃ source, f.Edge source c.exit) →
          t.stack = s.stack.take c.base ++ c.results.map (·.type.zero) ∧ f.HasPhis c.exit [] ∧
          ∀ more u, Boundary types type intrinsics input (done ++ [.endBlock] ++ more) u →
            StaysOpen types type intrinsics input rest (done ++ [.endBlock]) more →
            ¬ f.Reachable u.draft.current) := by
  constructor
  · obtain ⟨signature, body, start, last, -, hbody, hstart, hlast, -, rfl, -⟩ :=
      lowerFunction_eq_ok.1 h
    have hb := Boundary.of_steps hbody hstart hlast
    exact hb.disciplined.sound.phisMatch rfl
  · intro done s t c rest hs ht hphase htop
    obtain ⟨u, c', hu, hcons, hexit, hresults, rfl, hstack⟩ := hs.atEnd ht hphase htop
    have hmem : c' ∈ u.constructs := by rw [hcons]; exact List.mem_cons_self
    obtain ⟨hedge, hphis⟩ := edges_left h hu hcons ht
    rw [← hexit, ← hresults, hstack]
    refine ⟨hresults ▸ hs.declares hphase htop, fun ⟨source, hs'⟩ => ?_, fun hno => ?_⟩
    -- Some block branches to the exit: its phis stay, and their values are pushed.
    · obtain ⟨hres, hfilter⟩ := results_of_branch hu hmem ((hedge source).1 hs')
      rw [hfilter] at hphis
      have hexits := hu.exits c' hmem
      rw [joined] at hexits
      exact ⟨by rw [hres], hexits ▸ hphis⟩
    -- No block does: the phis are removed, and zeros are pushed in their place.
    · have hno' : ∀ source, ¬ u.draft.Branches source c'.exit :=
        fun source hb => hno ⟨source, (hedge source).2 hb⟩
      obtain ⟨hres, hfilter⟩ := results_of_no_branch hu hmem hno'
      rw [hfilter] at hphis
      exact ⟨by rw [hres], hphis, fun more v hv hopen =>
        not_reachable_after h hu hcons hno' ht hv hopen⟩

/-- The body `block (result i32) unreachable end drop end`: no block branches to the end of its
    block, so a zero is pushed there, in code that cannot be reached. -/
theorem phis_match_predecessors_unreachable :
    ∃ f table s t c,
      lowerFunction #[] 0 0 {} {} [0x00, 0x02, 0x7F, 0x00, 0x0B, 0x1A, 0x0B] = .ok (f, table) ∧
      Boundary #[] {} {} [0x00, 0x02, 0x7F, 0x00, 0x0B, 0x1A, 0x0B]
        [.block { results := [.i32] }, .unreachable] s ∧
      Boundary #[] {} {} [0x00, 0x02, 0x7F, 0x00, 0x0B, 0x1A, 0x0B]
        [.block { results := [.i32] }, .unreachable, .endBlock] t ∧
      s.phase = .dead 0 ∧ s.constructs = [c] ∧ f.PhisMatch ∧ (¬ ∃ source, f.Edge source c.exit) ∧
      t.stack = #[.int 32 0] ∧ ¬ f.Reachable t.draft.current := by
  have hok : (lowerFunction #[] 0 0 {} {}
      [0x00, 0x02, 0x7F, 0x00, 0x0B, 0x1A, 0x0B]).toOption.isSome = true := by decide +kernel
  obtain ⟨⟨f, table⟩, h⟩ := exists_ok_of_isSome hok
  have hbody : Body.read #[] [] [0x00, 0x02, 0x7F, 0x00, 0x0B, 0x1A, 0x0B] =
      .ok ⟨[], [(0x02, .block { results := [.i32] }), (0x00, .unreachable), (0x0B, .endBlock),
        (0x1A, .drop), (0x0B, .endBlock)], none⟩ := by decide +kernel
  have hstart : State.start {} [] {} = .ok (State.initial {} {}) := rfl
  obtain ⟨s, c, hs, hphase, htop, hresults⟩ : ∃ s c, (State.initial {} {}).steps
      [.block { results := [.i32] }, .unreachable] = .ok s ∧ s.phase = .dead 0 ∧
      s.constructs = [c] ∧ c.results = [.result 0 (.int 32)] := ⟨_, _, rfl, rfl, rfl, rfl⟩
  obtain ⟨t, ht, hstack⟩ : ∃ t, (State.initial {} {}).steps
      [.block { results := [.i32] }, .unreachable, .endBlock] = .ok t ∧ t.stack = #[.int 32 0] :=
    ⟨_, rfl, rfl⟩
  have hbs : Boundary #[] {} {} [0x00, 0x02, 0x7F, 0x00, 0x0B, 0x1A, 0x0B]
      [.block { results := [.i32] }, .unreachable] s :=
    ⟨_, _, hbody, hstart, by simp [List.cons_prefix_cons], hs⟩
  have hbt : Boundary #[] {} {} [0x00, 0x02, 0x7F, 0x00, 0x0B, 0x1A, 0x0B]
      [.block { results := [.i32] }, .unreachable, .endBlock] t :=
    ⟨_, _, hbody, hstart, by simp [List.cons_prefix_cons], ht⟩
  obtain ⟨hphis, hends⟩ := phis_match_predecessors h
  obtain ⟨-, hedge, hno⟩ := hends _ s t c [] hbs hbt (.inr hphase) htop
  -- What is on the stack is a constant and no phi, so no edge leads to the end block.
  have hnone : ¬ ∃ source, f.Edge source c.exit := by
    intro hsource
    have hpushed := (hedge hsource).1
    rw [hstack, hresults] at hpushed
    have hlast := congrArg (fun xs : Array Operand => xs.toList.getLast?) hpushed
    simp at hlast
  obtain ⟨-, -, hunreached⟩ := hno hnone
  refine ⟨f, table, s, t, c, h, hbs, hbt, hphase, htop, hphis, hnone, hstack, ?_⟩
  exact hunreached [] t hbt fun mid u _ _ => List.nil_suffix

end Functions

end WasmLowering.Lowering
