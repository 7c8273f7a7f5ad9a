import WasmLowering.Proofs.DraftCode

/-!
# Block discipline of drafts

A block is waiting from its creation until it is placed. While it waits it holds phis only; then it
is the insertion block until a terminator closes it, and nothing is appended to it afterwards. The
edges of its phis come from the blocks that branch to it, one from each: a branch to a block with
phis adds one edge to every phi, and no other branch goes there.

Each operation on drafts keeps this discipline, under a condition on the operation.

## Key results

- `Draft.Arranged`, `Draft.Sound`: the discipline, for given waiting blocks
- `Draft.Sound.append`, `Draft.Sound.close`, `Draft.Sound.jump`, `Draft.Sound.place`, …: one lemma
  for each operation
-/

namespace WasmLowering.Ssa

/-! ## Lines of a block -/

/-- Lines of which exactly the last one is a terminator. -/
def Ended (lines : List Line) : Prop :=
  ∃ body last, lines = body ++ [last] ∧ last.isTerminator = true ∧
    ∀ line ∈ body, line.isTerminator = false

/-- Lines without a terminator. -/
def Unended (lines : List Line) : Prop :=
  ∀ line ∈ lines, line.isTerminator = false

/-- Lines without a phi. -/
def NoPhis (lines : List Line) : Prop :=
  ∀ line ∈ lines, line.isPhi = false

/-- Phis only. -/
def OnlyPhis (lines : List Line) : Prop :=
  ∀ line ∈ lines, line.isPhi = true

section Lines

variable {lines : List Line} {line : Line}

theorem OnlyPhis.unended (h : OnlyPhis lines) : Unended lines :=
  fun line hl => line.isTerminator_of_isPhi (h line hl)

/-- Among phis only, phis stand first. -/
theorem OnlyPhis.phisFirst (h : OnlyPhis lines) : PhisFirst lines := by
  unfold PhisFirst
  exact List.pairwise_of_forall_mem_list fun a ha b _ _ => h a ha

/-- Where there are no phis, phis stand first. -/
theorem NoPhis.phisFirst (h : NoPhis lines) : PhisFirst lines := by
  unfold PhisFirst
  refine List.pairwise_of_forall_mem_list fun a _ b hb hphi => ?_
  rw [h b hb] at hphi
  cases hphi

/-- Phis still stand first before a new line that is no phi. -/
theorem PhisFirst.concat (h : PhisFirst lines) (hl : line.isPhi = false) :
    PhisFirst (lines ++ [line]) := by
  unfold PhisFirst at h ⊢
  refine List.pairwise_append.2 ⟨h, List.pairwise_singleton .., ?_⟩
  intro a _ b hb hphi
  rw [List.mem_singleton.1 hb, hl] at hphi
  cases hphi

theorem Unended.ended (h : Unended lines) (hl : line.isTerminator = true) :
    Ended (lines ++ [line]) :=
  ⟨lines, line, rfl, hl, h⟩

theorem Unended.targets (h : Unended lines) : lines.flatMap Line.targets = [] :=
  List.flatMap_eq_nil_iff.2 fun line hl => line.targets_eq_nil (h line hl)

/-- Closed lines go where the last one goes. -/
theorem Ended.targets {last : Line} {body : List Line} (h : Unended body) :
    (body ++ [last]).flatMap Line.targets = last.targets := by
  rw [List.flatMap_append, h.targets]
  simp

end Lines

/-! ## Edges of phis -/

section Edges

variable {source : Label} {values : List Operand} {lines : List Line}

@[simp] theorem Line.isPhi_addEdge (line : Line) (value : Operand) (source : Label) :
    (line.addEdge value source).isPhi = line.isPhi := by
  cases line <;> rfl

@[simp] theorem Line.targets_addEdge (line : Line) (value : Operand) (source : Label) :
    (line.addEdge value source).targets = line.targets := by
  cases line <;> rfl

/-- Lines other than phis get no edges. -/
theorem Line.addEdge_of_not_isPhi {line : Line} (h : line.isPhi = false) (value : Operand)
    (source : Label) : line.addEdge value source = line := by
  cases line with
  | phi => cases h
  | _ => rfl

theorem Line.edges_addEdge {line : Line} (h : line.isPhi = true) (value : Operand)
    (source : Label) : (line.addEdge value source).edges = line.edges ++ [(value, source)] := by
  cases line <;> simp_all [Line.isPhi, Line.addEdge, Line.edges]

/-- Adding edges changes lines one by one. -/
theorem map_routeEdges {α : Type} (f : Line → α)
    (hf : ∀ line value, f (line.addEdge value source) = f line) :
    (routeEdges source values lines).map f = lines.map f := by
  induction lines generalizing values with
  | nil => cases values <;> rfl
  | cons line lines ih =>
    cases values with
    | nil => rfl
    | cons value values =>
      simp only [routeEdges, List.map_cons]
      rw [hf, ih]

/-- With a value for each line, each line gets an edge. -/
theorem mem_routeEdges {line : Line} (hlen : lines.length ≤ values.length)
    (h : line ∈ routeEdges source values lines) :
    ∃ old ∈ lines, ∃ value ∈ values, line = old.addEdge value source := by
  induction lines generalizing values with
  | nil => cases values <;> cases h
  | cons first lines ih =>
    cases values with
    | nil => simp at hlen
    | cons value values =>
      simp only [routeEdges, List.mem_cons] at h
      obtain rfl | h := h
      · exact ⟨first, List.mem_cons_self, value, List.mem_cons_self, rfl⟩
      · obtain ⟨old, ho, v, hv, rfl⟩ := ih (by simpa using hlen) h
        exact ⟨old, List.mem_cons_of_mem _ ho, v, List.mem_cons_of_mem _ hv, rfl⟩

/-- A line that is no phi stays when edges are added. -/
theorem mem_routeEdges_of_mem {line : Line} (h : line ∈ lines) (hphi : line.isPhi = false) :
    line ∈ routeEdges source values lines := by
  induction lines generalizing values with
  | nil => cases h
  | cons first lines ih =>
    cases values with
    | nil => exact h
    | cons value values =>
      obtain rfl | h := List.mem_cons.1 h
      · rw [routeEdges, Line.addEdge_of_not_isPhi hphi]
        exact List.mem_cons_self
      · exact List.mem_cons_of_mem _ (ih h)

/-- Whatever is new among lines that got edges is a phi. -/
theorem mem_or_isPhi_of_mem_routeEdges {line : Line}
    (h : line ∈ routeEdges source values lines) : line ∈ lines ∨ line.isPhi = true := by
  induction lines generalizing values with
  | nil => cases values <;> cases h
  | cons first lines ih =>
    cases values with
    | nil => exact .inl h
    | cons value values =>
      -- Only a phi is changed by an edge.
      obtain rfl | h := List.mem_cons.1 h
      · cases first with
        | phi id type edges => exact .inr rfl
        | _ => exact .inl List.mem_cons_self
      · exact (ih h).imp_left (List.mem_cons_of_mem _)

/-- Lines that are all phis, or all no phis, stay so when they get edges. -/
theorem isPhi_routeEdges {b : Bool} (h : ∀ line ∈ lines, line.isPhi = b) :
    ∀ line ∈ routeEdges source values lines, line.isPhi = b := by
  have hmap := @map_routeEdges source values lines _ Line.isPhi
    fun line value => line.isPhi_addEdge value source
  intro line hline
  have hmem := List.mem_map_of_mem (f := Line.isPhi) hline
  rw [hmap] at hmem
  obtain ⟨old, ho, heq⟩ := List.mem_map.1 hmem
  rw [← heq]
  exact h old ho

/-- Phis without edges are phis. -/
theorem onlyPhis_emptyPhis (next : ValueId) (types : List ScalarType) :
    OnlyPhis (emptyPhis next types) := by
  induction types generalizing next with
  | nil => exact fun _ h => nomatch h
  | cons type types ih =>
    intro line h
    obtain rfl | h := List.mem_cons.1 h
    · rfl
    · exact ih _ line h

end Edges

/-! ## Drafts -/

/-- Whether blocks of a role may have phis. -/
def BlockRole.joins : BlockRole → Bool
  | blockEnd | loopEnd | ifEnd => true
  | _ => false

namespace Draft

/-- Whether block `source` has a line that goes to block `target`. -/
def Branches (d : Draft) (source target : Label) : Prop :=
  source ∈ d.labels ∧ target ∈ (d.code source).flatMap Line.targets

/-- The edges of a phi in block `label` come from the blocks that branch there. -/
def EdgesMatch (d : Draft) (label : Label) (line : Line) : Prop :=
  (line.edges.map Prod.snd).Nodup ∧
    ∀ source, source ∈ line.edges.map Prod.snd ↔ d.Branches source label

/-- The blocks of a draft: the entry block and the insertion block exist and are placed, the blocks
    in `waiting` exist and are not placed yet. -/
structure Arranged (d : Draft) (waiting : List Label) : Prop where
  numbered : d.Numbered
  entry_mem : entryLabel ∈ d.labels
  current_mem : d.current ∈ d.labels
  waiting_mem : ∀ l ∈ waiting, l ∈ d.labels
  nodup : (d.current :: waiting).Nodup
  entry_placed : entryLabel ∉ waiting

/-- The block discipline, where the blocks in `waiting` have not been placed yet and `live` says
    whether the insertion block is still open. -/
structure Sound (d : Draft) (waiting : List Label) (live : Bool) : Prop
    extends d.Arranged waiting where
  noPhis : ∀ l ∈ d.labels, l.role.joins = false → NoPhis (d.code l)
  onlyPhis : ∀ l ∈ waiting, OnlyPhis (d.code l)
  unended : live = true → Unended (d.code d.current)
  ended : ∀ l ∈ d.labels, l ∉ waiting → (live = true → l ≠ d.current) → Ended (d.code l)
  phisFirst : ∀ l ∈ d.labels, PhisFirst (d.code l)
  targets : ∀ source target, d.Branches source target → target ∈ d.labels
  edges : ∀ l ∈ d.labels, ∀ line ∈ d.code l, line.isPhi = true → d.EdgesMatch l line

section Arranged

variable {d : Draft} {waiting : List Label}

theorem Arranged.current_ne (h : d.Arranged waiting) {l : Label} (hl : l ∈ waiting) :
    l ≠ d.current :=
  fun heq => (List.nodup_cons.1 h.nodup).1 (heq ▸ hl)

theorem Arranged.entry_ne (h : d.Arranged waiting) {l : Label} (hl : l ∈ waiting) :
    l ≠ entryLabel :=
  fun heq => h.entry_placed (heq ▸ hl)

/-- The waiting blocks may be listed in any order. -/
theorem Arranged.perm (h : d.Arranged waiting) {other : List Label} (hp : waiting.Perm other) :
    d.Arranged other where
  __ := h
  waiting_mem l hl := h.waiting_mem l (hp.mem_iff.2 hl)
  nodup := (hp.cons d.current).nodup_iff.1 h.nodup
  entry_placed hm := h.entry_placed (hp.mem_iff.2 hm)

/-- Skipping a value leaves the blocks as they are. -/
theorem Arranged.skipValue (h : d.Arranged waiting) : d.skipValue.Arranged waiting where
  __ := h
  numbered := h.numbered.skipValue

/-- Changing the lines of a block leaves the blocks as they are. -/
theorem Arranged.modifyLines (h : d.Arranged waiting) (label : Label)
    (f : Array Line → Array Line) : (d.modifyLines label f).Arranged waiting where
  numbered := h.numbered.modifyLines label f
  entry_mem := by simpa using h.entry_mem
  current_mem := by simpa using h.current_mem
  waiting_mem := by simpa using h.waiting_mem
  nodup := h.nodup
  entry_placed := h.entry_placed

theorem Arranged.append (h : d.Arranged waiting) (line : Line) :
    (d.append line).Arranged waiting :=
  h.modifyLines ..

/-- Storing fields leaves the blocks as they are. -/
theorem Arranged.storeFields (ha : d.Arranged waiting) (slot : ValueId) (index : Nat)
    (values : List Operand) : (d.storeFields slot index values).Arranged waiting := by
  induction values generalizing d index with
  | nil => exact ha
  | cons v values ih => exact ih ((ha.skipValue.append _).append _) (index + 1)

/-- A new block waits. -/
theorem Arranged.newBlock (h : d.Arranged waiting) (role : BlockRole) :
    (d.newBlock role).2.Arranged ((d.newBlock role).1 :: waiting) := by
  -- The label of the new block is not one of those that exist, so it is none of the blocks around.
  have hnew := newBlock_not_mem role h.numbered
  have hcur : d.current ≠ (d.newBlock role).1 := fun heq => hnew (heq ▸ h.current_mem)
  have hwait : (d.newBlock role).1 ∉ waiting := fun hm => hnew (h.waiting_mem _ hm)
  constructor
  case numbered => exact h.numbered.newBlock role
  case entry_mem =>
    rw [labels_newBlock]
    exact List.mem_append_left _ h.entry_mem
  case current_mem =>
    rw [labels_newBlock]
    exact List.mem_append_left _ h.current_mem
  case waiting_mem =>
    intro l hl
    rw [labels_newBlock, List.mem_append, List.mem_singleton]
    obtain rfl | hl := List.mem_cons.1 hl
    · exact .inr rfl
    · exact .inl (h.waiting_mem l hl)
  case nodup =>
    obtain ⟨hc, hw⟩ := List.nodup_cons.1 h.nodup
    rw [current_newBlock, List.nodup_cons, List.mem_cons, not_or, List.nodup_cons]
    exact ⟨⟨hcur, hc⟩, hwait, hw⟩
  case entry_placed =>
    rw [List.mem_cons, not_or]
    exact ⟨fun heq => hnew (heq ▸ h.entry_mem), h.entry_placed⟩

/-- A block that is placed waits no longer. -/
theorem Arranged.place {label : Label} (h : d.Arranged (label :: waiting)) :
    (d.place label).Arranged waiting where
  numbered := h.numbered.place label (h.waiting_mem label List.mem_cons_self)
  entry_mem := h.entry_mem
  current_mem := h.waiting_mem label List.mem_cons_self
  waiting_mem l hl := h.waiting_mem l (List.mem_cons_of_mem _ hl)
  nodup := (List.nodup_cons.1 h.nodup).2
  entry_placed hm := h.entry_placed (List.mem_cons_of_mem _ hm)

end Arranged

/-! ## Operations -/

section Operations

variable {d : Draft} {waiting : List Label} {live : Bool}

/-- The waiting blocks may be listed in any order. -/
theorem Sound.perm (hs : d.Sound waiting live) {other : List Label} (hp : waiting.Perm other) :
    d.Sound other live where
  __ := hs
  toArranged := hs.toArranged.perm hp
  onlyPhis l hl := hs.onlyPhis l (hp.mem_iff.2 hl)
  ended l hl hw := hs.ended l hl fun h => hw (hp.mem_iff.1 h)

/-- Skipping a value keeps the discipline. -/
theorem Sound.skipValue (hs : d.Sound waiting live) : d.skipValue.Sound waiting live where
  __ := hs
  toArranged := hs.toArranged.skipValue

/-- An open insertion block goes nowhere yet. -/
theorem Sound.not_branches (hs : d.Sound waiting true) (target : Label) :
    ¬ d.Branches d.current target := by
  intro h
  have := h.2
  rw [(hs.unended rfl).targets] at this
  cases this

/-- An appended line adds its own targets to those of the insertion block. -/
theorem branches_append (hn : d.Numbered) (hc : d.current ∈ d.labels) (line : Line)
    {source target : Label} :
    (d.append line).Branches source target ↔
      d.Branches source target ∨ source = d.current ∧ target ∈ line.targets := by
  unfold Branches
  rw [labels_append]
  by_cases hs : source ∈ d.labels
  · rw [code_append line hn hc hs]
    by_cases hcur : source = d.current
    · simp [hcur, hc]
    · simp [hcur]
  · have : source ≠ d.current := fun h => hs (h ▸ hc)
    simp [hs, this]

/-- What an appended line has to be: no phi, and one that goes to blocks without phis only. -/
private theorem Sound.append_aux (hs : d.Sound waiting true) {line : Line}
    (hphi : line.isPhi = false)
    (htargets : ∀ l ∈ line.targets, l ∈ d.labels ∧ NoPhis (d.code l)) :
    (d.append line).Sound waiting (!line.isTerminator) := by
  have hn := hs.numbered
  have hc := hs.current_mem
  have hcode := fun {l} => @code_append d line hn hc l
  -- A line of the new code is an old one, or it is the line in the insertion block.
  have hmem : ∀ {l}, l ∈ d.labels → ∀ {other}, other ∈ (d.append line).code l →
      other ∈ d.code l ∨ l = d.current ∧ other = line := by
    intro l hl other ho
    rw [hcode hl] at ho
    split at ho
    · next heq =>
      obtain ho | ho := List.mem_append.1 ho
      · exact .inl ho
      · exact .inr ⟨heq, List.mem_singleton.1 ho⟩
    · exact .inl ho
  constructor
  case toArranged => exact hs.toArranged.append line
  case noPhis =>
    intro l hl hr other ho
    rw [labels_append] at hl
    obtain ho | ⟨-, rfl⟩ := hmem hl ho
    · exact hs.noPhis l hl hr other ho
    · exact hphi
  case onlyPhis =>
    intro l hl
    rw [hcode (hs.waiting_mem l hl), if_neg (hs.current_ne hl)]
    exact hs.onlyPhis l hl
  case unended =>
    intro hterm other ho
    obtain ho | ⟨-, rfl⟩ := hmem hc ho
    · exact hs.unended rfl other ho
    · simpa using hterm
  case ended =>
    intro l hl hw hne
    rw [labels_append] at hl
    rw [hcode hl]
    split
    · next heq =>
      -- The insertion block is closed by the line.
      have hterm : line.isTerminator = true := by
        by_contra h
        exact hne (by simpa using h) heq
      rw [heq]
      exact (hs.unended rfl).ended hterm
    · next h => exact hs.ended l hl hw fun _ => h
  case phisFirst =>
    intro l hl
    rw [labels_append] at hl
    rw [hcode hl]
    split
    · exact (hs.phisFirst l hl).concat hphi
    · exact hs.phisFirst l hl
  case targets =>
    intro source target h
    rw [labels_append]
    obtain h | ⟨-, h⟩ := (branches_append hn hc line).1 h
    · exact hs.targets source target h
    · exact (htargets target h).1
  case edges =>
    intro l hl other ho hp
    rw [labels_append] at hl
    obtain ho | ⟨-, rfl⟩ := hmem hl ho
    · obtain ⟨hnodup, hiff⟩ := hs.edges l hl other ho hp
      refine ⟨hnodup, fun source => (hiff source).trans ?_⟩
      rw [branches_append hn hc]
      -- The line goes to blocks without phis, so it is no edge that a phi should have.
      refine ⟨.inl, fun h => h.resolve_right fun ⟨_, ht⟩ => ?_⟩
      rw [(htargets l ht).2 other ho] at hp
      cases hp
    · rw [hphi] at hp
      cases hp

/-- An ordinary line may be appended while the insertion block is open. -/
theorem Sound.append (hs : d.Sound waiting true) (line : Line) (hphi : line.isPhi = false)
    (hterm : line.isTerminator = false) : (d.append line).Sound waiting true := by
  have h := hs.append_aux hphi (by simp [line.targets_eq_nil hterm])
  rwa [hterm] at h

/-- A terminator closes the insertion block. It may go to blocks without phis. -/
theorem Sound.close (hs : d.Sound waiting true) (line : Line) (hterm : line.isTerminator = true)
    (htargets : ∀ l ∈ line.targets, l ∈ d.labels ∧ NoPhis (d.code l)) :
    (d.append line).Sound waiting false := by
  have h := hs.append_aux (Line.isPhi_of_isTerminator hterm) htargets
  rwa [hterm] at h

/-- A new block has no branches yet. -/
theorem branches_newBlock (hn : d.Numbered) (role : BlockRole) {source target : Label} :
    (d.newBlock role).2.Branches source target ↔ d.Branches source target := by
  unfold Branches
  rw [labels_newBlock, List.mem_append, List.mem_singleton]
  by_cases hs : source ∈ d.labels
  · rw [code_newBlock role hn hs]
    simp [hs]
  -- The source can only be the new block, which is empty.
  · constructor
    · intro ⟨h, ht⟩
      rw [h.resolve_left hs, code_newBlock_self] at ht
      cases ht
    · exact fun h => absurd h.1 hs

/-- A new block waits, without lines. -/
theorem Sound.newBlock (hs : d.Sound waiting live) (role : BlockRole) :
    (d.newBlock role).2.Sound ((d.newBlock role).1 :: waiting) live := by
  have hn := hs.numbered
  have hnew := newBlock_not_mem role hn
  have hcode := fun {l} => @code_newBlock d role hn l
  -- The new block is empty and waits; all others keep their code.
  constructor
  case toArranged => exact hs.toArranged.newBlock role
  case noPhis =>
    intro l hl hr
    rw [labels_newBlock, List.mem_append, List.mem_singleton] at hl
    obtain hl | rfl := hl
    · rw [hcode hl]
      exact hs.noPhis l hl hr
    · rw [code_newBlock_self]
      exact fun _ h => nomatch h
  case onlyPhis =>
    intro l hl
    obtain rfl | hl := List.mem_cons.1 hl
    · rw [code_newBlock_self]
      exact fun _ h => nomatch h
    · rw [hcode (hs.waiting_mem l hl)]
      exact hs.onlyPhis l hl
  case unended =>
    rw [current_newBlock, hcode hs.current_mem]
    exact hs.unended
  case ended =>
    intro l hl hw hne
    rw [List.mem_cons, not_or] at hw
    rw [labels_newBlock, List.mem_append, List.mem_singleton] at hl
    have hl := hl.resolve_right hw.1
    rw [hcode hl]
    exact hs.ended l hl hw.2 hne
  case phisFirst =>
    intro l hl
    rw [labels_newBlock, List.mem_append, List.mem_singleton] at hl
    obtain hl | rfl := hl
    · rw [hcode hl]
      exact hs.phisFirst l hl
    · rw [code_newBlock_self]
      exact List.Pairwise.nil
  case targets =>
    intro source target h
    rw [labels_newBlock]
    exact List.mem_append_left _ (hs.targets source target ((branches_newBlock hn role).1 h))
  case edges =>
    intro l hl line hline hp
    rw [labels_newBlock, List.mem_append, List.mem_singleton] at hl
    obtain hl | rfl := hl
    · rw [hcode hl] at hline
      obtain ⟨hnodup, hiff⟩ := hs.edges l hl line hline hp
      exact ⟨hnodup, fun source => (hiff source).trans (branches_newBlock hn role).symm⟩
    · rw [code_newBlock_self] at hline
      cases hline

/-- Placing a waiting block after the insertion block was closed opens it. -/
theorem Sound.place {label : Label} (hs : d.Sound (label :: waiting) false) :
    (d.place label).Sound waiting true where
  toArranged := hs.toArranged.place
  noPhis := hs.noPhis
  onlyPhis l hl := hs.onlyPhis l (List.mem_cons_of_mem _ hl)
  unended _ := (hs.onlyPhis label List.mem_cons_self).unended
  ended l hl hw hne := hs.ended l hl (by simpa [hw] using hne rfl) nofun
  phisFirst := hs.phisFirst
  targets := hs.targets
  edges := hs.edges

/-- A change of lines that keeps the targets of the block keeps the branches. -/
theorem branches_modifyLines (hn : d.Numbered) {label : Label} (hl : label ∈ d.labels)
    {f : Array Line → Array Line}
    (htargets : (f (d.lines label)).toList.flatMap Line.targets =
      (d.code label).flatMap Line.targets) {source target : Label} :
    (d.modifyLines label f).Branches source target ↔ d.Branches source target := by
  unfold Branches
  rw [labels_modifyLines]
  refine and_congr_right fun hs => ?_
  rw [code_modifyLines hn hl hs]
  split
  · next heq => rw [htargets, heq]
  · exact Iff.rfl

/-- The lines of one block may be changed, if that changes neither where the block goes nor whether
    it is closed, and if each phi that is new has no edge, in a block where no branch leads. -/
theorem Sound.modifyLines (hs : d.Sound waiting live) {label : Label} (hl : label ∈ d.labels)
    {f : Array Line → Array Line} {lines : List Line} (hf : (f (d.lines label)).toList = lines)
    (htargets : lines.flatMap Line.targets = (d.code label).flatMap Line.targets)
    (hrole : label.role.joins = false → NoPhis lines) (hwait : label ∈ waiting → OnlyPhis lines)
    (hopen : Unended (d.code label) → Unended lines) (hended : Ended (d.code label) → Ended lines)
    (hfirst : PhisFirst lines)
    (hedges : ∀ line ∈ lines, line.isPhi = true →
      line ∈ d.code label ∨ line.edges = [] ∧ ∀ source, ¬ d.Branches source label) :
    (d.modifyLines label f).Sound waiting live := by
  subst hf
  have hn := hs.numbered
  have hcode := fun {l} (h : l ∈ d.labels) => code_modifyLines hn hl h f
  have hbranch := fun {source target} =>
    @branches_modifyLines d hn label hl f htargets source target
  -- All other blocks keep their code, and the branches of this one stay.
  constructor
  case toArranged => exact hs.toArranged.modifyLines label f
  case noPhis =>
    intro l hm hr
    rw [labels_modifyLines] at hm
    rw [hcode hm]
    split
    · next heq => exact hrole (heq ▸ hr)
    · exact hs.noPhis l hm hr
  case onlyPhis =>
    intro l hw
    rw [hcode (hs.waiting_mem l hw)]
    split
    · next heq => exact hwait (heq ▸ hw)
    · exact hs.onlyPhis l hw
  case unended =>
    intro hlive
    rw [current_modifyLines, hcode hs.current_mem]
    split
    · next heq =>
      apply hopen
      rw [← heq]
      exact hs.unended hlive
    · exact hs.unended hlive
  case ended =>
    intro l hm hw hne
    rw [labels_modifyLines] at hm
    rw [hcode hm]
    split
    · next heq => exact hended (heq ▸ hs.ended l hm hw hne)
    · exact hs.ended l hm hw hne
  case phisFirst =>
    intro l hm
    rw [labels_modifyLines] at hm
    rw [hcode hm]
    split
    · exact hfirst
    · exact hs.phisFirst l hm
  case targets =>
    intro source target h
    rw [labels_modifyLines]
    exact hs.targets source target (hbranch.1 h)
  case edges =>
    intro l hm line hline hp
    rw [labels_modifyLines] at hm
    have hmatch : d.EdgesMatch l line := by
      rw [hcode hm] at hline
      split at hline
      · next heq =>
        subst heq
        -- An old phi has its edges already, and a new one needs none.
        obtain hold | ⟨hnil, hno⟩ := hedges line hline hp
        · exact hs.edges l hm line hold hp
        · exact ⟨by simp [hnil], fun source => by simp [hnil, hno source]⟩
      · exact hs.edges l hm line hline hp
    exact ⟨hmatch.1, fun source => (hmatch.2 source).trans hbranch.symm⟩

/-- Phis without edges may be added to a waiting block where no branch leads yet. -/
theorem Sound.addPhis (hs : d.Sound waiting live) {label : Label} (hw : label ∈ waiting)
    (hrole : label.role.joins = true) (hno : ∀ source, ¬ d.Branches source label)
    (types : List ScalarType) :
    (d.addPhis label types).2.Sound waiting live := by
  induction types generalizing d with
  | nil => exact hs
  | cons type types ih =>
    have hl : label ∈ d.skipValue.labels := hs.waiting_mem label hw
    let phi : Line := .phi d.nextValue type []
    have hlines : ((d.skipValue.lines label).push phi).toList = d.code label ++ [phi] :=
      Array.toList_push
    have htargets : (d.code label ++ [phi]).flatMap Line.targets =
        (d.skipValue.code label).flatMap Line.targets := by
      simp [phi, Line.targets]
    have hphis : OnlyPhis (d.code label ++ [phi]) := by
      intro line h
      obtain h | h := List.mem_append.1 h
      · exact hs.onlyPhis label hw line h
      · rw [List.mem_singleton.1 h]
        rfl
    have hstep : (d.skipValue.modifyLines label (·.push phi)).Sound waiting live := by
      refine hs.skipValue.modifyLines hl hlines htargets (fun h => absurd hrole (by simp [h]))
        (fun _ => hphis) (fun _ => hphis.unended) (fun hended => ?_) hphis.phisFirst ?_
      -- A block of phis has no line that ends it.
      · obtain ⟨body, last, heq, hlast, -⟩ := hended
        have hmem : last ∈ d.code label := by
          show last ∈ d.skipValue.code label
          rw [heq]
          exact List.mem_append_right _ (List.mem_singleton.2 rfl)
        rw [(hs.onlyPhis label hw).unended last hmem] at hlast
        cases hlast
      -- The new phi has no edges, and nothing leads to its block yet.
      · intro line h _
        obtain h | h := List.mem_append.1 h
        · exact .inl h
        · rw [List.mem_singleton.1 h]
          exact .inr ⟨rfl, hno⟩
    refine ih hstep fun source h => hno source ?_
    refine (branches_modifyLines hs.numbered.skipValue hl ?_).1 h
    rw [hlines]
    exact htargets

/-- The phis without edges may be removed from the insertion block while it is open. -/
theorem Sound.dropEmptyPhis (hs : d.Sound waiting true) :
    (d.dropEmptyPhis d.current).Sound waiting true := by
  have hc := hs.current_mem
  have hsub : ∀ line ∈ (d.code d.current).filter (!·.isEmptyPhi), line ∈ d.code d.current :=
    fun line h => (List.mem_filter.1 h).1
  have hopen : Unended ((d.code d.current).filter (!·.isEmptyPhi)) :=
    fun line h => hs.unended rfl line (hsub line h)
  -- Fewer phis are a change of the lines of the insertion block, which goes nowhere yet.
  refine hs.modifyLines hc Array.toList_filter ?_ ?_ ?_ (fun _ => hopen) ?_ ?_ ?_
  · show ((d.code d.current).filter (!·.isEmptyPhi)).flatMap Line.targets = _
    rw [hopen.targets, (hs.unended rfl).targets]
  · exact fun hr line h => hs.noPhis _ hc hr line (hsub line h)
  · exact fun hw => absurd rfl (hs.current_ne hw)
  · intro ⟨body, last, heq, hlast, _⟩
    have hmem : last ∈ d.code d.current := heq ▸ List.mem_append_right _ (List.mem_singleton.2 rfl)
    rw [hs.unended rfl last hmem] at hlast
    cases hlast
  · exact (hs.phisFirst _ hc).filter _
  · exact fun line h _ => .inl (hsub line h)

/-- An ordinary line may be put at the front of the entry block. -/
theorem Sound.defineAtEntry (hs : d.Sound waiting live) (line : ValueId → Line)
    (hphi : (line d.nextValue).isPhi = false)
    (hterm : (line d.nextValue).isTerminator = false) :
    (d.defineAtEntry line).2.Sound waiting live := by
  have hno : NoPhis (line d.nextValue :: d.code entryLabel) := by
    intro l h
    obtain rfl | h := List.mem_cons.1 h
    · exact hphi
    · exact hs.noPhis _ hs.entry_mem rfl l h
  -- The entry block has no phis, so a line in front of it disturbs none.
  refine hs.skipValue.modifyLines hs.entry_mem (Array.toList_append ..) ?_ (fun _ => hno) ?_ ?_ ?_
    hno.phisFirst ?_
  · show (line d.nextValue :: d.code entryLabel).flatMap Line.targets = _
    rw [List.flatMap_cons, Line.targets_eq_nil hterm]
    rfl
  · exact fun hw => absurd hw hs.entry_placed
  · intro hopen l h
    obtain rfl | h := List.mem_cons.1 h
    · exact hterm
    · exact hopen l h
  · intro ⟨body, last, heq, hlast, hbody⟩
    refine ⟨line d.nextValue :: body, last, congrArg (line d.nextValue :: ·) heq, hlast, ?_⟩
    intro l h
    obtain rfl | h := List.mem_cons.1 h
    · exact hterm
    · exact hbody l h
  · intro l h hp
    rw [hno l h] at hp
    cases hp

/-- After a branch to a waiting block there is one more edge in the flow of control. -/
theorem Sound.branches_jump (hs : d.Sound waiting true) {label : Label} (hw : label ∈ waiting)
    (values : Array Operand) {source target : Label} :
    ((d.addEdges label values).append (.br label)).Branches source target ↔
      d.Branches source target ∨ source = d.current ∧ target = label := by
  have hl := hs.waiting_mem label hw
  have hphis := hs.onlyPhis label hw
  rw [branches_append (hs.numbered.addEdges values) (by simpa using hs.current_mem),
    current_addEdges]
  refine or_congr (branches_modifyLines hs.numbered hl ?_) (by simp [Line.targets])
  -- The target block has phis only, with the new edges or without, so it goes nowhere.
  have hrouted : OnlyPhis (routeEdges d.current values.toList (d.code label)) :=
    isPhi_routeEdges hphis
  refine (congrArg (List.flatMap Line.targets) (toList_addEdges values)).trans ?_
  rw [hphis.unended.targets]
  exact hrouted.unended.targets

/-- A phi of a waiting block that gets the edge of a branch has an edge for each block that branches
    there now. The insertion block did not branch before, so its edge is a new one. -/
theorem Sound.edgesMatch_jump (hs : d.Sound waiting true) {label : Label} (hw : label ∈ waiting)
    (values : Array Operand) {line : Line} (hline : line ∈ d.code label) (value : Operand) :
    ((d.addEdges label values).append (.br label)).EdgesMatch label
      (line.addEdge value d.current) := by
  have hphi := hs.onlyPhis label hw line hline
  obtain ⟨hnodup, hiff⟩ := hs.edges label (hs.waiting_mem label hw) line hline hphi
  -- The insertion block has not branched, so it is no source yet.
  have hfresh : d.current ∉ line.edges.map Prod.snd :=
    fun h => hs.not_branches label ((hiff _).1 h)
  unfold EdgesMatch
  rw [Line.edges_addEdge hphi, List.map_append]
  constructor
  · refine List.Nodup.append hnodup (List.nodup_singleton _) ?_
    simpa using hfresh
  · intro source
    rw [List.mem_append, hiff source, hs.branches_jump hw values]
    simp

/-- A branch to a waiting block gives each of its phis an edge, and closes the insertion block. -/
theorem Sound.jump (hs : d.Sound waiting true) {label : Label} (hw : label ∈ waiting)
    {values : Array Operand} (hsize : values.size = (d.code label).length) :
    ((d.addEdges label values).append (.br label)).Sound waiting false := by
  have hne : label ≠ d.current := hs.current_ne hw
  have hcode := fun {l} => @code_jump d label values hs.numbered hs.current_mem
    (hs.waiting_mem label hw) hne l
  -- The insertion block gets the branch, the target block the edges.
  constructor
  case toArranged => exact (hs.toArranged.modifyLines label _).append _
  case noPhis =>
    intro l hm hr
    replace hm : l ∈ d.labels := by simpa using hm
    have hold := hs.noPhis l hm hr
    rw [hcode hm]
    split
    · intro line h
      obtain h | h := List.mem_append.1 h
      · exact hold line h
      · rw [List.mem_singleton.1 h]
        rfl
    · split
      · exact isPhi_routeEdges hold
      · exact hold
  case onlyPhis =>
    intro l hlw
    rw [hcode (hs.waiting_mem l hlw), if_neg (hs.current_ne hlw)]
    split
    · exact isPhi_routeEdges (hs.onlyPhis l hlw)
    · exact hs.onlyPhis l hlw
  case unended => exact fun h => by cases h
  case ended =>
    intro l hm hlw _
    replace hm : l ∈ d.labels := by simpa using hm
    rw [hcode hm]
    split
    · next heq =>
      rw [heq]
      exact (hs.unended rfl).ended rfl
    · next heq =>
      have hll : l ≠ label := fun h => hlw (h ▸ hw)
      rw [if_neg hll]
      exact hs.ended l hm hlw fun _ => heq
  case phisFirst =>
    intro l hm
    replace hm : l ∈ d.labels := by simpa using hm
    rw [hcode hm]
    split
    · exact (hs.phisFirst l hm).concat rfl
    · split
      · next heq =>
        have hphis : OnlyPhis (routeEdges d.current values.toList (d.code l)) :=
          isPhi_routeEdges (heq ▸ hs.onlyPhis label hw)
        exact hphis.phisFirst
      · exact hs.phisFirst l hm
  case targets =>
    intro source target h
    have hmem : target ∈ d.labels := by
      obtain h | ⟨-, rfl⟩ := (hs.branches_jump hw values).1 h
      · exact hs.targets source target h
      · exact hs.waiting_mem target hw
    simpa using hmem
  case edges =>
    intro l hm line hline hp
    replace hm : l ∈ d.labels := by simpa using hm
    rw [hcode hm] at hline
    by_cases hll : l = label
    · subst hll
      rw [if_neg hne, if_pos rfl] at hline
      -- There is a value for each phi, so each gets its edge.
      obtain ⟨old, ho, v, -, rfl⟩ := mem_routeEdges (by simp [hsize]) hline
      exact hs.edgesMatch_jump hw values ho v
    -- A phi of another block is an old one, and no branch to its block was added.
    · have hold : line ∈ d.code l := by
        rw [if_neg hll] at hline
        split at hline
        · obtain h | h := List.mem_append.1 hline
          · exact h
          · rw [List.mem_singleton.1 h] at hp
            cases hp
        · exact hline
      obtain ⟨hnodup, hiff⟩ := hs.edges l hm line hold hp
      refine ⟨hnodup, fun source => (hiff source).trans ?_⟩
      rw [hs.branches_jump hw values]
      simp [hll]

/-- A new block with one phi for each type waits. -/
theorem Sound.newJoin (hs : d.Sound waiting live) (role : BlockRole) (hrole : role.joins = true)
    (types : List ScalarType) :
    (d.newJoin role types).Sound ((d.newBlock role).1 :: waiting) live := by
  -- No branch leads to a block that did not exist.
  refine (hs.newBlock role).addPhis List.mem_cons_self hrole (fun source h => ?_) types
  have := hs.targets _ _ ((branches_newBlock hs.numbered role).1 h)
  exact newBlock_not_mem role hs.numbered this

/-- Going on in a new block closes the insertion block and opens the new one. -/
theorem Sound.goOn (hs : d.Sound waiting true) (role : BlockRole) (hrole : role.joins = false) :
    (d.goOn role).Sound waiting true := by
  have hnew := hs.newBlock role
  refine (hnew.close _ rfl fun l hl => ?_).place
  rw [List.mem_singleton.1 hl]
  exact ⟨hnew.waiting_mem _ List.mem_cons_self, hnew.noPhis _ (by simp) hrole⟩

/-- A conditional branch leaves its two blocks waiting. -/
theorem Sound.fork (hs : d.Sound waiting true) (condition : Operand) :
    (d.fork condition).Sound (d.arms.2 :: d.arms.1 :: waiting) false := by
  have hnew := (hs.newBlock .ifThen).newBlock .ifElse
  refine hnew.close _ rfl fun l hl => ?_
  obtain rfl | rfl : l = d.arms.1 ∨ l = d.arms.2 := by simpa [Line.targets] using hl
  · have hmem := hnew.waiting_mem d.arms.1 (List.mem_cons_of_mem _ List.mem_cons_self)
    exact ⟨hmem, hnew.noPhis _ hmem rfl⟩
  · have hmem := hnew.waiting_mem d.arms.2 List.mem_cons_self
    exact ⟨hmem, hnew.noPhis _ hmem rfl⟩

/-- A guard closes the insertion block and a block that traps, and opens a new one. -/
theorem Sound.guard (hs : d.Sound waiting true) (condition : Operand) :
    (d.guard condition).Sound waiting true := by
  have hnew := (hs.newBlock .truncTrap).newBlock .truncOk
  let trap := (d.newBlock .truncTrap).1
  let ok := ((d.newBlock .truncTrap).2.newBlock .truncOk).1
  have hbranch := hnew.close (.condBr condition ok trap) rfl fun l hl => by
    obtain rfl | rfl : l = ok ∨ l = trap := by simpa [Line.targets] using hl
    · have hmem := hnew.waiting_mem ok List.mem_cons_self
      exact ⟨hmem, hnew.noPhis _ hmem rfl⟩
    · have hmem := hnew.waiting_mem trap (List.mem_cons_of_mem _ List.mem_cons_self)
      exact ⟨hmem, hnew.noPhis _ hmem rfl⟩
  -- The block that traps is opened to be closed at once, and the other one stays open.
  have htrap := (hbranch.perm (.swap ..)).place
  exact ((htrap.append .trap rfl rfl).close .unreachable rfl (by simp [Line.targets])).place

/-- Computations keep the insertion block open. -/
theorem Sound.assigned (hs : d.Sound waiting true) (cs : List Rhs) :
    (d.assigned cs).Sound waiting true := by
  induction cs generalizing d with
  | nil => exact hs
  | cons rhs cs ih => exact ih (hs.skipValue.append _ rfl rfl)

/-- Storing fields keeps the insertion block open. -/
theorem Sound.storeFields (hs : d.Sound waiting true) (slot : ValueId) (index : Nat)
    (values : List Operand) : (d.storeFields slot index values).Sound waiting true := by
  induction values generalizing d index with
  | nil => exact hs
  | cons v values ih => exact ih ((hs.skipValue.append _ rfl rfl).append _ rfl rfl) (index + 1)

/-- Returning a structure closes the insertion block. -/
theorem Sound.retPacked (hs : d.Sound waiting true) (fields : List ScalarType)
    (values : List Operand) : (d.retPacked fields values).Sound waiting false := by
  have hslot := hs.defineAtEntry (.alloca · (.packed fields) .ret) rfl rfl
  have hstore := hslot.storeFields d.nextValue 0 values
  exact (hstore.skipValue.append _ rfl rfl).close _ rfl (by simp [Line.targets])

end Operations

end Draft

end WasmLowering.Ssa
