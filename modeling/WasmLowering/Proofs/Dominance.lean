import WasmLowering.Proofs.DraftScope
import WasmLowering.Proofs.Phis

/-!
# Values are defined before they are used

Every value of a lowered function is defined once, and on every path to a use of it. While a body is
lowered there is a scope for its blocks: at the end of a construct the operands below the construct
are available, at the start of a loop or of an arm the operands that are on the stack then. All
operands on the stack are passed on by the insertion block. A value that is available at the start
of a block is defined on every path to this block, because each branch passes it on.

## Key results

- `Draft.Scoped.defined_on_path`: what is available at the start of a block is defined on the way
- `Move.scoped`: a move keeps a scope, up to new blocks
- `values_defined_before_use`: single assignment and dominance in every lowered function
-/

namespace WasmLowering.Ssa

/-! ## Paths -/

section Paths

variable {d : Draft} {avail : Label → Set ValueId} {waiting : List Label} {live : Bool}
  {f : Function}

/-- What the code of a block defines is defined in the block of the function. -/
private theorem definedIn_of_mem (hn : d.Numbered) (hf : f.blocks = d.finish) {label : Label}
    (hl : label ∈ d.labels) {id : ValueId} (hid : id ∈ definitions (d.code label)) :
    f.DefinedIn label id := by
  refine ⟨{ label, lines := d.lines label }, ?_, rfl, hid⟩
  rw [hf]
  exact (Draft.mem_finish hn).2 ⟨hl, rfl⟩

/-- A path to another block than the entry block has come through the entry block. -/
theorem Function.Path.entry_mem {label : Label} {earlier : List Label}
    (h : f.Path (label :: earlier)) (hne : label ≠ Draft.entryLabel) :
    Draft.entryLabel ∈ earlier := by
  generalize hlabels : label :: earlier = labels at h
  induction h generalizing label earlier with
  | entry => exact absurd (List.cons.inj hlabels).1 hne
  | @branch source target rest walk edge ih =>
    obtain ⟨-, rfl⟩ := List.cons.inj hlabels
    by_cases hs : source = Draft.entryLabel
    · rw [hs]
      exact List.mem_cons_self
    · exact List.mem_cons_of_mem _ (ih hs rfl)

/-- What is available at the start of a block is defined earlier on every path to it. -/
theorem Draft.Scoped.defined_on_path (h : d.Scoped avail) (hs : d.Sound waiting live)
    (hf : f.blocks = d.finish) {label : Label} {earlier : List Label}
    (hp : f.Path (label :: earlier)) {id : ValueId} (hid : id ∈ avail label) :
    ∃ source ∈ earlier, f.DefinedIn source id := by
  -- By induction on the path: the block before passes the value on, so it defines the value or has
  -- it available at its own start.
  generalize hlabels : label :: earlier = labels at hp
  induction hp generalizing label earlier with
  | entry =>
    obtain ⟨rfl, -⟩ := List.cons.inj hlabels
    rw [h.entry] at hid
    cases hid
  | @branch source target rest walk edge ih =>
    obtain ⟨rfl, rfl⟩ := List.cons.inj hlabels
    obtain ⟨hl, hid | hid⟩ := h.branches _ _ ((edge_iff hs hf).1 edge) id hid
    · obtain ⟨other, ho, hdef⟩ := ih hid rfl
      exact ⟨other, List.mem_cons_of_mem _ ho, hdef⟩
    · exact ⟨source, List.mem_cons_self, definedIn_of_mem hs.numbered hf hl hid⟩

/-- Values that are used where they are available are defined on every path to their uses. -/
theorem Draft.Scoped.usesAvailable (h : d.Scoped avail) (hs : d.Sound waiting live)
    (hf : f.blocks = d.finish) : f.UsesAvailable := by
  intro label earlier hp b hb hlabel before line after heq
  rw [hf] at hb
  obtain ⟨hl, hlines⟩ := (Draft.mem_finish hs.numbered).1 hb
  rw [hlines, hlabel] at heq
  rw [hlabel] at hl
  constructor
  · intro id hid
    -- The value is defined before the line, on the way to its block, or in the entry block.
    obtain hid | hid | ⟨hne, hid⟩ := h.uses _ hl before line after heq id hid
    · exact .inl hid
    · exact .inr (h.defined_on_path hs hf hp hid)
    · exact .inr ⟨_, hp.entry_mem hne, definedIn_of_mem hs.numbered hf hs.entry_mem hid⟩
  · intro value source hedge hhead id hid
    obtain ⟨hm, hid⟩ := h.edges _ hl line (by simp [heq]) value source hedge id hid
    -- The edge comes from the block before, which passes the value on.
    cases hp with
    | entry => cases hhead
    | @branch source' _ rest walk edge =>
      obtain rfl : source' = source := by simpa using hhead
      obtain hid | hid := hid
      · obtain ⟨other, ho, hdef⟩ := h.defined_on_path hs hf walk hid
        exact ⟨other, List.mem_cons_of_mem _ ho, hdef⟩
      · exact ⟨source', List.mem_cons_self, definedIn_of_mem hs.numbered hf hm hid⟩

/-- Values that are defined once in a draft are defined once in the function. -/
theorem Draft.Scoped.singleAssignment (h : d.Scoped avail) (hn : d.Numbered)
    (hf : f.blocks = d.finish) : f.SingleAssignment := by
  unfold Function.SingleAssignment
  rw [hf, List.nodup_flatMap]
  have hmem : ∀ b ∈ d.finish, b.label ∈ d.labels ∧ b.lines.toList = d.code b.label :=
    fun b hb => (Draft.mem_finish hn).1 hb
  constructor
  · intro b hb
    rw [(hmem b hb).2]
    exact h.nodup _ (hmem b hb).1
  · -- Two blocks of the list have different labels.
    have hlabels : (d.finish.map Block.label).Nodup :=
      ((Draft.perm_finish hn).map Block.label).nodup_iff.2 (Draft.nodup_labels hn)
    refine ((List.pairwise_map.1 hlabels).imp_of_mem ?_)
    intro b c hb hc hne id hid hid'
    simp only [(hmem b hb).2] at hid
    simp only [(hmem c hc).2] at hid'
    exact hne (h.disjoint _ (hmem b hb).1 _ (hmem c hc).1 id hid hid')

end Paths

end WasmLowering.Ssa

namespace WasmLowering.Lowering

open Ssa Draft

/-! ## Scopes of states -/

/-- The values that operands refer to. -/
def idsOf (vs : List Operand) : Set ValueId :=
  { id | ∃ v ∈ vs, id ∈ v.ids }

private theorem idsOf_mono {vs ws : List Operand} (h : vs ⊆ ws) : idsOf vs ⊆ idsOf ws :=
  fun _ ⟨v, hv, hid⟩ => ⟨v, h hv, hid⟩

/-- The scope of the blocks of a construct. What is below the construct is available at its end, and
    no more is needed at the start of a loop. The second arm of a conditional has its parameters
    too. -/
def Construct.Scoped (avail : Label → Set ValueId) (stack : List Operand) (c : Construct) : Prop :=
  avail c.exit = idsOf (stack.take c.base) ∧
    match c.kind with
    | .loop head => avail head ⊆ idsOf (stack.take c.base)
    | .thenArm other params => idsOf (stack.take c.base) ∪ idsOf params.toList ⊆ avail other
    | _ => True

/-- A state respects a scope: its draft does, its slots are made in the entry block, what is on the
    stack is passed on by the insertion block, and the blocks of open constructs have what they
    need. -/
structure State.Scoped (s : State) (avail : Label → Set ValueId) : Prop where
  draft : s.draft.Scoped avail
  slots : ∀ slot ∈ s.locals, slot.id ∈ definitions (s.draft.code entryLabel)
  stack : s.phase = .live → ∀ v ∈ s.stack, ∀ id ∈ v.ids,
    s.draft.Provides avail s.draft.current id
  constructs : ∀ c ∈ s.constructs, c.Scoped avail s.stack.toList

section Scopes

variable {s t : State} {avail avail' : Label → Set ValueId}

/-- The scope of a construct depends on its own blocks and on what lies below it. -/
theorem Construct.Scoped.congr {c : Construct} {stack stack' : List Operand}
    (h : c.Scoped avail stack) (havail : ∀ l ∈ c.blocks, avail' l = avail l)
    (hstack : stack'.take c.base = stack.take c.base) : c.Scoped avail' stack' := by
  unfold Construct.Scoped at h ⊢
  rw [hstack, havail _ c.exit_mem_blocks]
  refine ⟨h.1, ?_⟩
  have hkind := h.2
  -- Loops and first arms have another block whose scope matters.
  cases hk : c.kind with
  | loop head =>
    rw [hk] at hkind
    show avail' head ⊆ _
    rwa [havail head (by simp [Construct.blocks, hk])]
  | thenArm other params =>
    rw [hk] at hkind
    show _ ⊆ avail' other
    rwa [havail other (by simp [Construct.blocks, hk])]
  | _ => trivial

/-- An operand that may be used is passed on by the insertion block. -/
theorem State.Scoped.provides (h : s.Scoped avail) (live : s.phase = .live) {v : Operand}
    (hv : s.Holds v) {id : ValueId} (hid : id ∈ v.ids) :
    s.draft.Provides avail s.draft.current id := by
  obtain hv | hv := hv
  · exact h.stack live v hv id hid
  · rw [hv] at hid
    cases hid

/-- What is below a height is passed on by the insertion block. -/
theorem State.Scoped.provides_take (h : s.Scoped avail) (live : s.phase = .live) (n : Nat)
    {id : ValueId} (hid : id ∈ idsOf (s.stack.toList.take n)) :
    s.draft.Provides avail s.draft.current id := by
  obtain ⟨v, hv, hid⟩ := hid
  exact h.stack live v (Array.mem_toList_iff.1 (List.mem_of_mem_take hv)) id hid

/-- A block that is not waiting goes on defining what it defined. -/
theorem Move.definitions_subset (hm : Move s t) (hd : s.Disciplined) {l : Label}
    (hl : l ∈ s.draft.labels) (hw : l ∉ s.waiting) :
    definitions (s.draft.code l) ⊆ definitions (t.draft.code l) := by
  obtain ⟨hadds, -⟩ | ⟨depth, c, rest, other, params, -, -, -, -, rfl⟩ |
    ⟨depth, c, rest, -, top, -, -, rfl⟩ := hm.shape hd
  · exact (hadds.grown l hl).definitions_subset
  · exact fun _ h => h
  · have hne : l ≠ c.exit := fun heq => hw (heq ▸ State.exit_mem_waiting (by simp [top]))
    rw [code_left hd top hl, if_neg hne]
    exact fun _ h => h

/-- After a move a state respects a scope if its draft does, what is on its stack is passed on, and
    the constructs that are new have what they need. -/
theorem State.Scoped.move (h : s.Scoped avail) (hm : Move s t) (hd : s.Disciplined)
    (hf : s.Framed) (hdraft : t.draft.Scoped avail') (hlocals : t.locals = s.locals)
    (havail : ∀ l ∈ s.draft.labels, avail' l = avail l)
    (hstack : t.phase = .live → ∀ v ∈ t.stack, ∀ id ∈ v.ids,
      t.draft.Provides avail' t.draft.current id)
    (hconstructs : ∀ c ∈ t.constructs, c ∈ s.constructs ∨ c.Scoped avail' t.stack.toList) :
    t.Scoped avail' where
  draft := hdraft
  slots slot hslot := hm.definitions_subset hd hd.sound.entry_mem hd.sound.entry_placed
    (h.slots slot (hlocals ▸ hslot))
  stack := hstack
  constructs c hc := by
    obtain hc | hc := hconstructs c hc
    · exact (h.constructs c hc).congr (fun l hl => havail l (hd.mem_labels hc hl)) (hm.below hf hc)
    · exact hc

theorem State.Scoped.stack_append (h : s.Scoped avail) (hd : s.Disciplined) (live : s.phase = .live)
    (line : Line) : ∀ v ∈ s.stack, ∀ id ∈ v.ids,
      (s.draft.append line).Provides avail s.draft.current id :=
  fun v hv id hid => (h.stack live v hv id hid).append hd.sound.toArranged line

/-- Making a slot keeps the scope. -/
theorem State.Scoped.allotted (h : s.Scoped avail) (hd : s.Disciplined)
    (live : s.phase = .live) (entry : s.draft.current = entryLabel) {first : Operand}
    (constant : first.ids = []) (type : ScalarType) : (s.allotted type first).Scoped avail := by
  have ha := hd.sound.toArranged
  let alloca : Line := .alloca s.draft.nextValue (.scalar type) (.ofLocal s.locals.size)
  have ha' := ha.skipValue.append alloca
  -- The slot is a new value, and storing to it uses this value and a constant.
  have halloca : (s.draft.skipValue.append alloca).Scoped avail :=
    h.draft.define ha alloca rfl rfl (by simp [alloca, Line.uses]) rfl
  have hslot : (s.draft.skipValue.append alloca).Provides avail s.draft.current s.draft.nextValue :=
    provides_append ha.skipValue rfl
  have hm : Move s (s.allotted type first) := .slot live entry constant type
  refine ⟨?_, fun slot hmem => ?_, fun _ v hv id hid => ?_, fun c hc => ?_⟩
  · refine halloca.append ha' _ rfl (by simp [Line.defines]) (fun id hid => ?_)
      (by simp [Line.targets])
    obtain rfl : id = s.draft.nextValue := by simpa [Line.uses, constant] using hid
    exact hslot.usable
  · -- The new slot is made in the insertion block, which is the entry block.
    obtain hmem | rfl := Array.mem_push.1 hmem
    · exact hm.definitions_subset hd hd.sound.entry_mem hd.sound.entry_placed (h.slots slot hmem)
    · apply definitions_code_append ha' _ (by simpa using ha.entry_mem)
      rw [code_append _ ha.skipValue.numbered ha.current_mem ha.entry_mem,
        current_skipValue, if_pos entry.symm]
      simp [alloca, definitions, Line.defines]
  · have hold := h.stack live v hv id hid
    exact (Provides.append (d := s.draft.skipValue) ha.skipValue alloca hold).append ha' _
  · exact h.constructs c hc

/-- Entering a block keeps the scope: what is below the block is available at its end. -/
theorem State.Scoped.enterBlock (h : s.Scoped avail) (hd : s.Disciplined) (hf : s.Framed)
    (live : s.phase = .live) {params : Nat} (types : List ScalarType)
    (arity : params ≤ s.stack.size - s.base) :
    ∃ avail', (s.opened .block .blockEnd types (s.stack.size - params)).Scoped avail' := by
  have hn := hd.sound.numbered
  let exit := (s.draft.newBlock .blockEnd).1
  let ids := idsOf (s.stack.toList.take (s.stack.size - params))
  let avail' : Label → Set ValueId := Function.update avail exit ids
  -- The new block is the only one with a new scope.
  have hold : ∀ l ∈ s.draft.labels, avail' l = avail l := by
    intro l hl
    have hne : l ≠ exit := newBlock_ne .blockEnd hn hl
    simp only [avail', Function.update_of_ne hne]
  refine ⟨avail', h.move (.block live arity) hd hf
    (h.draft.newJoin hd.sound .blockEnd types ids) rfl hold (fun _ v hv id hid => ?_)
    fun c hc => ?_⟩
  · show (s.draft.newJoin .blockEnd types).Provides avail' _ id
    have hcur : (s.draft.newJoin .blockEnd types).current = s.draft.current := by simp [newJoin]
    rw [State.opened, hcur]
    exact (h.stack live v hv id hid).newJoin hn .blockEnd types ids
  · obtain rfl | hc := List.mem_cons.1 hc
    · exact .inr ⟨Function.update_self .., trivial⟩
    · exact .inl hc

/-- Entering a loop keeps the scope: what is on the stack is available in the loop and after it. -/
theorem State.Scoped.enterLoop (h : s.Scoped avail) (hd : s.Disciplined) (hf : s.Framed)
    (live : s.phase = .live) (types : List ScalarType) :
    ∃ avail', ((s.begun .loopBegin).opened (.loop (s.draft.newBlock .loopBegin).1) .loopEnd types
      s.stack.size).Scoped avail' := by
  let head := (s.draft.newBlock .loopBegin).1
  let exit := ((s.draft.goOn .loopBegin).newBlock .loopEnd).1
  let ids := idsOf s.stack.toList
  let avail' : Label → Set ValueId := Function.update (Function.update avail head ids) exit ids
  have hs := (hd.open live).goOn .loopBegin rfl
  have hhead : head ∉ s.draft.labels := newBlock_not_mem .loopBegin hd.sound.numbered
  have hexit : exit ∉ (s.draft.goOn .loopBegin).labels := newBlock_not_mem .loopEnd hs.numbered
  have hsub : s.draft.labels ⊆ (s.draft.goOn .loopBegin).labels := by simp [goOn]
  have hne : head ≠ exit := fun heq => hexit (heq ▸ hs.current_mem)
  -- What is available in the blocks that were there stays.
  have hold : ∀ l ∈ s.draft.labels, avail' l = avail l := by
    intro l hl
    have h₁ : l ≠ exit := fun heq => hexit (heq ▸ hsub hl)
    have h₂ : l ≠ head := fun heq => hhead (heq ▸ hl)
    simp only [avail', Function.update_of_ne h₁, Function.update_of_ne h₂]
  have havail : avail' head = ids ∧ avail' exit = ids := by
    simp only [avail', Function.update_self, Function.update_of_ne hne, and_self]
  have htake : s.stack.toList.take s.stack.size = s.stack.toList := by simp
  have hids : ∀ id ∈ ids, s.draft.Provides avail s.draft.current id :=
    fun id ⟨v, hv, hid⟩ => h.stack live v (Array.mem_toList_iff.1 hv) id hid
  have hdraft := (h.draft.goOn hd.sound .loopBegin hids).newJoin hs .loopEnd types ids
  -- The whole stack is available in the first block of the loop, and after its end.
  refine ⟨avail', h.move (.loop live hf.height) hd hf hdraft rfl hold (fun _ v hv id hid => ?_)
    fun c hc => ?_⟩
  · have hcur : ((s.draft.goOn .loopBegin).newJoin .loopEnd types).current = head := by
      simp [newJoin, goOn, head]
    show ((s.draft.goOn .loopBegin).newJoin .loopEnd types).Provides avail'
      ((s.draft.goOn .loopBegin).newJoin .loopEnd types).current id
    rw [hcur]
    refine ⟨by simp [newJoin, goOn, head], .inl ?_⟩
    rw [havail.1]
    exact ⟨v, Array.mem_toList_iff.2 hv, hid⟩
  · obtain rfl | hc := List.mem_cons.1 hc
    · refine .inr ⟨?_, ?_⟩
      · show avail' exit = idsOf (s.stack.toList.take s.stack.size)
        rw [havail.2, htake]
      · show avail' head ⊆ idsOf (s.stack.toList.take s.stack.size)
        rw [havail.1, htake]
    · exact .inl hc

/-- Entering a conditional keeps the scope: what is on the stack without the condition is available
    in both arms. -/
theorem State.Scoped.enterFork (h : s.Scoped avail) (hd : s.Disciplined) (hf : s.Framed)
    (live : s.phase = .live) {xs : Array Operand} {condition : Operand}
    (stack : s.stack = xs.push condition) (base : s.base ≤ xs.size) {params : Nat}
    (types : List ScalarType) (arity : params ≤ xs.size - s.base) :
    ∃ avail', ((s.restacked xs).forked condition params types).Scoped avail' := by
  let arms := s.draft.arms
  let exit := ((s.draft.fork condition).newBlock .ifEnd).1
  let ids := idsOf xs.toList
  let below := idsOf (xs.toList.take (xs.size - params))
  let avail' : Label → Set ValueId :=
    Function.update (Function.update (Function.update avail arms.1 ids) arms.2 ids) exit below
  have hs := (hd.open live).fork condition
  have harms := arms_not_mem hd.sound.numbered
  have harm : arms.1 ∈ (s.draft.fork condition).labels ∧
      arms.2 ∈ (s.draft.fork condition).labels :=
    ⟨hs.waiting_mem _ (by simp [arms]), hs.waiting_mem _ (by simp [arms])⟩
  have hexit : exit ∉ (s.draft.fork condition).labels := newBlock_not_mem .ifEnd hs.numbered
  have hsub : s.draft.labels ⊆ (s.draft.fork condition).labels := by
    intro l hl
    simp [Draft.fork, hl]
  -- The arms are different blocks, since both wait.
  have hne : arms.1 ≠ arms.2 := by
    have := (List.nodup_cons.1 (List.nodup_cons.1 hs.nodup).2).1
    exact fun heq => this (by simp [arms] at heq; simp [heq])
  have hne₁ : arms.1 ≠ exit := fun heq => hexit (heq ▸ harm.1)
  have hne₂ : arms.2 ≠ exit := fun heq => hexit (heq ▸ harm.2)
  -- The three new blocks are apart from those that were there.
  have hold : ∀ l ∈ s.draft.labels, avail' l = avail l := by
    intro l hl
    have h₁ : l ≠ exit := fun heq => hexit (heq ▸ hsub hl)
    have h₂ : l ≠ arms.1 := fun heq => harms.1 (heq ▸ hl)
    have h₃ : l ≠ arms.2 := fun heq => harms.2 (heq ▸ hl)
    simp only [avail', Function.update_of_ne h₁, Function.update_of_ne h₂, Function.update_of_ne h₃]
  have havail : avail' arms.1 = ids ∧ avail' arms.2 = ids ∧ avail' exit = below := by
    simp only [avail', Function.update_self, Function.update_of_ne hne, Function.update_of_ne hne₁,
      Function.update_of_ne hne₂, and_self]
  have hids : ∀ id ∈ ids, s.draft.Provides avail s.draft.current id :=
    fun id ⟨v, hv, hid⟩ => h.stack live v (by simp [stack, Array.mem_toList_iff.1 hv]) id hid
  have hcond : ∀ id ∈ condition.ids, s.draft.Provides avail s.draft.current id :=
    fun id hid => h.stack live condition (by simp [stack]) id hid
  have hdraft := ((h.draft.fork hd.sound hcond hids).newJoin hs .ifEnd types below).place arms.1
  refine ⟨avail', h.move (.fork live stack base arity) hd hf hdraft rfl hold
    (fun _ v hv id hid => ?_) fun c hc => ?_⟩
  -- The first arm may use everything below the condition.
  · refine ⟨?_, .inl ?_⟩
    · show arms.1 ∈ ((s.draft.fork condition).newJoin .ifEnd types).labels
      simp [newJoin, harm.1]
    · show id ∈ avail' arms.1
      rw [havail.1]
      exact ⟨v, Array.mem_toList_iff.2 hv, hid⟩
  · obtain rfl | hc := List.mem_cons.1 hc
    -- The other arm may use this too, and the exit what lies below the parameters.
    · refine .inr ⟨havail.2.2, ?_⟩
      show below ∪ idsOf ((s.restacked xs).top params).toList ⊆ avail' arms.2
      rw [havail.2.1]
      refine Set.union_subset (idsOf_mono fun v hv => List.mem_of_mem_take hv) ?_
      refine idsOf_mono fun v hv => Array.mem_toList_iff.2 ?_
      exact @mem_of_mem_top (s.restacked xs) _ _ (Array.mem_toList_iff.1 hv)
    · exact .inl hc

/-- A guard keeps the scope: what is on the stack without the condition is available after it. -/
theorem State.Scoped.guard (h : s.Scoped avail) (hd : s.Disciplined) (hf : s.Framed)
    (live : s.phase = .live) {xs : Array Operand} {condition : Operand}
    (stack : s.stack = xs.push condition) (base : s.base ≤ xs.size) :
    ∃ avail', ((s.restacked xs).guarded condition).Scoped avail' := by
  let trap := (s.draft.newBlock .truncTrap).1
  let ok := ((s.draft.newBlock .truncTrap).2.newBlock .truncOk).1
  let ids := idsOf xs.toList
  -- The block that aborts gets nothing, and the other one what stays on the stack.
  let avail' : Label → Set ValueId := Function.update (Function.update avail trap ∅) ok ids
  have hn := hd.sound.numbered
  have hold : ∀ l ∈ s.draft.labels, avail' l = avail l := by
    intro l hl
    have h₁ : l ≠ trap := newBlock_ne .truncTrap hn hl
    have h₂ : l ≠ ok := newBlock_ne .truncOk (hn.newBlock .truncTrap) (by simp [hl])
    simp only [avail', Function.update_of_ne h₁, Function.update_of_ne h₂]
  -- All of this is available before the guard.
  have hids : ∀ id ∈ ids, s.draft.Provides avail s.draft.current id :=
    fun id ⟨v, hv, hid⟩ => h.stack live v (by simp [stack, Array.mem_toList_iff.1 hv]) id hid
  have hcond : ∀ id ∈ condition.ids, s.draft.Provides avail s.draft.current id :=
    fun id hid => h.stack live condition (by simp [stack]) id hid
  refine ⟨avail', h.move (.guard live stack base) hd hf
    (h.draft.guard (hd.open live) hcond hids) rfl hold (fun _ v hv id hid => ?_)
    fun c hc => .inl hc⟩
  refine ⟨((hd.open live).guard condition).current_mem, .inl ?_⟩
  show id ∈ avail' ok
  simp only [avail', Function.update_self]
  exact ⟨v, Array.mem_toList_iff.2 hv, hid⟩

/-- The second arm of a conditional starts with operands that are available there. -/
theorem State.Scoped.alternated (h : s.Scoped avail) (hd : s.Disciplined) (hf : s.Framed)
    {depth : Nat} {c : Construct} {rest : List Construct} {other : Label} {params : Array Operand}
    (dead : s.phase = .dead depth) (top : s.constructs = c :: rest)
    (kind : c.kind = .thenArm other params) (base : c.base ≤ s.stack.size) :
    (s.alternated c rest other params).Scoped avail := by
  have hc : c ∈ s.constructs := by rw [top]; exact List.mem_cons_self
  have hmove : Move s (s.alternated c rest other params) := .alternate dead top kind base
  have hother : other ∈ s.draft.labels := hd.mem_labels hc (by simp [Construct.blocks, kind])
  obtain ⟨hexit, harm⟩ := h.constructs c hc
  rw [kind] at harm
  refine h.move hmove hd hf (h.draft.place other) rfl (fun _ _ => rfl) (fun _ v hv id hid => ?_)
    fun c' hc' => ?_
  -- What was below the conditional and its parameters are what the second arm has available.
  · refine ⟨hother, .inl (harm ?_)⟩
    obtain hv | hv := Array.mem_append.1 hv
    · refine .inl ⟨v, ?_, hid⟩
      rw [← Array.mem_toList_iff] at hv
      simpa using hv
    · exact .inr ⟨v, Array.mem_toList_iff.2 hv, hid⟩
  · obtain rfl | hc' := List.mem_cons.1 hc'
    · refine .inr ⟨hexit.trans ?_, trivial⟩
      rw [← hmove.below hf hc]
    · rw [top]
      exact .inl (List.mem_cons_of_mem _ hc')

/-- What follows a construct has what is below the construct, and its results. -/
theorem State.Scoped.left (h : s.Scoped avail) (hd : s.Disciplined) (hf : s.Framed)
    {depth : Nat} {c : Construct} {rest : List Construct}
    (dead : s.phase = .dead depth) (top : s.constructs = c :: rest)
    (kind : ∀ other params, c.kind ≠ .thenArm other params) (base : c.base ≤ s.stack.size) :
    (s.left c rest).Scoped avail := by
  have hc : c ∈ s.constructs := by rw [top]; exact List.mem_cons_self
  have hmove : Move s (s.left c rest) := .leave dead top kind base
  have hw := State.exit_mem_waiting hc
  have hexit := hd.mem_labels hc c.exit_mem_blocks
  -- The end block has phis only, so that the empty ones can be dropped when it is placed.
  have hsound : (s.draft.place c.exit).Sound (rest.flatMap Construct.waiting) true := by
    have hs := hd.closed dead
    rw [State.waiting_of_top top kind] at hs
    exact hs.place
  have hdraft : (s.left c rest).draft.Scoped avail :=
    (h.draft.place c.exit).dropEmptyPhis hsound (hd.sound.onlyPhis _ hw) (hd.sound.entry_ne hw)
  refine h.move hmove hd hf hdraft rfl (fun _ _ => rfl) (fun _ v hv id hid => ?_) fun c' hc' => ?_
  · refine ⟨by simpa [State.left] using hexit, ?_⟩
    show id ∈ avail c.exit ∨ id ∈ definitions ((s.left c rest).draft.code c.exit)
    have hv' : v ∈ s.stack.toList.take c.base ++ s.resultsAfter c := by
      have := Array.mem_toList_iff.2 hv
      rw [State.left, Array.toList_appendList] at this
      simpa using this
    obtain hv | hv := List.mem_append.1 hv'
    · rw [(h.constructs c hc).1]
      exact .inl ⟨v, hv, hid⟩
    · -- With a branch to the end block the results are its phis; otherwise they are constants.
      by_cases hb : ∃ source, s.draft.Branches source c.exit
      · obtain ⟨source, hb⟩ := hb
        obtain ⟨hres, hfilter⟩ := results_of_branch hd hc hb
        rw [hres, ← hd.exits c hc, joined, List.mem_filterMap] at hv
        obtain ⟨line, hline, hphi⟩ := hv
        rw [code_left hd top hexit, if_pos rfl, hfilter]
        refine .inr (mem_definitions.2 ⟨line, hline, ?_⟩)
        cases line with
        | phi id' type edges =>
          obtain rfl := Option.some.inj hphi
          rw [List.mem_singleton.1 hid]
          rfl
        | _ => cases hphi
      · obtain ⟨hres, -⟩ := results_of_no_branch hd hc fun source hs => hb ⟨source, hs⟩
        rw [hres] at hv
        obtain ⟨phi, -, rfl⟩ := List.mem_map.1 hv
        rw [ScalarType.ids_zero] at hid
        cases hid
  · rw [top]
    exact .inl (List.mem_cons_of_mem _ hc')

/-- A move keeps a scope, up to the scopes of new blocks. -/
theorem Move.scoped (hm : Move s t) (hd : s.Disciplined) (hf : s.Framed) (h : s.Scoped avail) :
    ∃ avail', t.Scoped avail' := by
  have ha := hd.sound.toArranged
  have hsame : ∀ l ∈ s.draft.labels, avail l = avail l := fun _ _ => rfl
  have hold : ∀ c ∈ s.constructs, c ∈ s.constructs ∨ c.Scoped avail s.stack.toList :=
    fun c hc => .inl hc
  cases id hm with
  | slot live entry constant type => exact ⟨avail, h.allotted hd live entry constant type⟩
  -- A new value uses what is on the stack and the slots, and is then on the stack itself.
  | @compute rhs live operands slots =>
    let line : Line := .assign s.draft.nextValue rhs
    refine ⟨avail, h.move hm hd hf (h.draft.define ha line rfl rfl ?_ rfl) rfl hsame
      (fun _ v hv id hid => ?_) fun c hc => .inl hc⟩
    · intro id hid
      obtain hid | hid := List.mem_append.1 hid
      · obtain ⟨v, hv, hid⟩ := List.mem_flatMap.1 hid
        exact (h.provides live (operands v hv) hid).usable
      · obtain ⟨slot, hslot, rfl⟩ := slots id hid
        exact usable_of_mem_entry (h.slots slot hslot)
    · rw [State.stack_computePush] at hv
      obtain hv | rfl := Array.mem_push.1 hv
      · exact (h.stack live v hv id hid).append (d := s.draft.skipValue) ha.skipValue line
      · rw [List.mem_singleton.1 hid]
        exact provides_append ha.skipValue rfl
  | @store v slot live value mem =>
    refine ⟨avail, h.move hm hd hf (h.draft.append ha _ rfl (by simp [Line.defines]) ?_
      (by simp [Line.targets])) rfl hsame (fun _ => h.stack_append hd live _) hold⟩
    intro id hid
    obtain hid | hid := List.mem_append.1 hid
    · exact (h.provides live value hid).usable
    · rw [List.mem_singleton.1 hid]
      exact usable_of_mem_entry (h.slots slot mem)
  | nop live =>
    refine ⟨avail, h.move hm hd hf (h.draft.define ha _ rfl rfl (by simp [Line.uses]) rfl) rfl hsame
      (fun _ v hv id hid => ?_) hold⟩
    exact (h.stack live v hv id hid).append (d := s.draft.skipValue) ha.skipValue _
  | declare intrinsic => exact ⟨avail, h.move hm hd hf h.draft rfl hsame h.stack hold⟩
  | restack base below held =>
    refine ⟨avail, h.move hm hd hf h.draft rfl hsame (fun live v hv id hid => ?_)
      fun c hc => .inl hc⟩
    exact h.provides live (held v hv) hid
  | count dead depth => exact ⟨avail, h.move hm hd hf h.draft rfl hsame (fun h => by cases h) hold⟩
  | finish dead outermost =>
    exact ⟨avail, h.move hm hd hf h.draft rfl hsame (fun h => by cases h) hold⟩
  | @block params types live arity => exact h.enterBlock hd hf live types arity
  | @loop types live base => exact h.enterLoop hd hf live types
  | @fork xs condition params types live stack base arity =>
    exact h.enterFork hd hf live stack base types arity
  | @guard xs condition live stack base => exact h.guard hd hf live stack base
  -- At the exit, only what lies beneath the construct is available.
  | @jump c values live mem kind arity held =>
    have hs := hd.open live
    refine ⟨avail, h.move hm hd hf (h.draft.jump hs (State.exit_mem_waiting mem)
      (fun v hv id hid => h.provides live (held v hv) hid) (fun id hid => ?_)
      (arity.trans (hd.length_exit mem).symm)) rfl hsame (fun h => by cases h) hold⟩
    rw [(h.constructs c mem).1] at hid
    exact h.provides_take live _ hid
  -- The start of the loop needs what was on the stack when the loop was entered, and it is there
  -- still.
  | @back c head live mem kind =>
    refine ⟨avail, h.move hm hd hf (h.draft.append ha _ rfl (by simp [Line.defines])
      (by simp [Line.uses]) fun target ht id hid => ?_) rfl hsame (fun h => by cases h) hold⟩
    rw [List.mem_singleton.1 ht] at hid
    have hhead := (h.constructs c mem).2
    rw [kind] at hhead
    exact h.provides_take live _ (hhead hid)
  | @close line live terminator targets uses =>
    have hphi := Line.isPhi_of_isTerminator terminator
    have hdefines := Line.defines_of_isTerminator terminator
    refine ⟨avail, h.move hm hd hf (h.draft.append ha _ hphi (by simp [hdefines]) (fun id hid => ?_)
      (by simp [targets])) rfl hsame (fun h => by cases h) hold⟩
    obtain ⟨v, hv, hid⟩ := uses id hid
    exact (h.stack live v hv id hid).usable
  | @retPacked fields values live held =>
    refine ⟨avail, h.move hm hd hf (h.draft.retPacked ha fields fun v hv id hid => ?_) rfl hsame
      (fun h => by cases h) hold⟩
    exact h.provides live (held v hv) hid
  | alternate dead top kind base => exact ⟨avail, h.alternated hd hf dead top kind base⟩
  | leave dead top kind base => exact ⟨avail, h.left hd hf dead top kind base⟩

/-- A sequence of moves keeps a scope, up to the scopes of new blocks. -/
theorem Moves.scoped (hm : Moves s t) (hd : s.Disciplined) (hf : s.Framed) (h : s.Scoped avail) :
    ∃ avail', t.Scoped avail' := by
  induction hm with
  | refl => exact ⟨avail, h⟩
  | tail hmoves hm ih =>
    obtain ⟨avail', h'⟩ := ih
    exact hm.scoped (Moves.disciplined hmoves hd) (Moves.framed hmoves hf) h'

/-- In the empty state nothing is available and nothing is used. -/
theorem State.scoped_initial (type : FuncType) (intrinsics : IntrinsicTable) :
    (State.initial type intrinsics).Scoped fun _ => ∅ := by
  -- There is no code yet, neither in the entry block nor under any other label.
  have hcode : ∀ l, Draft.start.code l = [] := by
    intro l
    simp only [code, lines, Draft.start, List.getElem?_toArray]
    cases hb : [({ label := entryLabel } : Block)][l.ordinal]? with
    | none => rfl
    | some b =>
      obtain rfl := List.mem_singleton.1 (List.mem_of_getElem? hb)
      rfl
  refine ⟨?_, fun slot hs => by simp [State.initial] at hs,
    fun _ v hv => by simp [State.initial] at hv, fun c hc => absurd hc List.not_mem_nil⟩
  show Draft.start.Scoped fun _ => ∅
  constructor
  case entry => rfl
  case outside => exact fun _ _ => rfl
  case branches => exact fun _ _ _ id hid => absurd hid (Set.notMem_empty id)
  all_goals simp [hcode]

end Scopes

/-! ## Functions -/

/-- In a lowered function each value is defined once. On every path from the entry block, a value is
    defined before the line that uses it, and a value on the edge of a phi is defined before the end
    of the block that the edge comes from. -/
theorem values_defined_before_use {types : Array FuncType} {index : Nat} {func : UInt32}
    {type : FuncType} {intrinsics table : IntrinsicTable} {input : Bytes} {f : Ssa.Function}
    (h : lowerFunction types index func type intrinsics input = .ok (f, table)) :
    f.SingleAssignment ∧ f.UsesAvailable := by
  obtain ⟨signature, body, start, last, -, hbody, hstart, hlast, -, rfl, -⟩ :=
    lowerFunction_eq_ok.1 h
  have hb := Boundary.of_steps hbody hstart hlast
  have hs := hb.disciplined.sound
  obtain ⟨avail, hscoped⟩ := Moves.scoped hb.moves.1 (State.disciplined_initial type intrinsics)
    (State.framed_initial type intrinsics) (State.scoped_initial type intrinsics)
  exact ⟨hscoped.draft.singleAssignment hs.numbered rfl, hscoped.draft.usesAvailable hs rfl⟩

/-- A body with a branch out of a conditional, a block with a phi, and a structure that is
    returned. -/
theorem values_defined_before_use_branches :
    ∃ f table,
      lowerFunction #[] 0 0 { params := [.i32], results := [.i32, .i32] } {}
        [0x00, 0x02, 0x7F, 0x20, 0x00, 0x20, 0x00, 0x04, 0x40, 0x41, 0x07, 0x0C, 0x01, 0x0B, 0x0B,
          0x20, 0x00, 0x0B] = .ok (f, table) ∧
      f.SingleAssignment ∧ f.UsesAvailable := by
  have hok : (lowerFunction #[] 0 0 { params := [.i32], results := [.i32, .i32] } {}
      [0x00, 0x02, 0x7F, 0x20, 0x00, 0x20, 0x00, 0x04, 0x40, 0x41, 0x07, 0x0C, 0x01, 0x0B, 0x0B,
        0x20, 0x00, 0x0B]).toOption.isSome = true := by decide +kernel
  obtain ⟨⟨f, table⟩, h⟩ := exists_ok_of_isSome hok
  exact ⟨f, table, h, values_defined_before_use h⟩

end WasmLowering.Lowering
