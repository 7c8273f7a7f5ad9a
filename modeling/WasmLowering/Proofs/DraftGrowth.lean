import WasmLowering.Proofs.DraftSound

/-!
# Growth of drafts

While a function is lowered its blocks only grow: lines are appended, phis gain edges, and slots for
returned structures are put in front of the entry block. New branches come from the insertion block
or from blocks that are new. This is proved for each operation on drafts, relative to the labels
`old` that exist at some earlier point and to the labels `allowed` that may be branched to.

## Key results

- `Grown`: how the lines of one block may change
- `Draft.Adds`: how a draft may change, with one lemma for each operation
-/

namespace WasmLowering.Ssa

/-! ## Lines -/

/-- The value of a phi. -/
def Line.phiValue : Line → Option Operand
  | phi id type _ => some (.result id type)
  | _ => none

/-- Whether a line makes the slot of a structure that is returned. -/
def Line.isReturnSlot : Line → Bool
  | alloca _ _ .ret => true
  | _ => false

/-- The slot of a structure is no phi. -/
theorem Line.isPhi_of_isReturnSlot {line : Line} (h : line.isReturnSlot = true) :
    line.isPhi = false := by
  cases line with
  | alloca => rfl
  | _ => cases h

/-- A line that ends a block makes no slot. -/
theorem Line.isReturnSlot_of_isTerminator {line : Line} (h : line.isTerminator = true) :
    line.isReturnSlot = false := by
  cases line with
  | alloca => cases h
  | _ => rfl

/-- Only phis have a value of a phi. -/
theorem Line.phiValue_of_not_isPhi {line : Line} (h : line.isPhi = false) :
    line.phiValue = none := by
  cases line with
  | phi => cases h
  | _ => rfl

/-- A line may stay as it is, and a phi may gain edges. -/
inductive LineGrown : Line → Line → Prop where
  | same (line : Line) : LineGrown line line
  | edges (id : ValueId) (type : ScalarType) (edges more : List (Operand × Label)) :
      LineGrown (.phi id type edges) (.phi id type (edges ++ more))

namespace LineGrown

variable {a b c : Line}

/-- What has grown twice has grown. -/
private theorem trans (h : LineGrown a b) (h' : LineGrown b c) : LineGrown a c := by
  cases h with
  | same => exact h'
  | edges id type edges more =>
    cases h' with
    | same => exact .edges ..
    | edges _ _ _ more' =>
      rw [List.append_assoc]
      exact .edges ..

private theorem phiValue (h : LineGrown a b) : b.phiValue = a.phiValue := by
  cases h <;> rfl

private theorem defines (h : LineGrown a b) : b.defines = a.defines := by
  cases h <;> rfl

private theorem targets (h : LineGrown a b) : b.targets = a.targets := by
  cases h <;> rfl

/-- Only phis change. -/
private theorem eq_of_not_isPhi (h : LineGrown a b) (ha : a.isPhi = false) : b = a := by
  cases h with
  | same => rfl
  | edges => cases ha

/-- The edges that a line had stay in front. -/
theorem edges_prefix (h : LineGrown a b) : a.edges <+: b.edges := by
  cases h with
  | same => exact List.prefix_rfl
  | edges id type edges more => exact List.prefix_append ..

/-- A line grows by an edge if it is a phi, and stays as it is otherwise. -/
private theorem addEdge (line : Line) (value : Operand) (source : Label) :
    LineGrown line (line.addEdge value source) := by
  cases line with
  | phi id type edges => exact .edges ..
  | _ => exact .same _

end LineGrown

/-- How the lines of a block may change: phis gain edges, other lines are appended, and in the entry
    block slots are put in front. -/
def Grown (entry : Prop) (old new : List Line) : Prop :=
  ∃ front middle back, new = front ++ middle ++ back ∧ (front ≠ [] → entry) ∧
    (∀ line ∈ front, line.isReturnSlot = true) ∧ List.Forall₂ LineGrown old middle ∧
    ∀ line ∈ back, line.isPhi = false ∧ line.isReturnSlot = false

section Grown

variable {entry : Prop} {xs ys zs : List Line}

private theorem forall₂_lineGrown_refl (xs : List Line) : List.Forall₂ LineGrown xs xs :=
  List.forall₂_same.2 fun line _ => .same line

theorem Grown.refl (entry : Prop) (xs : List Line) : Grown entry xs xs :=
  ⟨[], xs, [], by simp, by simp, by simp, forall₂_lineGrown_refl xs, by simp⟩

theorem Grown.of_forall₂ (h : List.Forall₂ LineGrown xs ys) : Grown entry xs ys :=
  ⟨[], ys, [], by simp, by simp, by simp, h, by simp⟩

theorem Grown.concat (xs : List Line) {line : Line} (hphi : line.isPhi = false)
    (hslot : line.isReturnSlot = false) : Grown entry xs (xs ++ [line]) :=
  ⟨[], xs, [line], by simp, by simp, by simp, forall₂_lineGrown_refl xs, by simp [hphi, hslot]⟩

/-- What has grown from two lists one after the other falls into two parts. -/
private theorem forall₂_lineGrown_append (h : List.Forall₂ LineGrown (xs ++ ys) zs) :
    ∃ us vs, List.Forall₂ LineGrown xs us ∧ List.Forall₂ LineGrown ys vs ∧ zs = us ++ vs := by
  induction xs generalizing zs with
  | nil => exact ⟨[], zs, .nil, h, rfl⟩
  | cons x xs ih =>
    cases h with
    | cons hline h =>
      obtain ⟨us, vs, hu, hv, rfl⟩ := ih h
      exact ⟨_ :: us, vs, .cons hline hu, hv, rfl⟩

/-- Lines that have grown twice have grown. -/
private theorem forall₂_lineGrown_trans (h : List.Forall₂ LineGrown xs ys)
    (h' : List.Forall₂ LineGrown ys zs) : List.Forall₂ LineGrown xs zs := by
  induction h generalizing zs with
  | nil => exact h'
  | cons hline _ ih =>
    cases h' with
    | cons hline' h' => exact .cons (hline.trans hline') (ih h')

/-- What is read off lines one by one stays, if growth does not change it. -/
private theorem map_of_forall₂_lineGrown {α : Type} {f : Line → α}
    (hf : ∀ {a b : Line}, LineGrown a b → f b = f a) (h : List.Forall₂ LineGrown xs ys) :
    ys.map f = xs.map f := by
  induction h with
  | nil => rfl
  | cons hline _ ih => rw [List.map_cons, List.map_cons, hf hline, ih]

/-- The same of what is read off some of the lines. -/
private theorem filterMap_of_forall₂_lineGrown {α : Type} {f : Line → Option α}
    (hf : ∀ {a b : Line}, LineGrown a b → f b = f a) (h : List.Forall₂ LineGrown xs ys) :
    ys.filterMap f = xs.filterMap f := by
  have hmap := congrArg (List.filterMap id) (map_of_forall₂_lineGrown hf h)
  rwa [List.filterMap_map, List.filterMap_map] at hmap

/-- Lines that have grown from lines that are no phis are the same. -/
theorem eq_of_forall₂_lineGrown (h : List.Forall₂ LineGrown xs ys) (hx : NoPhis xs) : ys = xs := by
  induction h with
  | nil => rfl
  | cons hline _ ih =>
    rw [hline.eq_of_not_isPhi (hx _ List.mem_cons_self),
      ih fun line hl => hx line (List.mem_cons_of_mem _ hl)]

/-- A block that has grown twice has grown. -/
theorem Grown.trans (h : Grown entry xs ys) (h' : Grown entry ys zs) : Grown entry xs zs := by
  obtain ⟨front, middle, back, rfl, hentry, hfront, hmiddle, hback⟩ := h
  obtain ⟨front', middle', back', rfl, hentry', hfront', hmiddle', hback'⟩ := h'
  -- What was in front or at the back has no phis, so it has not changed since.
  obtain ⟨first, back₁, h₁, hb, rfl⟩ := forall₂_lineGrown_append hmiddle'
  obtain ⟨front₁, middle₁, hf, hm, rfl⟩ := forall₂_lineGrown_append h₁
  have hno : NoPhis front := fun line hl => Line.isPhi_of_isReturnSlot (hfront line hl)
  obtain rfl := eq_of_forall₂_lineGrown hf hno
  obtain rfl := eq_of_forall₂_lineGrown hb fun line hl => (hback line hl).1
  refine ⟨front' ++ front₁, middle₁, back₁ ++ back', by simp, ?_, ?_,
    forall₂_lineGrown_trans hmiddle hm, ?_⟩
  · intro hne
    by_cases h : front' = []
    · exact hentry fun h₁ => hne (by simp [h, h₁])
    · exact hentry' h
  · intro line hl
    exact (List.mem_append.1 hl).elim (hfront' line) (hfront line)
  · intro line hl
    exact (List.mem_append.1 hl).elim (hback line) (hback' line)

/-- The phis of a block stay the same. -/
theorem Grown.phiValues (h : Grown entry xs ys) :
    ys.filterMap Line.phiValue = xs.filterMap Line.phiValue := by
  obtain ⟨front, middle, back, rfl, -, hfront, hmiddle, hback⟩ := h
  have hf : front.filterMap Line.phiValue = [] := by
    refine List.filterMap_eq_nil_iff.2 fun line hl => ?_
    exact Line.phiValue_of_not_isPhi (Line.isPhi_of_isReturnSlot (hfront line hl))
  have hb : back.filterMap Line.phiValue = [] := by
    refine List.filterMap_eq_nil_iff.2 fun line hl => ?_
    exact Line.phiValue_of_not_isPhi (hback line hl).1
  have hm := filterMap_of_forall₂_lineGrown LineGrown.phiValue hmiddle
  simp [hf, hm, hb]

/-- A block goes on defining what it defined. -/
theorem Grown.definitions_subset (h : Grown entry xs ys) : definitions xs ⊆ definitions ys := by
  obtain ⟨front, middle, back, rfl, -, -, hmiddle, -⟩ := h
  have hm : definitions middle = definitions xs :=
    filterMap_of_forall₂_lineGrown LineGrown.defines hmiddle
  rw [definitions_append, definitions_append, hm]
  exact fun id hid => List.mem_append_left _ (List.mem_append_right _ hid)

/-- A block goes on going where it went. -/
theorem Grown.targets_subset (h : Grown entry xs ys) :
    xs.flatMap Line.targets ⊆ ys.flatMap Line.targets := by
  obtain ⟨front, middle, back, rfl, -, -, hmiddle, -⟩ := h
  have hm : middle.flatMap Line.targets = xs.flatMap Line.targets := by
    rw [List.flatMap_def, map_of_forall₂_lineGrown LineGrown.targets hmiddle, ← List.flatMap_def]
  rw [List.flatMap_append, List.flatMap_append, hm]
  exact fun l hl => List.mem_append_left _ (List.mem_append_right _ hl)

end Grown

/-! ## Drafts -/

namespace Draft

/-- The phis of a block. -/
def joined (d : Draft) (label : Label) : List Operand :=
  (d.code label).filterMap Line.phiValue

/-- How a draft may change: blocks grow, the insertion block stays the same or becomes a block that
    is not in `old`, and such blocks get new branches, to labels that are allowed. -/
structure Adds (old : List Label) (allowed : Label → Prop) (d d' : Draft) : Prop where
  labels : d.labels ⊆ d'.labels
  current : d'.current = d.current ∨ d'.current ∉ old
  grown : ∀ l ∈ d.labels, Grown (l = entryLabel) (d.code l) (d'.code l)
  branches : ∀ source target, d'.Branches source target →
    d.Branches source target ∨ (source = d.current ∨ source ∉ old) ∧ allowed target
  next : d.nextValue ≤ d'.nextValue

section Adds

variable {d d' d'' : Draft} {old waiting : List Label} {allowed : Label → Prop}

theorem Adds.refl (old : List Label) (allowed : Label → Prop) (d : Draft) :
    Adds old allowed d d :=
  ⟨fun _ h => h, .inl rfl, fun _ _ => .refl .., fun _ _ => .inl, Nat.le_refl _⟩

/-- A draft that has changed twice in this way has changed in this way. -/
theorem Adds.trans (h : Adds old allowed d d') (h' : Adds old allowed d' d'') :
    Adds old allowed d d'' where
  labels := fun _ hl => h'.labels (h.labels hl)
  -- The insertion block of the second change is that of the first, or it is no old block.
  current := by
    obtain hc | hc := h'.current
    · rw [hc]
      exact h.current
    · exact .inr hc
  grown := fun l hl => (h.grown l hl).trans (h'.grown l (h.labels hl))
  branches := by
    intro source target hb
    obtain hb | ⟨hs, ht⟩ := h'.branches source target hb
    · exact h.branches source target hb
    · refine .inr ⟨?_, ht⟩
      obtain rfl | hs := hs
      · exact h.current
      · exact .inr hs
  next := Nat.le_trans h.next h'.next

theorem Adds.branches_mono (h : Adds old allowed d d') {source target : Label}
    (hb : d.Branches source target) : d'.Branches source target :=
  ⟨h.labels hb.1, (h.grown source hb.1).targets_subset hb.2⟩

theorem Adds.joined (h : Adds old allowed d d') {l : Label} (hl : l ∈ d.labels) :
    d'.joined l = d.joined l :=
  (h.grown l hl).phiValues

/-- Skipping a value changes no block. -/
theorem adds_skipValue : Adds old allowed d d.skipValue where
  __ := Adds.refl old allowed d
  next := Nat.le_succ _

theorem adds_place {label : Label} (h : label ∉ old) : Adds old allowed d (d.place label) where
  __ := Adds.refl old allowed d
  current := .inr h

/-- Changing the lines of one block, without a new branch. -/
private theorem adds_modifyLines (hn : d.Numbered) {label : Label} (hl : label ∈ d.labels)
    {f : Array Line → Array Line} {lines : List Line} (hf : (f (d.lines label)).toList = lines)
    (hgrown : Grown (label = entryLabel) (d.code label) lines)
    (htargets : lines.flatMap Line.targets = (d.code label).flatMap Line.targets) :
    Adds old allowed d (d.modifyLines label f) := by
  subst hf
  refine ⟨by simp, .inl rfl, fun l hm => ?_, fun source target hb => .inl ?_, Nat.le_refl _⟩
  · rw [code_modifyLines hn hl hm]
    split
    · next heq =>
      subst heq
      exact hgrown
    · exact .refl ..
  · exact (branches_modifyLines hn hl htargets).1 hb

/-- Appending a line that goes to allowed labels. -/
theorem adds_append (ha : d.Arranged waiting) (line : Line) (hphi : line.isPhi = false)
    (hslot : line.isReturnSlot = false) (htargets : ∀ l ∈ line.targets, allowed l) :
    Adds old allowed d (d.append line) := by
  have hn := ha.numbered
  have hc := ha.current_mem
  refine ⟨by simp, .inl rfl, fun l hl => ?_, fun source target hb => ?_, Nat.le_refl _⟩
  · rw [code_append line hn hc hl]
    split
    · exact .concat _ hphi hslot
    · exact .refl ..
  · exact ((branches_append hn hc line).1 hb).imp_right fun ⟨hs, ht⟩ => ⟨.inl hs, htargets _ ht⟩

private theorem adds_newBlock (hn : d.Numbered) (role : BlockRole) :
    Adds old allowed d (d.newBlock role).2 := by
  refine ⟨by simp, .inl rfl, fun l hl => ?_, fun source target hb => .inl ?_, Nat.le_refl _⟩
  · rw [code_newBlock role hn hl]
    exact .refl ..
  · exact (branches_newBlock hn role).1 hb

/-- Phis add no branch. -/
theorem branches_addPhis (hn : d.Numbered) {label : Label} (hl : label ∈ d.labels)
    (types : List ScalarType) {source target : Label} :
    (d.addPhis label types).2.Branches source target ↔ d.Branches source target := by
  unfold Branches
  rw [labels_addPhis]
  refine and_congr_right fun hs => ?_
  rw [code_addPhis hn hl types hs]
  split
  · rw [List.flatMap_append, (onlyPhis_emptyPhis _ _).unended.targets, List.append_nil]
  · exact Iff.rfl

/-- A new block with phis changes nothing elsewhere. -/
theorem adds_newJoin (hn : d.Numbered) (role : BlockRole) (types : List ScalarType) :
    Adds old allowed d (d.newJoin role types) := by
  have hn' := hn.newBlock role
  have hnew : (d.newBlock role).1 ∈ (d.newBlock role).2.labels := by simp
  refine ⟨by simp [newJoin], .inl (by simp [newJoin]), fun l hl => ?_, fun source target hb => ?_,
    by simp [newJoin]⟩
  · rw [newJoin, code_addPhis hn' hnew types (by simp [hl]), if_neg (newBlock_ne role hn hl),
      code_newBlock role hn hl]
    exact .refl ..
  · exact .inl ((branches_newBlock hn role).1 ((branches_addPhis hn' hnew types).1 hb))

/-- The phis of a new block. -/
theorem joined_newJoin (hn : d.Numbered) (role : BlockRole) (types : List ScalarType) :
    (d.newJoin role types).joined (d.newBlock role).1 = phiValues d.nextValue types := by
  rw [joined, newJoin, code_addPhis (hn.newBlock role) (by simp) types (by simp), if_pos rfl,
    code_newBlock_self, List.nil_append, nextValue_newBlock]
  generalize d.nextValue = next
  induction types generalizing next with
  | nil => rfl
  | cons type types ih =>
    rw [emptyPhis, List.filterMap_cons, ih]
    rfl

/-- Edges make the phis of one block grow. -/
theorem adds_addEdges (hn : d.Numbered) {label : Label} (hl : label ∈ d.labels)
    (values : Array Operand) : Adds old allowed d (d.addEdges label values) := by
  refine adds_modifyLines hn hl (toList_addEdges values) (.of_forall₂ ?_) ?_
  -- The values and the lines are gone through together, as far as both go.
  · generalize values.toList = vs
    generalize d.code label = lines
    induction lines generalizing vs with
    | nil => cases vs <;> exact .nil
    | cons line lines ih =>
      cases vs with
      | nil => exact forall₂_lineGrown_refl _
      | cons v vs => exact .cons (.addEdge ..) (ih vs)
  · rw [List.flatMap_def, List.flatMap_def, map_routeEdges]
    exact fun line value => line.targets_addEdge value d.current

private theorem adds_defineAtEntry (hn : d.Numbered) (he : entryLabel ∈ d.labels)
    (type : NativeType) : Adds old allowed d (d.defineAtEntry (.alloca · type .ret)).2 := by
  refine adds_skipValue.trans (adds_modifyLines hn.skipValue he (Array.toList_append ..) ?_ ?_)
  · exact ⟨[.alloca d.nextValue type .ret], d.code entryLabel, [],
      by simp [code, lines, skipValue], fun _ => rfl, by simp [Line.isReturnSlot],
      forall₂_lineGrown_refl _, by simp⟩
  · rw [List.flatMap_append]
    rfl

/-- Storing fields appends two lines for each. -/
private theorem adds_storeFields (ha : d.Arranged waiting) (slot : ValueId) (index : Nat)
    (values : List Operand) : Adds old allowed d (d.storeFields slot index values) := by
  induction values generalizing d index with
  | nil => exact .refl ..
  | cons v values ih =>
    have ha' := ha.skipValue.append (.field d.nextValue index slot)
    have hfield : Adds old allowed d (d.skipValue.append (.field d.nextValue index slot)) :=
      adds_skipValue.trans (adds_append ha.skipValue _ rfl rfl (by simp [Line.targets]))
    have hstore := hfield.trans
      (adds_append ha' (.store v d.nextValue) rfl rfl (by simp [Line.targets]))
    exact hstore.trans (ih (ha'.append _) (index + 1))

/-- Returning a structure makes a slot, stores the fields and appends two lines. -/
theorem adds_retPacked (ha : d.Arranged waiting) (fields : List ScalarType)
    (values : List Operand) : Adds old allowed d (d.retPacked fields values) := by
  have hslot : (d.defineAtEntry (.alloca · (.packed fields) .ret)).2.Arranged waiting :=
    ha.skipValue.modifyLines ..
  have hstore := (hslot.storeFields d.nextValue 0 values).skipValue
  refine ((adds_defineAtEntry ha.numbered ha.entry_mem _).trans
    (adds_storeFields hslot d.nextValue 0 values)).trans ?_
  exact adds_skipValue.trans ((adds_append hstore (.loadPacked ..) rfl rfl
    (by simp [Line.targets])).trans (adds_append (hstore.append _) (.retPacked ..) rfl rfl
      (by simp [Line.targets])))

/-! ## New blocks -/

variable (hold : ∀ l, l ∉ d.labels → l.role.joins = false → allowed l)

include hold in
/-- Going on in a new block adds a branch to it. -/
theorem adds_goOn (ha : d.Arranged waiting) (role : BlockRole) (hrole : role.joins = false) :
    Adds d.labels allowed d (d.goOn role) := by
  have hnew := newBlock_not_mem role ha.numbered
  have hbranch : ∀ l ∈ (Line.br (d.newBlock role).1).targets, allowed l := by
    intro l hl
    rw [List.mem_singleton.1 hl]
    exact hold _ hnew hrole
  exact ((adds_newBlock ha.numbered role).trans
    (adds_append (ha.newBlock role) _ rfl rfl hbranch)).trans (adds_place hnew)

/-- The arms of a conditional are new blocks. -/
theorem arms_not_mem (hn : d.Numbered) : d.arms.1 ∉ d.labels ∧ d.arms.2 ∉ d.labels := by
  refine ⟨newBlock_not_mem .ifThen hn, fun h => ?_⟩
  refine newBlock_not_mem .ifElse (hn.newBlock .ifThen) ?_
  rw [labels_newBlock]
  exact List.mem_append_left _ h

include hold in
/-- The branch of a conditional goes to its arms, which are new. -/
theorem adds_fork (ha : d.Arranged waiting) (condition : Operand) :
    Adds d.labels allowed d (d.fork condition) := by
  have hfirst := ha.newBlock .ifThen
  refine ((adds_newBlock ha.numbered .ifThen).trans (adds_newBlock hfirst.numbered .ifElse)).trans
    (adds_append (hfirst.newBlock .ifElse) (.condBr ..) rfl rfl fun l hl => ?_)
  obtain rfl | rfl : l = d.arms.1 ∨ l = d.arms.2 := by simpa [Line.targets] using hl
  · exact hold _ (arms_not_mem ha.numbered).1 rfl
  · exact hold _ (arms_not_mem ha.numbered).2 rfl

include hold in
/-- A guard branches to two new blocks, and goes on in one of them. -/
theorem adds_guard (ha : d.Arranged waiting) (condition : Operand) :
    Adds d.labels allowed d (d.guard condition) := by
  have htrap := ha.newBlock .truncTrap
  have hok := htrap.newBlock .truncOk
  let trap := (d.newBlock .truncTrap).1
  let ok := ((d.newBlock .truncTrap).2.newBlock .truncOk).1
  have hnew : trap ∉ d.labels ∧ ok ∉ d.labels := by
    refine ⟨newBlock_not_mem .truncTrap ha.numbered, fun h => ?_⟩
    refine newBlock_not_mem .truncOk htrap.numbered ?_
    rw [labels_newBlock]
    exact List.mem_append_left _ h
  have hbranch : ∀ l ∈ (Line.condBr condition ok trap).targets, allowed l := by
    intro l hl
    obtain rfl | rfl : l = ok ∨ l = trap := by simpa [Line.targets] using hl
    · exact hold _ hnew.2 rfl
    · exact hold _ hnew.1 rfl
  -- The block that traps is filled and left, and the other one is placed last.
  have hplace := ((hok.append (.condBr condition ok trap)).perm (.swap ..)).place
  have hblocks : Adds d.labels allowed d ((d.newBlock .truncTrap).2.newBlock .truncOk).2 :=
    (adds_newBlock ha.numbered .truncTrap).trans (adds_newBlock htrap.numbered .truncOk)
  refine (hblocks.trans ((adds_append hok _ rfl rfl hbranch).trans (adds_place hnew.1))).trans ?_
  refine (adds_append hplace .trap rfl rfl (by simp [Line.targets])).trans ?_
  exact (adds_append (hplace.append .trap) .unreachable rfl rfl (by simp [Line.targets])).trans
    (adds_place hnew.2)

end Adds

end Draft

end WasmLowering.Ssa
