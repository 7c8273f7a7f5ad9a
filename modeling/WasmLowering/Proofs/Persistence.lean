import WasmLowering.Proofs.Phis

/-!
# What later moves keep

Once a block is placed, its lines stay: slots for returned structures may come in front of the entry
block, and lines without phis behind the others. While a construct is open, so do the operands below
it, and its end block keeps its phis, which only gain edges.

The lines that a block still gets, seen from some point of a run, are determined by the finished
block. They are what is left to run once the lines of that point have been run.

## Key results

- `Moves.extended`: how a placed block changes
- `Moves.stays_open`: what lies below an open construct, and the phis in its end block
- `Remaining`, `Remaining.split`: the lines that the insertion block still gets
-/

namespace WasmLowering.Ssa

/-! ## Lines -/

/-- How the lines of a placed block may change. -/
def Extended (entry : Prop) (old new : List Line) : Prop :=
  ∃ front back, new = front ++ old ++ back ∧ (front ≠ [] → entry) ∧
    (∀ line ∈ front, line.isReturnSlot = true) ∧
    ∀ line ∈ back, line.isPhi = false ∧ line.isReturnSlot = false

section Extended

variable {entry : Prop} {xs ys zs : List Line}

theorem Extended.refl (entry : Prop) (xs : List Line) : Extended entry xs xs :=
  ⟨[], [], by simp, by simp, by simp, by simp⟩

/-- What is extended twice is extended. -/
theorem Extended.trans (h : Extended entry xs ys) (h' : Extended entry ys zs) :
    Extended entry xs zs := by
  obtain ⟨front, back, rfl, hentry, hfront, hback⟩ := h
  obtain ⟨front', back', rfl, hentry', hfront', hback'⟩ := h'
  refine ⟨front' ++ front, back ++ back', by simp, ?_, ?_, ?_⟩
  · intro hne
    by_cases h : front' = []
    · exact hentry fun h₁ => hne (by simp [h, h₁])
    · exact hentry' h
  · exact fun line hl => (List.mem_append.1 hl).elim (hfront' line) (hfront line)
  · exact fun line hl => (List.mem_append.1 hl).elim (hback line) (hback' line)

/-- A block other than the entry block gets lines at its end only. -/
theorem Extended.append (h : Extended entry xs ys) (hne : ¬ entry) :
    ∃ back, ys = xs ++ back ∧ ∀ line ∈ back, line.isPhi = false ∧ line.isReturnSlot = false := by
  obtain ⟨front, back, rfl, hentry, -, hback⟩ := h
  obtain rfl : front = [] := by
    by_contra h
    exact hne (hentry h)
  exact ⟨back, by simp, hback⟩

/-- The lines of a placed block stay. -/
theorem Extended.mem (h : Extended entry xs ys) {line : Line} (hl : line ∈ xs) : line ∈ ys := by
  obtain ⟨front, back, rfl, -, -, -⟩ := h
  simp [hl]

/-- Return slots in front of the same lines, and other lines behind: the return slots can be told
    from what was there before by their number. -/
theorem back_unique {front front' back back' : List Line}
    (h : front ++ xs ++ back = front' ++ xs ++ back')
    (hfront : ∀ line ∈ front, line.isReturnSlot = true)
    (hback : ∀ line ∈ back, line.isReturnSlot = false)
    (hfront' : ∀ line ∈ front', line.isReturnSlot = true)
    (hback' : ∀ line ∈ back', line.isReturnSlot = false) : back = back' := by
  -- All other return slots are in front, so the two fronts have the same length.
  have hnone : back.countP Line.isReturnSlot = 0 := List.countP_eq_zero.2 (by simpa using hback)
  have hnone' : back'.countP Line.isReturnSlot = 0 := List.countP_eq_zero.2 (by simpa using hback')
  have hcount := congrArg (List.countP Line.isReturnSlot) h
  simp only [List.countP_append, List.countP_eq_length.2 hfront, List.countP_eq_length.2 hfront',
    hnone, hnone'] at hcount
  rw [List.append_assoc, List.append_assoc] at h
  obtain ⟨-, h⟩ := List.append_inj h (by omega)
  exact List.append_cancel_left h

end Extended

end WasmLowering.Ssa

namespace WasmLowering.Lowering

open Ssa Draft

/-! ## Placed blocks -/

section Placed

variable {s t u : State} {l : Label}

/-- A block that is not waiting, and that branches can still come to, is the start of a loop. -/
theorem State.Disciplined.settled (hd : s.Disciplined) (hl : l ∈ s.draft.labels)
    (hw : l ∉ s.waiting) (hrole : l.role.joins = true) : s.Settled l := by
  refine ⟨hl, fun c hc hmem => ?_⟩
  -- The blocks of a construct wait, but for the start of a loop, which has no phis.
  have hwait : l ∉ c.waiting := fun h => hw (List.mem_flatMap.2 ⟨c, hc, h⟩)
  cases hk : c.kind with
  | loop head =>
    rw [Construct.waiting, hk] at hwait
    rw [Construct.blocks, hk] at hmem
    obtain h | h := List.mem_cons.1 hmem
    · exact hwait (h ▸ List.mem_cons_self)
    · rw [List.mem_singleton.1 h, ((hd.labelled c hc).head hk).2] at hrole
      cases hrole
  | _ =>
    rw [Construct.waiting, hk] at hwait
    rw [Construct.blocks, hk] at hmem
    exact hwait hmem

/-- A block that was placed does not wait again. -/
theorem Move.not_waiting (hm : Move s t) (hd : s.Disciplined) (hl : l ∈ s.draft.labels)
    (hw : l ∉ s.waiting) : l ∉ t.waiting := by
  intro hwait
  obtain ⟨c, hc, hmem⟩ := List.mem_flatMap.1 hwait
  have hout : ∀ c ∈ s.constructs, l ∉ c.waiting := fun c hc h =>
    hw (List.mem_flatMap.2 ⟨c, hc, h⟩)
  -- Only blocks of a construct that is opened start to wait, and these are new.
  obtain ⟨-, hcons⟩ | ⟨depth, c', rest, other, params, -, top, -, -, rfl⟩ |
    ⟨depth, c', rest, -, top, -, -, rfl⟩ := hm.shape hd
  · obtain hcons | ⟨c', hopen⟩ := hcons
    · exact hout c (hcons ▸ hc) hmem
    · rw [hopen.constructs] at hc
      obtain rfl | hc := List.mem_cons.1 hc
      · exact hopen.blocks l (c.waiting_subset_blocks hmem) hl
      · exact hout c hc hmem
  · obtain rfl | hc := List.mem_cons.1 hc
    · obtain rfl := List.mem_singleton.1 hmem
      exact hout c' (by simp [top]) c'.exit_mem_waiting
    · exact hout c (by simp [top, hc]) hmem
  · exact hout c (by rw [top]; exact List.mem_cons_of_mem _ hc) hmem

/-- Along a sequence of moves, a block that was placed does not wait again. -/
theorem Moves.not_waiting (hm : Moves s t) (hd : s.Disciplined) (hl : l ∈ s.draft.labels)
    (hw : l ∉ s.waiting) : l ∉ t.waiting := by
  induction hm with
  | refl => exact hw
  | tail hms hm ih =>
    exact hm.not_waiting (Moves.disciplined hms hd) (Moves.labels hms hd hl) ih

/-- Phis whose edges come from the same blocks have the same edges. -/
private theorem eq_of_lineGrown {line line' : Line} (h : LineGrown line line') {d d' : Draft}
    (hline : line.isPhi = true → d.EdgesMatch l line)
    (hline' : line'.isPhi = true → d'.EdgesMatch l line')
    (hbranches : ∀ source, d'.Branches source l → d.Branches source l) : line' = line := by
  cases h with
  | same => rfl
  | edges id type edges more =>
    obtain ⟨-, hold⟩ := hline rfl
    obtain ⟨hnodup, hnew⟩ := hline' rfl
    suffices more = [] by rw [this, List.append_nil]
    refine List.eq_nil_iff_forall_not_mem.2 fun edge hedge => ?_
    -- A new edge would come from a block that branched here before, and so had its edge already.
    have hsource : edge.2 ∈ (edges ++ more).map Prod.snd :=
      List.mem_map_of_mem (List.mem_append_right _ hedge)
    have holder := (hold edge.2).2 (hbranches _ ((hnew edge.2).1 hsource))
    simp only [Line.edges, List.map_append] at hnodup
    exact (List.nodup_append.1 hnodup).2.2 _ holder _ (List.mem_map_of_mem hedge) rfl

/-- A placed block keeps its lines in a move. -/
theorem Move.extended (hm : Move s t) (hd : s.Disciplined) (hl : l ∈ s.draft.labels)
    (hw : l ∉ s.waiting) : Extended (l = entryLabel) (s.draft.code l) (t.draft.code l) := by
  have hd' := hm.disciplined hd
  obtain ⟨hadds, -⟩ | ⟨depth, c, rest, other, params, -, -, -, -, rfl⟩ |
    ⟨depth, c, rest, -, top, -, -, rfl⟩ := hm.shape hd
  · obtain ⟨front, middle, back, hcode, hentry, hfront, hmiddle, hback⟩ := hadds.grown l hl
    suffices middle = s.draft.code l by
      exact ⟨front, back, by rw [hcode, this], hentry, hfront, hback⟩
    cases hrole : l.role.joins with
    | false => exact eq_of_forall₂_lineGrown hmiddle (hd.sound.noPhis l hl hrole)
    | true =>
      -- No branch comes to the block any more, so its phis gain no edge.
      obtain ⟨-, hbranches, -⟩ := hm.settled hd (hd.settled hl hw hrole)
      have hmem : ∀ line ∈ middle, line ∈ t.draft.code l := fun line h => by simp [hcode, h]
      have hall : List.Forall₂ (fun a b => a = b) (s.draft.code l) middle := by
        refine List.forall₂_iff_get.2 ⟨hmiddle.length_eq, fun i h₁ h₂ => ?_⟩
        exact (eq_of_lineGrown (hmiddle.get h₁ h₂)
          (hd.sound.edges l hl _ (List.get_mem _ _))
          (hd'.sound.edges l (hadds.labels hl) _ (hmem _ (List.get_mem _ _)))
          fun source => (hbranches source).1).symm
      exact (List.forall₂_eq_eq_eq ▸ hall : s.draft.code l = middle).symm
  · exact .refl _ _
  · have hne : l ≠ c.exit := by
      rintro rfl
      exact hw (State.exit_mem_waiting (by rw [top]; exact List.mem_cons_self))
    rw [code_left hd top hl, if_neg hne]
    exact .refl _ _

/-- A placed block keeps its lines. -/
theorem Moves.extended (hm : Moves s t) (hd : s.Disciplined) (hl : l ∈ s.draft.labels)
    (hw : l ∉ s.waiting) : Extended (l = entryLabel) (s.draft.code l) (t.draft.code l) := by
  induction hm with
  | refl => exact .refl _ _
  | tail hms hm ih =>
    exact ih.trans (hm.extended (Moves.disciplined hms hd) (Moves.labels hms hd hl)
      (Moves.not_waiting hms hd hl hw))

end Placed

/-! ## Open constructs -/

section Open

variable {s t u : State} {c c' : Construct}

/-- Open constructs have different end blocks. -/
theorem State.Disciplined.eq_of_exit_eq (hd : s.Disciplined) (hc : c ∈ s.constructs)
    (hc' : c' ∈ s.constructs) (h : c.exit = c'.exit) : c = c' := by
  by_contra hne
  have hnodup := (List.nodup_cons.1 hd.sound.nodup).2
  have hdisjoint := (List.nodup_flatMap.1 hnodup).2
  have : Std.Symm (Function.onFun List.Disjoint Construct.waiting) := ⟨fun _ _ h => h.symm⟩
  exact hdisjoint.forall hc hc' hne c.exit_mem_waiting (h ▸ c'.exit_mem_waiting)

/-- An open construct stays open in a move, perhaps in its other arm, or the move closes it. -/
theorem Move.open_or_left (hm : Move s t) (hd : s.Disciplined) (hc : c ∈ s.constructs) :
    (∃ kind, { c with kind } ∈ t.constructs ∧
      Grown (c.exit = entryLabel) (s.draft.code c.exit) (t.draft.code c.exit)) ∨
    ∃ rest, s.constructs = c :: rest ∧ t = s.left c rest := by
  have hmem := hd.mem_labels hc c.exit_mem_blocks
  obtain ⟨hadds, hcons⟩ | ⟨depth, c', rest, other, params, -, top, -, -, rfl⟩ |
    ⟨depth, c', rest, -, top, -, -, rfl⟩ := hm.shape hd
  · refine .inl ⟨c.kind, ?_, hadds.grown _ hmem⟩
    obtain hcons | ⟨c', hopen⟩ := hcons
    · rw [hcons]
      exact hc
    · rw [hopen.constructs]
      exact List.mem_cons_of_mem _ hc
  · rw [top] at hc
    obtain rfl | hc := List.mem_cons.1 hc
    · exact .inl ⟨.elseArm, List.mem_cons_self, .refl _ _⟩
    · exact .inl ⟨c.kind, List.mem_cons_of_mem _ hc, .refl _ _⟩
  · rw [top] at hc
    obtain rfl | hc := List.mem_cons.1 hc
    · exact .inr ⟨rest, top, rfl⟩
    -- Only the end block of the construct that is left changes.
    · have hne : c.exit ≠ c'.exit := fun h =>
        hd.exit_not_mem top hc (h ▸ c.exit_mem_blocks)
      refine .inl ⟨c.kind, hc, ?_⟩
      rw [code_left hd top hmem, if_neg hne]
      exact .refl _ _

/-- The end block of a construct that was closed does not wait again. -/
theorem exit_not_waiting_left (hd : s.Disciplined) {rest : List Construct}
    (top : s.constructs = c :: rest) : c.exit ∉ (s.left c rest).waiting := by
  intro h
  obtain ⟨c', hc', hmem⟩ := List.mem_flatMap.1 h
  exact hd.exit_not_mem top hc' (c'.waiting_subset_blocks hmem)

/-- As long as a construct is open, what lies below it stays, and its phis only gain edges. -/
theorem Moves.stays_open (hm : Moves s u) (hd : s.Disciplined) (hf : s.Framed)
    (hc : c ∈ s.constructs) (hc' : c' ∈ u.constructs) (hexit : c'.exit = c.exit) :
    c'.results = c.results ∧ c'.base = c.base ∧
      u.stack.toList.take c.base = s.stack.toList.take c.base ∧
      Grown (c.exit = entryLabel) (s.draft.code c.exit) (u.draft.code c.exit) := by
  -- The induction goes from the first move on: `c` is open before it, and `c'` after the last one.
  induction hm using Relation.ReflTransGen.head_induction_on generalizing c with
  | refl =>
    obtain rfl := hd.eq_of_exit_eq hc' hc hexit
    exact ⟨rfl, rfl, rfl, .refl _ _⟩
  | @head first next hm hms ih =>
    have hd' := hm.disciplined hd
    obtain ⟨kind, hopen, hgrown⟩ | ⟨rest, top, rfl⟩ := hm.open_or_left hd hc
    · obtain ⟨hresults, hbase, hstack, hgrown'⟩ := ih hd' (hm.framed hf) hopen hexit
      have hbelow := hm.below hf hc
      exact ⟨hresults, hbase, hstack.trans hbelow, hgrown.trans hgrown'⟩
    · -- The construct was closed, and its end block with it.
      have hmem : c.exit ∈ (first.left c rest).draft.labels := by
        simpa [State.left] using hd.mem_labels hc c.exit_mem_blocks
      have hnot := Moves.not_waiting hms hd' hmem (exit_not_waiting_left hd top)
      exact absurd (hexit ▸ State.exit_mem_waiting hc') hnot

end Open

/-! ## Remaining lines -/

/-- The lines that the insertion block has in `last` after those that it has in `s`. -/
def Remaining (s last : State) (rest : List Line) : Prop :=
  ∃ front, last.draft.code s.draft.current = front ++ s.draft.code s.draft.current ++ rest ∧
    (∀ line ∈ front, line.isReturnSlot = true) ∧
    ∀ line ∈ rest, line.isPhi = false ∧ line.isReturnSlot = false

section Remaining

variable {s t last : State} {rest : List Line}

theorem State.Disciplined.current_not_waiting (hd : s.Disciplined) :
    s.draft.current ∉ s.waiting :=
  (List.nodup_cons.1 hd.sound.nodup).1

/-- Some lines are left to run when the insertion block is finished. -/
theorem Moves.remaining (hm : Moves s last) (hd : s.Disciplined) :
    ∃ rest, Remaining s last rest := by
  obtain ⟨front, back, hcode, -, hfront, hback⟩ :=
    Moves.extended hm hd hd.sound.current_mem hd.current_not_waiting
  exact ⟨back, front, hcode, hfront, hback⟩

/-- Lines that were appended to the insertion block are the first of the remaining ones. -/
theorem Remaining.split (h : Remaining s last rest) (hm : Moves s t) (hlast : Moves t last)
    (hd : s.Disciplined) {front new : List Line}
    (hcode : t.draft.code s.draft.current = front ++ s.draft.code s.draft.current ++ new)
    (hfront : ∀ line ∈ front, line.isReturnSlot = true)
    (hnew : ∀ line ∈ new, line.isReturnSlot = false) :
    ∃ rest', rest = new ++ rest' ∧
      (t.draft.current = s.draft.current → Remaining t last rest') := by
  obtain ⟨front₁, hcode₁, hfront₁, hrest⟩ := h
  have hmem := hd.sound.current_mem
  obtain ⟨front₂, back, hcode₂, -, hfront₂, hback⟩ :=
    Moves.extended hlast (Moves.disciplined hm hd) (Moves.labels hm hd hmem)
      (Moves.not_waiting hm hd hmem hd.current_not_waiting)
  -- Both sides are the lines of the finished block.
  have hboth : front₁ ++ s.draft.code s.draft.current ++ rest =
      (front₂ ++ front) ++ s.draft.code s.draft.current ++ (new ++ back) := by
    rw [← hcode₁, hcode₂, hcode]
    simp
  have hsame : rest = new ++ back := by
    refine back_unique hboth hfront₁ (fun line hl => (hrest line hl).2) ?_ ?_
    · exact fun line hl => (List.mem_append.1 hl).elim (hfront₂ line) (hfront line)
    · exact fun line hl => (List.mem_append.1 hl).elim (hnew line) fun hl => (hback line hl).2
  refine ⟨back, hsame, fun hcurrent => ⟨front₂, by rw [hcurrent]; exact hcode₂, hfront₂, hback⟩⟩

/-- The remaining lines are lines of the finished block. -/
theorem Remaining.mem (h : Remaining s last rest) {line : Line} (hl : line ∈ rest) :
    line ∈ last.draft.code s.draft.current := by
  obtain ⟨front, hcode, -, -⟩ := h
  rw [hcode]
  exact List.mem_append_right _ hl

end Remaining

end WasmLowering.Lowering
