import WasmLowering.Proofs.DraftSound

/-!
# Returns

What the returns of a function have to be: a return of nothing, of a value, or of a structure that
was read in the same block, as the type of the result says. The operations on drafts that append no
return keep this, and so does a return of the right type.

## Key results

- `Draft.Returning`: all returns are of one type
- `Draft.Returning.append`, `Draft.Returning.newJoin`, `Draft.Returning.retPacked`, …: one lemma for
  each operation
-/

namespace WasmLowering.Ssa

/-! ## Lines -/

/-- Whether a line returns. -/
def Line.isReturn : Line → Bool
  | retVoid | ret _ | retPacked .. => true
  | _ => false

/-- Whether a line of a block with the given lines returns a value of the given type, if it
    returns. -/
def Line.Returns (result : NativeType) (lines : List Line) : Line → Prop
  | retVoid => result = .void
  | ret value => result = .scalar value.type
  | retPacked id fields => result = .packed fields ∧ ∃ slot, loadPacked id fields slot ∈ lines
  | _ => True

/-- Phis do not return. -/
theorem Line.isReturn_of_isPhi {line : Line} (h : line.isPhi = true) : line.isReturn = false := by
  cases line with
  | phi => rfl
  | _ => cases h

theorem Line.returns_of_isReturn {result : NativeType} {lines : List Line} {line : Line}
    (h : line.isReturn = false) : line.Returns result lines := by
  cases line <;> trivial

/-- More lines do not matter. -/
theorem Line.Returns.mono {result : NativeType} {lines more : List Line} {line : Line}
    (h : line.Returns result lines)
    (hmore : ∀ id fields slot, loadPacked id fields slot ∈ lines →
      loadPacked id fields slot ∈ more) : line.Returns result more := by
  cases line with
  | retPacked id fields => exact ⟨h.1, h.2.imp fun slot hs => hmore id fields slot hs⟩
  | _ => exact h

namespace Draft

/-! ## Drafts -/

/-- All returns of a draft are of one type. -/
def Returning (d : Draft) (result : NativeType) : Prop :=
  ∀ l ∈ d.labels, ∀ line ∈ d.code l, line.Returns result (d.code l)

section Returning

variable {d : Draft} {result : NativeType} {waiting : List Label} {live : Bool}

/-- The lines of a block may be changed if all reads of structures stay. -/
theorem Returning.modifyLines (h : d.Returning result) (hn : d.Numbered) {label : Label}
    (hl : label ∈ d.labels) {f : Array Line → Array Line} {lines : List Line}
    (hf : (f (d.lines label)).toList = lines)
    (hlines : ∀ line ∈ lines, line ∈ d.code label ∨ line.Returns result lines)
    (hkeep : ∀ id fields slot, .loadPacked id fields slot ∈ d.code label →
      .loadPacked id fields slot ∈ lines) : (d.modifyLines label f).Returning result := by
  subst hf
  intro l hm line hline
  rw [labels_modifyLines] at hm
  rw [code_modifyLines hn hl hm] at hline ⊢
  split at hline
  · next heq =>
    subst heq
    rw [if_pos rfl]
    obtain hold | hnew := hlines line hline
    · exact (h l hm line hold).mono hkeep
    · exact hnew
  · next heq =>
    rw [if_neg heq]
    exact h l hm line hline

theorem Returning.skipValue (h : d.Returning result) : d.skipValue.Returning result := h

theorem Returning.place (h : d.Returning result) (label : Label) :
    (d.place label).Returning result := h

/-- A line that returns a value of the right type may be appended. -/
theorem Returning.close (h : d.Returning result) (ha : d.Arranged waiting) {line : Line}
    (hline : line.Returns result (d.code d.current ++ [line])) :
    (d.append line).Returning result := by
  have hlines : ((d.lines d.current).push line).toList = d.code d.current ++ [line] :=
    Array.toList_push
  refine h.modifyLines ha.numbered ha.current_mem hlines (fun other ho => ?_)
    fun id fields slot hm => List.mem_append_left _ hm
  obtain ho | ho := List.mem_append.1 ho
  · exact .inl ho
  · rw [List.mem_singleton.1 ho]
    exact .inr hline

theorem Returning.append (h : d.Returning result) (ha : d.Arranged waiting) (line : Line)
    (hline : line.isReturn = false) : (d.append line).Returning result :=
  h.close ha (Line.returns_of_isReturn hline)

/-- Computations do not return. -/
theorem Returning.assigned (h : d.Returning result) (ha : d.Arranged waiting) (cs : List Rhs) :
    (d.assigned cs).Returning result := by
  induction cs generalizing d with
  | nil => exact h
  | cons rhs cs ih =>
    exact ih (h.skipValue.append ha.skipValue _ rfl) (ha.skipValue.append _)

/-- A new block is empty. -/
theorem Returning.newBlock (h : d.Returning result) (hn : d.Numbered) (role : BlockRole) :
    (d.newBlock role).2.Returning result := by
  intro l hl line hline
  rw [labels_newBlock, List.mem_append, List.mem_singleton] at hl
  obtain hl | rfl := hl
  · rw [code_newBlock role hn hl] at hline ⊢
    exact h l hl line hline
  · rw [code_newBlock_self] at hline
    cases hline

/-- New phis do not return. -/
theorem Returning.addPhis (h : d.Returning result) (hn : d.Numbered) {label : Label}
    (hl : label ∈ d.labels) (types : List ScalarType) :
    (d.addPhis label types).2.Returning result := by
  intro l hm line hline
  rw [labels_addPhis] at hm
  rw [code_addPhis hn hl types hm] at hline ⊢
  split at hline
  · next heq =>
    rw [if_pos heq]
    obtain hline | hline := List.mem_append.1 hline
    · exact (h l hm line hline).mono fun id fields slot hs => List.mem_append_left _ hs
    · have hphi := onlyPhis_emptyPhis _ _ line hline
      exact Line.returns_of_isReturn (Line.isReturn_of_isPhi hphi)
  · next heq =>
    rw [if_neg heq]
    exact h l hm line hline

theorem Returning.newJoin (h : d.Returning result) (hn : d.Numbered) (role : BlockRole)
    (types : List ScalarType) : (d.newJoin role types).Returning result :=
  (h.newBlock hn role).addPhis (hn.newBlock role) (by simp) types

/-- Phis without edges are no returns, so they may be dropped. -/
theorem Returning.dropEmptyPhis (h : d.Returning result) (hn : d.Numbered) {label : Label}
    (hl : label ∈ d.labels) : (d.dropEmptyPhis label).Returning result := by
  refine h.modifyLines hn hl Array.toList_filter (fun line hline => ?_) fun id fields slot hm => ?_
  · exact .inl (List.mem_filter.1 hline).1
  · exact List.mem_filter.2 ⟨hm, rfl⟩

/-- A branch to a waiting block returns nothing. -/
theorem Returning.jump (h : d.Returning result) (ha : d.Arranged waiting) {label : Label}
    (hl : label ∈ d.labels) (values : Array Operand) :
    ((d.addEdges label values).append (.br label)).Returning result := by
  -- Edges change phis only, and phis neither return nor read a structure.
  have hedges : (d.addEdges label values).Returning result := by
    refine h.modifyLines ha.numbered hl (toList_addEdges values) (fun line hline => ?_)
      fun id fields slot hm => ?_
    · exact (mem_or_isPhi_of_mem_routeEdges hline).imp_right fun hphi =>
        Line.returns_of_isReturn (Line.isReturn_of_isPhi hphi)
    · exact mem_routeEdges_of_mem hm rfl
  exact hedges.append (ha.modifyLines label _) _ rfl

/-! ## Combined operations -/

theorem Returning.goOn (h : d.Returning result) (ha : d.Arranged waiting) (role : BlockRole) :
    (d.goOn role).Returning result :=
  ((h.newBlock ha.numbered role).append (ha.newBlock role) _ rfl).place _

/-- The two arms of a conditional are empty. -/
theorem Returning.fork (h : d.Returning result) (ha : d.Arranged waiting) (condition : Operand) :
    (d.fork condition).Returning result :=
  ((h.newBlock ha.numbered .ifThen).newBlock (ha.newBlock .ifThen).numbered .ifElse).append
    ((ha.newBlock .ifThen).newBlock .ifElse) _ rfl

/-- The block of a failed check traps, and does not return. -/
theorem Returning.guard (h : d.Returning result) (ha : d.Arranged waiting) (condition : Operand) :
    (d.guard condition).Returning result := by
  have hblocks := (ha.newBlock .truncTrap).newBlock .truncOk
  let trap := (d.newBlock .truncTrap).1
  let ok := ((d.newBlock .truncTrap).2.newBlock .truncOk).1
  have hbranch := ((h.newBlock ha.numbered .truncTrap).newBlock (ha.newBlock .truncTrap).numbered
    .truncOk).append hblocks (.condBr condition ok trap) rfl
  have hplace := ((hblocks.append (.condBr condition ok trap)).perm (.swap ..)).place
  exact (((hbranch.place trap).append hplace .trap rfl).append (hplace.append _) .unreachable
    rfl).place ok

/-- Storing the fields of a structure does not return. -/
theorem Returning.storeFields (h : d.Returning result) (ha : d.Arranged waiting) (slot : ValueId)
    (index : Nat) (values : List Operand) :
    (d.storeFields slot index values).Returning result := by
  induction values generalizing d index with
  | nil => exact h
  | cons v values ih =>
    have hfield := h.skipValue.append ha.skipValue (.field d.nextValue index slot) rfl
    exact ih (hfield.append (ha.skipValue.append _) (.store v d.nextValue) rfl)
      ((ha.skipValue.append _).append _) (index + 1)

/-- A structure of the right type may be returned. -/
theorem Returning.retPacked {fields : List ScalarType} (h : d.Returning (.packed fields))
    (ha : d.Arranged waiting) (values : List Operand) :
    (d.retPacked fields values).Returning (.packed fields) := by
  let alloca : ValueId → Line := (.alloca · (.packed fields) .ret)
  have ha₁ : (d.defineAtEntry alloca).2.Arranged waiting := ha.skipValue.modifyLines ..
  -- The slot goes in front of the entry block, which may be the insertion block.
  have h₁ : (d.defineAtEntry alloca).2.Returning (.packed fields) := by
    have hlines : (#[alloca d.nextValue] ++ d.skipValue.lines entryLabel).toList =
        alloca d.nextValue :: d.code entryLabel := Array.toList_append ..
    refine h.skipValue.modifyLines ha.numbered.skipValue ha.entry_mem hlines (fun line hline => ?_)
      fun id fields slot hm => List.mem_cons_of_mem _ hm
    obtain rfl | hline := List.mem_cons.1 hline
    · exact .inr trivial
    · exact .inl hline
  let d₂ := (d.defineAtEntry alloca).2.storeFields d.nextValue 0 values
  have ha₂ : d₂.Arranged waiting := ha₁.storeFields ..
  have h₂ : d₂.Returning (.packed fields) := h₁.storeFields ha₁ d.nextValue 0 values
  -- The structure is read in the block that returns it.
  let load : Line := .loadPacked d₂.nextValue fields d.nextValue
  have h₃ := h₂.skipValue.append ha₂.skipValue load rfl
  refine h₃.close (ha₂.skipValue.append _) ⟨rfl, d.nextValue, List.mem_append_left _ ?_⟩
  show load ∈ (d₂.skipValue.append load).code d₂.skipValue.current
  rw [code_append load ha₂.skipValue.numbered ha₂.skipValue.current_mem ha₂.skipValue.current_mem]
  simp

end Returning

end Draft

end WasmLowering.Ssa
