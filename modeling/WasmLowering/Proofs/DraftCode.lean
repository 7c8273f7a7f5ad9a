import WasmLowering.Proofs.ControlFlow

/-!
# The code of a draft

A draft is looked at through two functions: `labels`, the blocks that exist, and `code`, the lines
of each. A draft is numbered if the block with ordinal `i` stands at position `i` and the layout
lists every block once. Every operation on drafts keeps this, and one lemma for each operation says
what it does to the labels and to the code.
-/

namespace WasmLowering.Ssa

/-- Inserting a label after another one adds it to the list. -/
private theorem perm_insertAfter (anchor x : Label) (labels : List Label) :
    (insertAfter anchor x labels).Perm (x :: labels) := by
  induction labels with
  | nil => exact .refl _
  | cons y ys ih =>
    simp only [insertAfter]
    split
    · exact .swap x y ys
    · exact (ih.cons y).trans (.swap x y ys)

namespace Draft

/-! ## Labels and code -/

/-- The labels of the blocks that exist, in the order of creation. -/
def labels (d : Draft) : List Label :=
  d.blocks.toList.map Block.label

/-- The lines of a block, as a list. -/
def code (d : Draft) (label : Label) : List Line :=
  (d.lines label).toList

/-- Blocks stand where their ordinals say, and the layout has each of them once. -/
structure Numbered (d : Draft) : Prop where
  ordinal : ∀ (i : Nat) (b : Block), d.blocks[i]? = some b → b.label.ordinal = i
  layout : d.layout.Perm d.labels

/-- The block with a label of the draft. -/
theorem exists_block {d : Draft} (hn : d.Numbered) {label : Label} (h : label ∈ d.labels) :
    ∃ b, d.blocks[label.ordinal]? = some b ∧ b.label = label := by
  obtain ⟨b, hb, rfl⟩ := List.mem_map.1 h
  obtain ⟨i, hi⟩ := List.getElem?_of_mem hb
  rw [Array.getElem?_toList] at hi
  exact ⟨b, by rw [hn.ordinal i b hi, hi], rfl⟩

private theorem ordinal_lt {d : Draft} (hn : d.Numbered) {label : Label} (h : label ∈ d.labels) :
    label.ordinal < d.blocks.size := by
  obtain ⟨b, hb, -⟩ := exists_block hn h
  exact (Array.getElem?_eq_some_iff.1 hb).1

/-- Two labels of a draft with the same ordinal are the same. -/
private theorem eq_of_ordinal_eq {d : Draft} (hn : d.Numbered) {l m : Label} (hl : l ∈ d.labels)
    (hm : m ∈ d.labels) (h : l.ordinal = m.ordinal) : l = m := by
  obtain ⟨b, hb, rfl⟩ := exists_block hn hl
  obtain ⟨c, hc, rfl⟩ := exists_block hn hm
  rw [h, hc, Option.some.injEq] at hb
  rw [hb]

/-- The ordinals of the labels are the numbers below the number of blocks. -/
private theorem map_ordinal_labels {d : Draft} (hn : d.Numbered) :
    d.labels.map Label.ordinal = List.range d.blocks.size := by
  apply List.ext_getElem?
  intro i
  simp only [labels, List.map_map, List.getElem?_map, Array.getElem?_toList]
  by_cases hi : i < d.blocks.size
  · have hb : d.blocks[i]? = some d.blocks[i] := Array.getElem?_eq_getElem hi
    rw [hb, List.getElem?_range hi]
    simpa using hn.ordinal i _ hb
  · have hr : (List.range d.blocks.size)[i]? = none := by simpa using hi
    rw [Array.getElem?_eq_none (by omega), hr]
    rfl

/-- No label occurs twice. -/
theorem nodup_labels {d : Draft} (hn : d.Numbered) : d.labels.Nodup := by
  apply List.Nodup.of_map Label.ordinal
  rw [map_ordinal_labels hn]
  exact List.nodup_range

/-! ## Changing the lines of a block -/

section ModifyLines

variable (d : Draft) (label : Label) (f : Array Line → Array Line)

@[simp] theorem labels_modifyLines : (d.modifyLines label f).labels = d.labels := by
  simp only [labels, modifyLines, Array.toList_modify]
  apply List.ext_getElem?
  intro i
  simp only [List.getElem?_map, List.getElem?_modify]
  -- A position of the list is that of the block or not, and the label stays in either case.
  cases d.blocks.toList[i]? with
  | none => rfl
  | some b => by_cases h : label.ordinal = i <;> simp [h]

@[simp] theorem layout_modifyLines : (d.modifyLines label f).layout = d.layout := rfl

@[simp] theorem current_modifyLines : (d.modifyLines label f).current = d.current := rfl

@[simp] theorem nextValue_modifyLines : (d.modifyLines label f).nextValue = d.nextValue := rfl

/-- Only the block with the ordinal of the label gets other lines. -/
theorem lines_modifyLines (other : Label) :
    (d.modifyLines label f).lines other =
      if label.ordinal = other.ordinal ∧ other.ordinal < d.blocks.size then f (d.lines other)
      else d.lines other := by
  simp only [lines, modifyLines, Array.getElem?_modify]
  -- A block with this ordinal may not exist.
  by_cases h : label.ordinal = other.ordinal
  · cases hb : d.blocks[other.ordinal]? with
    | none =>
      have : ¬ other.ordinal < d.blocks.size := by
        simpa using Array.getElem?_eq_none_iff.1 hb
      simp [h, this]
    | some b =>
      have : other.ordinal < d.blocks.size := (Array.getElem?_eq_some_iff.1 hb).1
      simp [h, this]
  · simp [h]

end ModifyLines

/-- Changing the lines of a block keeps the numbering. -/
theorem Numbered.modifyLines {d : Draft} (hn : d.Numbered) (label : Label)
    (f : Array Line → Array Line) : (d.modifyLines label f).Numbered where
  ordinal := by
    intro i b hb
    simp only [Draft.modifyLines, Array.getElem?_modify] at hb
    by_cases h : label.ordinal = i
    · rw [if_pos h, Option.map_eq_some_iff] at hb
      obtain ⟨c, hc, rfl⟩ := hb
      exact hn.ordinal i c hc
    · rw [if_neg h] at hb
      exact hn.ordinal i b hb
  layout := by
    rw [labels_modifyLines]
    exact hn.layout

theorem code_modifyLines_self {d : Draft} (hn : d.Numbered) {label : Label}
    (h : label ∈ d.labels) (f : Array Line → Array Line) :
    (d.modifyLines label f).code label = (f (d.lines label)).toList := by
  rw [code, lines_modifyLines, if_pos ⟨rfl, ordinal_lt hn h⟩]

private theorem code_modifyLines_ne {d : Draft} (hn : d.Numbered) {label other : Label}
    (h : label ∈ d.labels) (ho : other ∈ d.labels) (hne : other ≠ label)
    (f : Array Line → Array Line) : (d.modifyLines label f).code other = d.code other := by
  -- Labels of the draft with the same ordinal are the same.
  have : ¬ (label.ordinal = other.ordinal ∧ other.ordinal < d.blocks.size) :=
    fun hc => hne (eq_of_ordinal_eq hn ho h hc.1.symm)
  rw [code, lines_modifyLines, if_neg this, code]

/-- Changing the lines of one block leaves the code of the others. -/
theorem code_modifyLines {d : Draft} (hn : d.Numbered) {label other : Label}
    (h : label ∈ d.labels) (ho : other ∈ d.labels) (f : Array Line → Array Line) :
    (d.modifyLines label f).code other =
      if other = label then (f (d.lines label)).toList else d.code other := by
  by_cases hne : other = label
  · rw [if_pos hne, hne, code_modifyLines_self hn h]
  · rw [if_neg hne, code_modifyLines_ne hn h ho hne]

/-! ## Lines -/

section Append

variable {d : Draft} (line : Line)

@[simp] theorem labels_append : (d.append line).labels = d.labels :=
  labels_modifyLines ..

@[simp] theorem current_append : (d.append line).current = d.current := rfl

@[simp] theorem nextValue_append : (d.append line).nextValue = d.nextValue := rfl

theorem Numbered.append (hn : d.Numbered) : (d.append line).Numbered :=
  hn.modifyLines ..

/-- A line is appended to the insertion block and to no other one. -/
theorem code_append (hn : d.Numbered) (hc : d.current ∈ d.labels) {label : Label}
    (h : label ∈ d.labels) :
    (d.append line).code label =
      if label = d.current then d.code label ++ [line] else d.code label := by
  rw [Draft.append, code_modifyLines hn hc h]
  by_cases hl : label = d.current
  · simp [hl, code]
  · simp [hl]

end Append

/-- The next value, after which the numbering goes on with the one after it. -/
def skipValue (d : Draft) : Draft :=
  { d with nextValue := d.nextValue + 1 }

@[simp] theorem labels_skipValue (d : Draft) : d.skipValue.labels = d.labels := rfl
@[simp] theorem code_skipValue (d : Draft) : d.skipValue.code = d.code := rfl
@[simp] theorem current_skipValue (d : Draft) : d.skipValue.current = d.current := rfl
@[simp] theorem nextValue_skipValue (d : Draft) : d.skipValue.nextValue = d.nextValue + 1 := rfl

theorem Numbered.skipValue {d : Draft} (hn : d.Numbered) : d.skipValue.Numbered :=
  ⟨hn.ordinal, hn.layout⟩

theorem defineAtEntry_eq (d : Draft) (line : ValueId → Line) :
    d.defineAtEntry line =
      (d.nextValue, d.skipValue.modifyLines entryLabel (#[line d.nextValue] ++ ·)) := rfl

/-- The new line comes first in the entry block, and the other blocks stay as they are. -/
theorem code_defineAtEntry {d : Draft} (hn : d.Numbered) (he : entryLabel ∈ d.labels)
    (line : ValueId → Line) {label : Label} (h : label ∈ d.labels) :
    (d.defineAtEntry line).2.code label =
      if label = entryLabel then line d.nextValue :: d.code label else d.code label := by
  rw [defineAtEntry_eq, code_modifyLines hn.skipValue he h]
  by_cases hl : label = entryLabel
  · simp only [hl, if_true, Array.toList_append]
    rfl
  · simp [hl]

/-! ## Computations -/

/-- Appends computations, each of which makes a new value. -/
def assigned (d : Draft) : List Rhs → Draft
  | [] => d
  | rhs :: rest => (d.skipValue.append (.assign d.nextValue rhs)).assigned rest

/-- The lines of computations whose values are numbered from `next` on. -/
def assignments (next : ValueId) : List Rhs → List Line
  | [] => []
  | rhs :: rest => .assign next rhs :: assignments (next + 1) rest

section Assigned

variable {d : Draft} (cs : List Rhs)

@[simp] theorem labels_assigned : (d.assigned cs).labels = d.labels := by
  induction cs generalizing d with
  | nil => rfl
  | cons rhs cs ih => rw [assigned, ih, labels_append, labels_skipValue]

@[simp] theorem current_assigned : (d.assigned cs).current = d.current := by
  induction cs generalizing d with
  | nil => rfl
  | cons rhs cs ih => rw [assigned, ih, current_append, current_skipValue]

/-- Every computation makes one value. -/
theorem nextValue_assigned : (d.assigned cs).nextValue = d.nextValue + cs.length := by
  induction cs generalizing d with
  | nil => rfl
  | cons rhs cs ih =>
    rw [assigned, ih, nextValue_append, nextValue_skipValue, List.length_cons]
    exact Nat.add_right_comm ..

/-- Computations are appended to the insertion block, one line for each. -/
theorem code_assigned (hn : d.Numbered) (hc : d.current ∈ d.labels) :
    (d.assigned cs).code d.current = d.code d.current ++ assignments d.nextValue cs := by
  induction cs generalizing d with
  | nil => exact (List.append_nil _).symm
  | cons rhs cs ih =>
    -- The first computation is the next line, and the others are numbered from the value behind it.
    have hline := code_append (.assign d.nextValue rhs) hn.skipValue hc hc
    rw [if_pos (by rfl)] at hline
    refine (ih (hn.skipValue.append _) (by simpa using hc)).trans ?_
    rw [current_append, current_skipValue, hline, List.append_assoc]
    rfl

end Assigned

/-! ## Structures -/

/-- Stores operands in the fields of a structure, from field `index` on. -/
def storeFields (d : Draft) (slot : ValueId) (index : Nat) : List Operand → Draft
  | [] => d
  | v :: vs =>
    let d' := d.skipValue.append (.field d.nextValue index slot)
    (d'.append (.store v d.nextValue)).storeFields slot (index + 1) vs

/-- Makes a structure of operands and returns it. -/
def retPacked (d : Draft) (fields : List ScalarType) (values : List Operand) : Draft :=
  let d' := (d.defineAtEntry (.alloca · (.packed fields) .ret)).2.storeFields d.nextValue 0 values
  (d'.skipValue.append (.loadPacked d'.nextValue fields d.nextValue)).append
    (.retPacked d'.nextValue fields)

/-- Returns operands, in a structure if there are several. -/
def returned (d : Draft) (fields : List ScalarType) : List Operand → Draft
  | [] => d.append .retVoid
  | [v] => d.append (.ret v)
  | values => d.retPacked fields values

/-! ## Blocks -/

section NewBlock

variable {d : Draft} (role : BlockRole)

private theorem newBlock_fst : (d.newBlock role).1 = ⟨role, d.blocks.size⟩ := rfl

@[simp] theorem labels_newBlock :
    (d.newBlock role).2.labels = d.labels ++ [(d.newBlock role).1] := by
  simp [labels, newBlock]

@[simp] theorem current_newBlock : (d.newBlock role).2.current = d.current := rfl

@[simp] theorem nextValue_newBlock : (d.newBlock role).2.nextValue = d.nextValue := rfl

/-- The label of a new block is new. -/
theorem newBlock_not_mem (hn : d.Numbered) : (d.newBlock role).1 ∉ d.labels := by
  intro h
  have := ordinal_lt hn h
  rw [newBlock_fst] at this
  exact Nat.lt_irrefl _ this

theorem newBlock_ne (hn : d.Numbered) {label : Label} (h : label ∈ d.labels) :
    label ≠ (d.newBlock role).1 :=
  fun heq => newBlock_not_mem role hn (heq ▸ h)

/-- A new block keeps the numbering. -/
theorem Numbered.newBlock (hn : d.Numbered) : (d.newBlock role).2.Numbered where
  ordinal := by
    intro i b hb
    simp only [Draft.newBlock, Array.getElem?_push] at hb
    split at hb
    · next h =>
      obtain rfl := Option.some.inj hb
      exact h.symm
    · exact hn.ordinal i b hb
  layout := by
    rw [labels_newBlock]
    exact hn.layout.append_right _

/-- A new block leaves the code of the others as it is. -/
theorem code_newBlock (hn : d.Numbered) {label : Label} (h : label ∈ d.labels) :
    (d.newBlock role).2.code label = d.code label := by
  have hlt := ordinal_lt hn h
  simp only [code, lines, Draft.newBlock, Array.getElem?_push]
  rw [if_neg (by omega)]

@[simp] theorem code_newBlock_self :
    (d.newBlock role).2.code (d.newBlock role).1 = [] := by
  simp [code, lines, Draft.newBlock]

end NewBlock

section Place

variable {d : Draft} (label : Label)

@[simp] theorem labels_place : (d.place label).labels = d.labels := rfl

@[simp] theorem code_place : (d.place label).code = d.code := rfl

@[simp] theorem current_place : (d.place label).current = label := rfl

@[simp] theorem nextValue_place : (d.place label).nextValue = d.nextValue := rfl

/-- Placing a block keeps the numbering: the layout has it at another position. -/
theorem Numbered.place (hn : d.Numbered) (h : label ∈ d.labels) : (d.place label).Numbered where
  ordinal := hn.ordinal
  layout := by
    have hl : label ∈ d.layout := hn.layout.mem_iff.2 h
    exact (perm_insertAfter ..).trans ((List.perm_cons_erase hl).symm.trans hn.layout)

end Place

end Draft

/-! ## Phis -/

/-- Phis without edges, one for each type, for the values from `next` on. -/
def emptyPhis (next : ValueId) : List ScalarType → List Line
  | [] => []
  | type :: types => .phi next type [] :: emptyPhis (next + 1) types

/-- The values of such phis. -/
def phiValues (next : ValueId) : List ScalarType → List Operand
  | [] => []
  | type :: types => .result next type :: phiValues (next + 1) types

/-- The values of phis have the types of the phis. -/
theorem map_type_phiValues (next : ValueId) (types : List ScalarType) :
    (phiValues next types).map Operand.type = types := by
  induction types generalizing next with
  | nil => rfl
  | cons type types ih =>
    rw [phiValues, List.map_cons, ih]
    rfl

/-- Lines after an edge from `source` has been added to each, with the values in order. -/
def routeEdges (source : Label) : List Operand → List Line → List Line
  | value :: values, line :: lines => line.addEdge value source :: routeEdges source values lines
  | _, lines => lines

/-- Adding edges by position is to go through the values and the lines together. -/
theorem mapIdx_addEdge (source : Label) (values : List Operand) (lines : List Line) :
    (lines.mapIdx fun i line =>
      match values[i]? with
      | none => line
      | some value => line.addEdge value source) = routeEdges source values lines := by
  induction lines generalizing values with
  | nil => cases values <;> rfl
  | cons line lines ih =>
    -- Lines beyond the last value stay as they are.
    cases values with
    | nil =>
      rw [List.mapIdx_cons]
      simp only [routeEdges, List.getElem?_nil]
      rw [List.cons.injEq]
      exact ⟨rfl, by simpa [routeEdges] using ih []⟩
    | cons value values =>
      rw [List.mapIdx_cons]
      simp only [routeEdges, List.getElem?_cons_succ]
      rw [List.cons.injEq]
      exact ⟨rfl, ih values⟩

namespace Draft

section AddPhis

variable {d : Draft} {label : Label}

/-- The first phi is made before the others, from the next value. -/
theorem addPhis_cons (type : ScalarType) (types : List ScalarType) :
    d.addPhis label (type :: types) =
      let d' := d.skipValue.modifyLines label (·.push (.phi d.nextValue type []))
      (.result d.nextValue type :: (d'.addPhis label types).1, (d'.addPhis label types).2) := rfl

@[simp] theorem labels_addPhis (types : List ScalarType) :
    (d.addPhis label types).2.labels = d.labels := by
  induction types generalizing d with
  | nil => rfl
  | cons type types ih => rw [addPhis_cons, ih, labels_modifyLines, labels_skipValue]

@[simp] theorem current_addPhis (types : List ScalarType) :
    (d.addPhis label types).2.current = d.current := by
  induction types generalizing d with
  | nil => rfl
  | cons type types ih => rw [addPhis_cons, ih, current_modifyLines, current_skipValue]

@[simp] theorem nextValue_addPhis (types : List ScalarType) :
    (d.addPhis label types).2.nextValue = d.nextValue + types.length := by
  induction types generalizing d with
  | nil => rfl
  | cons type types ih =>
    rw [addPhis_cons, ih, nextValue_modifyLines, nextValue_skipValue, List.length_cons]
    exact Nat.add_right_comm ..

@[simp] theorem addPhis_fst (types : List ScalarType) :
    (d.addPhis label types).1 = phiValues d.nextValue types := by
  induction types generalizing d with
  | nil => rfl
  | cons type types ih =>
    rw [addPhis_cons]
    dsimp only
    rw [ih, nextValue_modifyLines, nextValue_skipValue, phiValues]

/-- The phis come last in their block, and the other blocks stay as they are. -/
theorem code_addPhis (hn : d.Numbered) (hl : label ∈ d.labels) (types : List ScalarType)
    {other : Label} (ho : other ∈ d.labels) :
    (d.addPhis label types).2.code other =
      if other = label then d.code other ++ emptyPhis d.nextValue types else d.code other := by
  induction types generalizing d with
  | nil => simp [addPhis, emptyPhis]
  | cons type types ih =>
    rw [addPhis_cons, ih (hn.skipValue.modifyLines ..) (by simpa using hl) (by simpa using ho),
      code_modifyLines hn.skipValue hl ho]
    -- The first phi is appended, and then the others behind it.
    by_cases h : other = label
    · subst h
      rw [if_pos rfl, if_pos rfl, if_pos rfl, Array.toList_push, List.append_assoc]
      rfl
    · rw [if_neg h, if_neg h, if_neg h, code_skipValue]

end AddPhis

section AddEdges

variable {d : Draft} {label : Label} (values : Array Operand)

/-- The lines that get edges, as a list. -/
theorem toList_addEdges :
    ((d.lines label).mapIdx fun i line =>
      match values[i]? with
      | none => line
      | some value => line.addEdge value d.current).toList =
        routeEdges d.current values.toList (d.code label) := by
  rw [Array.toList_mapIdx, code, ← mapIdx_addEdge]
  simp only [Array.getElem?_toList]

@[simp] theorem labels_addEdges : (d.addEdges label values).labels = d.labels :=
  labels_modifyLines ..

@[simp] theorem current_addEdges : (d.addEdges label values).current = d.current := rfl

@[simp] theorem nextValue_addEdges : (d.addEdges label values).nextValue = d.nextValue := rfl

theorem Numbered.addEdges (hn : d.Numbered) : (d.addEdges label values).Numbered :=
  hn.modifyLines ..

/-- Edges are added to the lines of one block, and the other blocks stay as they are. -/
theorem code_addEdges (hn : d.Numbered) (hl : label ∈ d.labels) {other : Label}
    (ho : other ∈ d.labels) :
    (d.addEdges label values).code other =
      if other = label then routeEdges d.current values.toList (d.code other)
      else d.code other := by
  rw [Draft.addEdges, code_modifyLines hn hl ho]
  by_cases h : other = label
  · subst h
    rw [if_pos rfl, if_pos rfl]
    exact toList_addEdges values
  · rw [if_neg h, if_neg h]

/-- The code after a branch to another block that takes values along: the insertion block has the
    branch, and the other block the edges. -/
theorem code_jump (hn : d.Numbered) (hc : d.current ∈ d.labels) (hl : label ∈ d.labels)
    (hne : label ≠ d.current) {other : Label} (ho : other ∈ d.labels) :
    ((d.addEdges label values).append (.br label)).code other =
      if other = d.current then d.code other ++ [.br label]
      else if other = label then routeEdges d.current values.toList (d.code other)
      else d.code other := by
  rw [code_append _ (hn.addEdges values) (by simpa using hc) (by simpa using ho), current_addEdges,
    code_addEdges values hn hl ho]
  -- The branch is behind all else in the insertion block, which is not the one that gets the edges.
  by_cases h : other = d.current
  · rw [if_pos h, if_pos h, if_neg (h.trans_ne hne.symm)]
  · rw [if_neg h, if_neg h]

end AddEdges

section DropEmptyPhis

variable {d : Draft} {label : Label}

@[simp] theorem labels_dropEmptyPhis : (d.dropEmptyPhis label).labels = d.labels :=
  labels_modifyLines ..

@[simp] theorem current_dropEmptyPhis : (d.dropEmptyPhis label).current = d.current := rfl

@[simp] theorem nextValue_dropEmptyPhis : (d.dropEmptyPhis label).nextValue = d.nextValue := rfl

/-- Only phis without edges are dropped, and only in one block. -/
theorem code_dropEmptyPhis (hn : d.Numbered) (hl : label ∈ d.labels) {other : Label}
    (ho : other ∈ d.labels) :
    (d.dropEmptyPhis label).code other =
      if other = label then (d.code other).filter (!·.isEmptyPhi) else d.code other := by
  rw [Draft.dropEmptyPhis, code_modifyLines hn hl ho]
  by_cases h : other = label
  · simp [h, code]
  · rw [if_neg h, if_neg h]

end DropEmptyPhis

/-! ## Constructs -/

/-- Creates a block with one phi for each type. -/
def newJoin (d : Draft) (role : BlockRole) (types : List ScalarType) : Draft :=
  ((d.newBlock role).2.addPhis (d.newBlock role).1 types).2

/-- Goes on in a new block. -/
def goOn (d : Draft) (role : BlockRole) : Draft :=
  ((d.newBlock role).2.append (.br (d.newBlock role).1)).place (d.newBlock role).1

/-- The blocks of the two arms of a conditional that is opened next. -/
def arms (d : Draft) : Label × Label :=
  ((d.newBlock .ifThen).1, ((d.newBlock .ifThen).2.newBlock .ifElse).1)

/-- Creates the blocks of two arms and branches to one of them. -/
def fork (d : Draft) (condition : Operand) : Draft :=
  ((d.newBlock .ifThen).2.newBlock .ifElse).2.append (.condBr condition d.arms.1 d.arms.2)

/-- Goes on in a new block if a condition holds, and traps in another one if not. -/
def guard (d : Draft) (condition : Operand) : Draft :=
  let trap := d.newBlock .truncTrap
  let ok := trap.2.newBlock .truncOk
  let d := (ok.2.append (.condBr condition ok.1 trap.1)).place trap.1
  ((d.append .trap).append .unreachable).place ok.1

@[simp] theorem nextValue_guard (d : Draft) (condition : Operand) :
    (d.guard condition).nextValue = d.nextValue := rfl

/-! ## The finished function -/

/-- The blocks of a finished draft are its blocks, each with its code. -/
theorem mem_finish {d : Draft} (hn : d.Numbered) {b : Block} :
    b ∈ d.finish ↔ b.label ∈ d.labels ∧ b.lines.toList = d.code b.label := by
  rw [finish, List.mem_filterMap]
  constructor
  · rintro ⟨label, hl, hb⟩
    obtain ⟨c, hc, rfl⟩ := exists_block hn (hn.layout.mem_iff.1 hl)
    obtain rfl : c = b := by rw [hc] at hb; exact Option.some.inj hb
    exact ⟨hn.layout.mem_iff.1 hl, by simp [code, lines, hc]⟩
  -- Conversely, the label of the block leads to it, as every label of the layout does.
  · rintro ⟨hl, hb⟩
    obtain ⟨c, hc, hcl⟩ := exists_block hn hl
    refine ⟨b.label, hn.layout.mem_iff.2 hl, ?_⟩
    have : c = b := by
      cases b; cases c
      simp_all [code, lines, Array.toList_inj]
    rw [hc, this]

/-- A finished draft has its blocks in another order. -/
theorem perm_finish {d : Draft} (hn : d.Numbered) : d.finish.Perm d.blocks.toList := by
  have h := hn.layout.filterMap fun label => d.blocks[label.ordinal]?
  refine h.trans (List.Perm.of_eq ?_)
  -- Each block is found under its own ordinal.
  have hself : ∀ b ∈ d.blocks.toList, d.blocks[b.label.ordinal]? = some b := by
    intro b hb
    obtain ⟨i, hi⟩ := List.getElem?_of_mem hb
    rw [Array.getElem?_toList] at hi
    rw [hn.ordinal i b hi, hi]
  rw [labels, List.filterMap_map]
  exact (List.filterMap_congr hself).trans List.filterMap_some

end Draft

end WasmLowering.Ssa
