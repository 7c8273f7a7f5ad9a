import WasmLowering.Proofs.Layout
import WasmLowering.Proofs.StraightLine

/-!
# The entry block

The entry block makes the slots: in front those of returned structures, which were put there one by
one as the returns were lowered, then one for each parameter and local. A parameter's slot gets the
argument and a local's slot gets zero, right after the slot is made.

## Key results

- `Function.leads_returnSlots`: the slots of returned structures
- `start_allots`: the slots of parameters and locals
- `entry_runs`: the entry block up to the first operator of the body
-/

namespace WasmLowering.Ssa

/-! ## Slots of returned structures -/

/-- Slots that were made have the fields they were made with, as long as no number is used twice. -/
theorem Function.leads_returnSlots (f : Function) {args : List Scalar} {m : Machine}
    {done front rest : List Line} (hrest : m.rest = front ++ rest)
    (hfront : ∀ line ∈ front, line.isReturnSlot = true)
    (hunique : ∀ x ∈ done ++ front, ∀ y ∈ done ++ front, ∀ id, x.defines = some id →
      y.defines = some id → x = y)
    (hdone : ∀ id fields, .alloca id (.packed fields) .ret ∈ done →
      m.values id = some (.address id 0) ∧ (m.memory id).map Cell.type = fields) :
    ∃ m', f.Leads args m m' ∧ m'.block = m.block ∧ m'.rest = rest ∧
      ∀ id fields, .alloca id (.packed fields) .ret ∈ done ++ front →
        m'.values id = some (.address id 0) ∧ (m'.memory id).map Cell.type = fields := by
  -- The slots in `done` were made before. The next one has another number.
  induction front generalizing m done with
  | nil =>
    rw [List.append_nil]
    exact ⟨m, .refl, rfl, hrest, hdone⟩
  | cons line front ih =>
    obtain ⟨id, type, rfl⟩ : ∃ id type, line = .alloca id type .ret := by
      have hline := hfront line List.mem_cons_self
      unfold Line.isReturnSlot at hline
      split at hline
      · exact ⟨_, _, rfl⟩
      · cases hline
    have hstep : f.step args m = some (.next (m.allocate id type (front ++ rest))) := by
      rw [Function.step, hrest]
      rfl
    have hsplit : done ++ .alloca id type .ret :: front =
        done ++ [.alloca id type .ret] ++ front := by simp
    rw [hsplit] at hunique ⊢
    obtain ⟨m', hleads, hblock, hrest', hslots⟩ :=
      @ih (m.allocate id type (front ++ rest)) (done ++ [.alloca id type .ret]) rfl
        (fun x hx => hfront x (List.mem_cons_of_mem _ hx)) hunique fun id' fields hmem => by
          -- The slot that is made now, or one of those before.
          by_cases hid : id' = id
          · subst hid
            have hsame : Line.alloca id' (.packed fields) .ret = .alloca id' type .ret :=
              hunique _ (List.mem_append_left _ hmem) _ (by simp) id' rfl rfl
            obtain ⟨-, rfl, -⟩ := Line.alloca.inj hsame
            simp [Machine.allocate, Machine.define, NativeType.cells, Function.comp_def]
          · have hold : Line.alloca id' (.packed fields) .ret ∈ done := by
              simpa [hid] using hmem
            simpa [Machine.allocate, Machine.define, hid] using hdone id' fields hold
    exact ⟨m', .head hstep hleads, hblock, hrest', hslots⟩

end WasmLowering.Ssa

namespace WasmLowering.Lowering

open Ssa Draft Validation

/-! ## Slots of parameters and locals -/

/-- A slot is made with a value, whatever has been computed before. -/
structure Fills (args : List Scalar) (slot : ScalarType × Operand) (v : Value) : Prop where
  type : v.native.type = slot.1
  first : ∀ values, slot.2.eval args values = some v.native

section Allots

variable {s t : State} {slots : List (ScalarType × Operand)}

/-- The slots of parameters get the arguments. -/
private theorem argSlots_filled {index : Nat} {types : List ValueType} {scalars : List ScalarType}
    (h : types.mapM (ValueType.scalar hostPointerBits) = .ok scalars) {args vs : List Value}
    (hvs : args.drop index = vs) (htypes : vs.map Value.type = types) :
    List.Forall₂ (Fills (args.map Value.native)) (argSlots index scalars) vs := by
  induction types generalizing index scalars vs with
  | nil =>
    obtain rfl : [] = scalars := Except.ok.inj h
    obtain rfl := List.map_eq_nil_iff.1 htypes
    exact .nil
  | cons type types ih =>
    obtain ⟨scalar, more, hscalar, hmore, rfl⟩ := mapM_scalar_cons.1 h
    obtain ⟨v, later, rfl, rfl, hlater⟩ := List.map_eq_cons_iff.1 htypes
    obtain rfl : v.native.type = scalar := Except.ok.inj (v.scalar_type.symm.trans hscalar)
    -- The first argument that is left is the one for this slot.
    have hdrop : args.drop (index + 1) = later := by
      rw [← List.tail_drop, hvs]
      rfl
    have hget : args[index]? = some v := by
      rw [← List.head?_drop, hvs]
      rfl
    refine .cons ⟨rfl, fun values => ?_⟩ (ih hmore hdrop hlater)
    simp [Operand.eval, hget]

/-- The slots of locals get zero. -/
private theorem zeroSlots_filled {types : List ValueType} {scalars : List ScalarType}
    (h : types.mapM (ValueType.scalar hostPointerBits) = .ok scalars) (args : List Scalar) :
    List.Forall₂ (Fills args) (zeroSlots scalars) (types.filterMap Value.zero?) := by
  induction types generalizing scalars with
  | nil =>
    obtain rfl : [] = scalars := Except.ok.inj h
    exact .nil
  | cons type types ih =>
    obtain ⟨scalar, more, hscalar, hmore, rfl⟩ := mapM_scalar_cons.1 h
    -- Every type that has a native counterpart has a zero.
    have hzero : ∃ v, Value.zero? type = some v ∧ Fills args (scalar, scalar.zero) v := by
      cases type with
      | other code => cases hscalar
      | _ =>
        obtain rfl := Except.ok.inj hscalar
        exact ⟨_, rfl, rfl, fun _ => rfl⟩
    obtain ⟨v, hv, hfills⟩ := hzero
    rw [List.filterMap_cons_some hv]
    exact .cons hfills (ih hmore)

/-- The slots of a function, and what they get when the function is called with arguments of the
    right types. -/
theorem start_allots {type : FuncType} {locals : List ValueType} {intrinsics : IntrinsicTable}
    (h : State.start type locals intrinsics = .ok s) :
    ∃ slots, s = (State.initial type intrinsics).allotAll slots ∧
      (∀ slot ∈ slots, slot.2.ids = []) ∧
      ∀ args : List Value, args.map Value.type = type.params →
        List.Forall₂ (Fills (args.map Value.native)) slots
          (args ++ locals.filterMap Value.zero?) := by
  obtain ⟨params, scalars, hparams, hscalars, rfl⟩ := start_eq_ok.1 h
  refine ⟨_, rfl, ids_slots params scalars, fun args htypes => ?_⟩
  exact List.rel_append (argSlots_filled hparams (List.drop_zero ..) htypes)
    (zeroSlots_filled hscalars _)

/-- The lines that make a slot. -/
theorem code_allotted (ha : s.draft.Arranged s.waiting) (type : ScalarType) (first : Operand) :
    (s.allotted type first).draft.code s.draft.current = s.draft.code s.draft.current ++
      [.alloca s.draft.nextValue (.scalar type) (.ofLocal s.locals.size),
        .store first s.draft.nextValue] := by
  let line := Line.alloca s.draft.nextValue (.scalar type) (.ofLocal s.locals.size)
  have hline : (s.draft.skipValue.append line).code s.draft.current =
      s.draft.code s.draft.current ++ [line] := ha.skipValue.code_append line
  have hstore : (s.allotted type first).draft.code s.draft.current =
      (s.draft.skipValue.append line).code s.draft.current ++
        [.store first s.draft.nextValue] := (ha.skipValue.append line).code_append _
  rw [hstore, hline, List.append_assoc]
  rfl

/-- The new slot is made in the entry block, too. -/
theorem State.Allots.allotted (h : s.Allots) (ha : s.draft.Arranged s.waiting)
    (entry : s.draft.current = entryLabel) (type : ScalarType) (first : Operand) :
    (s.allotted type first).Allots := by
  intro i slot hslot
  rw [← entry, code_allotted ha]
  replace hslot : (s.locals.push ⟨type, s.draft.nextValue⟩)[i]? = some slot := hslot
  rw [Array.getElem?_push] at hslot
  split at hslot
  -- The new slot is the last one.
  next hi =>
    obtain rfl := Option.some.inj hslot
    simp [hi]
  · exact List.mem_append_left _ (entry ▸ h i slot hslot)

end Allots

/-! ## Runs -/

/-- The machine is in the entry block, where the slots of `s` have been made. -/
structure Filling (last s : State) (locals : List Value) (m : Machine) : Prop where
  block : m.block = entryLabel
  rest : Remaining s last m.rest
  stored : Stored last s.locals.toList locals m

section Filling

variable {args : List Scalar} {f : Ssa.Function} {last s t : State} {m : Machine}
  {locals : List Value} {type : ScalarType} {first : Operand} {v : Value}

/-- A slot is made and gets its first value. -/
theorem Filling.slot (h : Filling last s locals m) (hl : Lowered f last) (hd : s.Disciplined)
    (hallots : s.Allots) (entry : s.draft.current = entryLabel)
    (hm : Move s (s.allotted type first)) (hlast : Moves (s.allotted type first) last)
    (hfills : Fills args (type, first) v) :
    ∃ m', f.Leads args m m' ∧ Filling last (s.allotted type first) (locals ++ [v]) m' := by
  have hcode := code_allotted hd.sound.toArranged type first
  obtain ⟨rest, hrest, hremaining⟩ := @Remaining.split s (s.allotted type first) last m.rest h.rest
    (.single hm) hlast hd [] _ hcode (by simp) (by simp [Line.isReturnSlot])
  -- The number of the slot is new, so no other slot is touched.
  have hslot : .alloca s.draft.nextValue (.scalar type) (.ofLocal s.locals.size) ∈
      last.draft.code entryLabel := by
    rw [← entry]
    exact h.rest.mem (hrest ▸ List.mem_cons_self)
  have hentry := hl.disciplined.sound.entry_mem
  have hlocals : ∀ slot ∈ s.locals.toList, slot.id ≠ s.draft.nextValue := by
    intro slot hmem heq
    obtain ⟨i, hi⟩ := List.mem_iff_getElem?.1 hmem
    rw [Array.getElem?_toList] at hi
    -- A slot with the same number would be the same line, but it has another index.
    have hold := (Moves.extended (.head hm hlast) hd hd.sound.entry_mem
      hd.sound.entry_placed).mem (hallots i slot hi)
    have hsame := hl.eq_of_defines hentry hentry hold hslot (congrArg some heq) rfl
    obtain ⟨-, -, hname⟩ := Line.alloca.inj hsame
    have hlt : i < s.locals.size := (Array.getElem?_eq_some_iff.1 hi).1
    exact absurd (SlotName.ofLocal.inj hname) (Nat.ne_of_lt hlt)
  have hreturns : ∀ id fields, .alloca id (.packed fields) .ret ∈ last.draft.code entryLabel →
      id ≠ s.draft.nextValue := by
    intro id fields hmem heq
    cases hl.eq_of_defines hentry hentry hmem hslot (congrArg some heq) rfl
  let m₁ := m.allocate s.draft.nextValue (.scalar type) (.store first s.draft.nextValue :: rest)
  have hstep : f.step args m = some (.next m₁) := by
    rw [Function.step, hrest]
    rfl
  have hstore := @Function.leads_store args m₁ s.draft.nextValue s.draft.nextValue 0 first v.native
    [] [] { type } rest f rfl (hfills.first _) (Function.update_self _ _ _)
    (Function.update_self _ _ _) rfl hfills.type.symm
  let m₂ : Machine := { m₁ with
    rest, memory := Function.update m₁.memory s.draft.nextValue [.holding v.native] }
  have hkeep : ∀ id, id ≠ s.draft.nextValue →
      m₂.values id = m.values id ∧ m₂.memory id = m.memory id := fun id hid =>
    ⟨Function.update_of_ne hid _ _, by
      simp [m₂, m₁, Machine.allocate, Function.update_of_ne hid]⟩
  refine ⟨m₂, .head hstep hstore, h.block, hremaining rfl, ?_, fun id fields hmem => ?_⟩
  -- The other slots keep what they hold.
  · have hold : List.Forall₂ (Keeps m₂) s.locals.toList locals := by
      refine ((List.forall₂_and_left _ _).2 ⟨hlocals, h.stored.locals⟩).imp fun slot w hslot => ?_
      obtain ⟨hid, htype, hvalue, hmemory⟩ := hslot
      obtain ⟨hvalues, hcells⟩ := hkeep slot.id hid
      exact ⟨htype, hvalues.trans hvalue, hcells.trans hmemory⟩
    have hnew : Keeps m₂ ⟨type, s.draft.nextValue⟩ v :=
      ⟨hfills.type, Function.update_self _ _ _, Function.update_self _ _ _⟩
    have hpush : (s.allotted type first).locals.toList =
        s.locals.toList ++ [⟨type, s.draft.nextValue⟩] := Array.toList_push
    rw [hpush]
    exact List.rel_append hold (.cons hnew .nil)
  · obtain ⟨hvalues, hcells⟩ := hkeep id (hreturns id fields hmem)
    rw [hvalues, hcells]
    exact h.stored.returns id fields hmem

end Filling

section Entry

variable {args : List Scalar} {f : Ssa.Function} {last s t : State} {m : Machine}
  {slots : List (ScalarType × Operand)} {locals vs : List Value}

/-- Making slots stays in the entry block. -/
theorem allotAll_moves (hd : s.Disciplined) (hallots : s.Allots) (live : s.phase = .live)
    (entry : s.draft.current = entryLabel) (constant : ∀ slot ∈ slots, slot.2.ids = []) :
    Moves s (s.allotAll slots) ∧ (s.allotAll slots).Allots := by
  induction slots generalizing s with
  | nil => exact ⟨.refl, hallots⟩
  | cons slot slots ih =>
    obtain ⟨type, first⟩ := slot
    obtain ⟨hfirst, hlater⟩ := List.forall_mem_cons.1 constant
    have hmove : Move s (s.allotted type first) := .slot live entry hfirst type
    obtain ⟨hm, hallots'⟩ := ih (hmove.disciplined hd)
      (hallots.allotted hd.sound.toArranged entry type first) live entry hlater
    exact ⟨.head hmove hm, hallots'⟩

/-- There are no slots at first. -/
theorem State.allots_initial (type : FuncType) (intrinsics : IntrinsicTable) :
    (State.initial type intrinsics).Allots := by
  intro i slot hslot
  cases hslot

/-- All slots are made and get their first values. -/
theorem Filling.all (h : Filling last s locals m) (hl : Lowered f last) (hd : s.Disciplined)
    (hallots : s.Allots) (live : s.phase = .live) (entry : s.draft.current = entryLabel)
    (hlast : Moves (s.allotAll slots) last) (constant : ∀ slot ∈ slots, slot.2.ids = [])
    (hfills : List.Forall₂ (Fills args) slots vs) :
    ∃ m', f.Leads args m m' ∧ Filling last (s.allotAll slots) (locals ++ vs) m' := by
  induction hfills generalizing s locals m with
  | nil =>
    rw [List.append_nil]
    exact ⟨m, .refl, h⟩
  | @cons slot v slots vs hslot hfills ih =>
    obtain ⟨type, first⟩ := slot
    obtain ⟨hfirst, hlater⟩ := List.forall_mem_cons.1 constant
    have hmove : Move s (s.allotted type first) := .slot live entry hfirst type
    have hd' := hmove.disciplined hd
    have hallots' := hallots.allotted hd.sound.toArranged entry type first
    obtain ⟨hm, -⟩ := @allotAll_moves _ slots hd' hallots' live entry hlater
    obtain ⟨m₁, hleads, hfilling⟩ := h.slot hl hd hallots entry hmove (hm.trans hlast) hslot
    obtain ⟨m', hleads', hfilling'⟩ := ih hfilling hd' hallots' live entry hlast hlater
    rw [List.append_assoc] at hfilling'
    exact ⟨m', hleads.trans hleads', hfilling'⟩

/-- The first block of a lowered function is the entry block. -/
theorem Lowered.first_block (hl : Lowered f last) {type : FuncType} {intrinsics : IntrinsicTable}
    (hm : Moves (State.initial type intrinsics) last) :
    ∃ b blocks, f.blocks = b :: blocks ∧ b.label = entryLabel ∧
      b.lines.toList = last.draft.code entryLabel := by
  have hn := hl.disciplined.sound.numbered
  obtain ⟨placed, hadvances⟩ := Moves.advances hm
  -- The layout starts with the entry block.
  have hlayout := (hadvances.laidOut [entryLabel] laidOut_start).layout
  have hlabels := map_label_finish hn
  rw [hlayout, ← hl.blocks] at hlabels
  obtain ⟨b, blocks, hblocks, hlabel, -⟩ := List.map_eq_cons_iff.1 hlabels
  have hb : b ∈ last.draft.finish := by
    rw [← hl.blocks, hblocks]
    exact List.mem_cons_self
  exact ⟨b, blocks, hblocks, hlabel, hlabel ▸ ((mem_finish hn).1 hb).2⟩

/-- After the slots of returned structures, the machine is at the start of the entry block. -/
private theorem fills_initial (hl : Lowered f last) {type : FuncType} {intrinsics : IntrinsicTable}
    (hm : Moves (State.initial type intrinsics) last) :
    ∃ m, f.Leads args { block := entryLabel, rest := last.draft.code entryLabel } m ∧
      Filling last (State.initial type intrinsics) [] m := by
  have hd := State.disciplined_initial type intrinsics
  have hentry := hl.disciplined.sound.entry_mem
  obtain ⟨front, back, hcode, -, hfront, hback⟩ :=
    Moves.extended hm hd hd.sound.entry_mem hd.sound.entry_placed
  have hempty : (State.initial type intrinsics).draft.code entryLabel = [] := rfl
  rw [hempty, List.append_nil] at hcode
  -- In front of its own lines the entry block has nothing but slots of returned structures.
  have hunique : ∀ x ∈ [] ++ front, ∀ y ∈ [] ++ front, ∀ id, x.defines = some id →
      y.defines = some id → x = y := by
    intro x hx y hy id hdx hdy
    refine hl.eq_of_defines hentry hentry ?_ ?_ hdx hdy <;> rw [hcode]
    · exact List.mem_append_left _ hx
    · exact List.mem_append_left _ hy
  obtain ⟨m, hleads, hblock, hrest, hslots⟩ := @Function.leads_returnSlots f args
    { block := entryLabel, rest := last.draft.code entryLabel } [] front back hcode hfront hunique
    fun _ _ hmem => absurd hmem List.not_mem_nil
  refine ⟨m, hleads, hblock, ⟨front, ?_, hfront, hrest ▸ hback⟩, .nil, fun id fields hmem => ?_⟩
  · show last.draft.code entryLabel = front ++ [] ++ m.rest
    rw [hrest, List.append_nil]
    exact hcode
  · rw [hcode] at hmem
    obtain hmem | hmem := List.mem_append.1 hmem
    · exact hslots id fields hmem
    · cases (hback _ hmem).2

/-- The entry block up to the first operator. -/
theorem entry_runs (hl : Lowered f last) {type : FuncType} {types : List ValueType}
    {intrinsics : IntrinsicTable} (hstart : State.start type types intrinsics = .ok s)
    (hlast : Moves s last) (hlocals : s.locals = last.locals) {args : List Value}
    (hargs : args.map Value.type = type.params) :
    ∃ m, f.Leads (args.map Value.native)
        { block := entryLabel, rest := last.draft.code entryLabel } m ∧
      Running (args.map Value.native) last s [] (args ++ types.filterMap Value.zero?) m := by
  obtain ⟨hm, -, hcurrent, -, hstack, -⟩ := start_moves hstart
  obtain ⟨slots, rfl, hconstant, hslots⟩ := start_allots hstart
  -- Nothing has been filled yet, and then all slots are.
  obtain ⟨m, hleads, hfilling⟩ := @fills_initial (args.map Value.native) f last hl type intrinsics
    (hm.trans hlast)
  obtain ⟨m', hleads', hfilled⟩ := hfilling.all hl (State.disciplined_initial type intrinsics)
    (State.allots_initial type intrinsics) rfl rfl hlast hconstant (hslots args hargs)
  refine ⟨m', hleads.trans hleads', hfilled.block.trans hcurrent.symm, hfilled.rest, ?_, ?_⟩
  · rw [hstack]
    exact .nil
  · rw [← hlocals]
    exact hfilled.stored

end Entry

end WasmLowering.Lowering
