import WasmLowering.Proofs.StraightLine

/-!
# Returned values

A function returns nothing, one value, or several values in a structure. The structure has a slot of
its own in front of the entry block. A return stores the values in the fields of this slot, in the
order in which the results are declared, reads the structure and returns it.

## Key results

- `Draft.code_retPacked`: the lines of a return of several values
- `Function.leads_fields`: storing values in the fields of a slot
- `Running.returns`: a return ends the run with the topmost operands
-/

namespace WasmLowering.Ssa

/-! ## Lines -/

namespace Draft

/-- The lines that store values in the fields of a slot, from field `index` on. -/
def fieldLines (slot : ValueId) (index next : Nat) : List Operand → List Line
  | [] => []
  | v :: vs => .field next index slot :: .store v next :: fieldLines slot (index + 1) (next + 1) vs

/-- The lines that store fields make no slot. -/
private theorem not_isReturnSlot_fieldLines {slot index next : Nat} {values : List Operand}
    {line : Line} (h : line ∈ fieldLines slot index next values) : line.isReturnSlot = false := by
  induction values generalizing index next with
  | nil => cases h
  | cons v vs ih =>
    obtain rfl | h := List.mem_cons.1 h
    · rfl
    · obtain rfl | h := List.mem_cons.1 h
      · rfl
      · exact ih h

variable {d : Draft} {waiting : List Label}

/-- The lines of the entry block stay when a line is appended, wherever it goes. -/
theorem Arranged.mem_entry_append (ha : d.Arranged waiting) (line : Line) {line' : Line}
    (h : line' ∈ d.code entryLabel) : line' ∈ (d.append line).code entryLabel := by
  rw [Draft.code_append line ha.numbered ha.current_mem ha.entry_mem]
  split
  · exact List.mem_append_left _ h
  · exact h

/-- The lines that were stored, the block they are in and the numbers they took. -/
private theorem code_storeFields (ha : d.Arranged waiting) (slot : ValueId) (index : Nat)
    (values : List Operand) :
    (d.storeFields slot index values).code d.current =
        d.code d.current ++ fieldLines slot index d.nextValue values ∧
      (d.storeFields slot index values).current = d.current ∧
      (d.storeFields slot index values).nextValue = d.nextValue + values.length := by
  induction values generalizing d index with
  | nil => simp [storeFields, fieldLines]
  | cons v vs ih =>
    have ha₁ := ha.skipValue.append (.field d.nextValue index slot)
    -- Each value takes two lines: the address of its field and the store.
    have hfirst : (d.skipValue.append (.field d.nextValue index slot)).code d.current =
        d.code d.current ++ [.field d.nextValue index slot] := ha.skipValue.code_append _
    have hsecond : ((d.skipValue.append (.field d.nextValue index slot)).append
        (.store v d.nextValue)).code d.current =
          (d.skipValue.append (.field d.nextValue index slot)).code d.current ++
            [.store v d.nextValue] := ha₁.code_append _
    obtain ⟨hcode, hcurrent, hnext⟩ := ih (ha₁.append (.store v d.nextValue)) (index + 1)
    refine ⟨?_, hcurrent, hnext.trans (Nat.add_right_comm _ _ _)⟩
    calc (d.storeFields slot index (v :: vs)).code d.current
        = (d.skipValue.append (.field d.nextValue index slot)).code d.current ++
            [.store v d.nextValue] ++ fieldLines slot (index + 1) (d.nextValue + 1) vs := by
          rw [← hsecond]
          exact hcode
      _ = d.code d.current ++ fieldLines slot index d.nextValue (v :: vs) := by
          rw [hfirst]
          simp [fieldLines]

/-- The lines of a return of several values. -/
theorem code_retPacked (ha : d.Arranged waiting) (fields : List ScalarType)
    (values : List Operand) :
    ∃ front, (∀ line ∈ front, line.isReturnSlot = true) ∧
      (d.retPacked fields values).code d.current = front ++ d.code d.current ++
        (fieldLines d.nextValue 0 (d.nextValue + 1) values ++
          [.loadPacked (d.nextValue + 1 + values.length) fields d.nextValue,
            .retPacked (d.nextValue + 1 + values.length) fields]) := by
  let slot := Line.alloca d.nextValue (.packed fields) .ret
  let d₁ := (d.defineAtEntry (.alloca · (.packed fields) .ret)).2
  have ha₁ : d₁.Arranged waiting := ha.skipValue.modifyLines _ _
  let d₂ := d₁.storeFields d.nextValue 0 values
  have ha₂ : d₂.Arranged waiting := ha₁.storeFields d.nextValue 0 values
  let load := Line.loadPacked d₂.nextValue fields d.nextValue
  -- A return in the entry block puts the slot in front of the lines before it.
  have hslot : d₁.code d.current =
      (if d.current = entryLabel then [slot] else []) ++ d.code d.current := by
    have h := code_defineAtEntry ha.numbered ha.entry_mem (.alloca · (.packed fields) .ret)
      ha.current_mem
    rw [h]
    split <;> rfl
  have hstore : d₂.code d.current =
      d₁.code d.current ++ fieldLines d.nextValue 0 (d.nextValue + 1) values :=
    (code_storeFields ha₁ d.nextValue 0 values).1
  have hcurrent : d₂.current = d.current := (code_storeFields ha₁ d.nextValue 0 values).2.1
  have hnext : d₂.nextValue = d.nextValue + 1 + values.length :=
    (code_storeFields ha₁ d.nextValue 0 values).2.2
  have hload : (d₂.skipValue.append load).code d₂.current = d₂.code d₂.current ++ [load] :=
    ha₂.skipValue.code_append load
  have hret : (d.retPacked fields values).code d₂.current =
      (d₂.skipValue.append load).code d₂.current ++ [.retPacked d₂.nextValue fields] :=
    (ha₂.skipValue.append load).code_append _
  refine ⟨if d.current = entryLabel then [slot] else [], fun line hline => ?_, ?_⟩
  · split at hline
    · rw [List.mem_singleton.1 hline]
      rfl
    · cases hline
  · rw [← hnext, ← hcurrent, hret, hload, hcurrent, hstore, hslot]
    simp [load]

/-- The lines of the entry block are kept by the stores to the fields of a slot. -/
private theorem mem_entry_storeFields (ha : d.Arranged waiting) (slot : ValueId) (index : Nat)
    (values : List Operand) {line : Line} (h : line ∈ d.code entryLabel) :
    line ∈ (d.storeFields slot index values).code entryLabel := by
  induction values generalizing d index with
  | nil => exact h
  | cons v vs ih =>
    have ha₁ := ha.skipValue.append (.field d.nextValue index slot)
    exact ih (ha₁.append _) (index + 1)
      (ha₁.mem_entry_append (.store v d.nextValue) (ha.skipValue.mem_entry_append _ h))

/-- The slot of a returned structure is in the entry block. -/
theorem alloca_mem_retPacked (ha : d.Arranged waiting) (fields : List ScalarType)
    (values : List Operand) :
    .alloca d.nextValue (.packed fields) .ret ∈ (d.retPacked fields values).code entryLabel := by
  have ha₁ : (d.defineAtEntry (.alloca · (.packed fields) .ret)).2.Arranged waiting :=
    ha.skipValue.modifyLines _ _
  have ha₂ := (ha₁.storeFields d.nextValue 0 values).skipValue
  refine (ha₂.append _).mem_entry_append _ (ha₂.mem_entry_append _ ?_)
  refine mem_entry_storeFields ha₁ d.nextValue 0 values ?_
  rw [code_defineAtEntry ha.numbered ha.entry_mem _ ha.entry_mem, if_pos rfl]
  exact List.mem_cons_self

end Draft

/-! ## Runs -/

section Runs

variable {args : List Scalar} {m : Machine}

/-- Values are stored in the cells of a slot one after the other, behind those that were stored
    before. -/
theorem Function.leads_fields (f : Function) {slot index next : Nat} {values : List Operand}
    {xs : List Scalar} {done todo : List Cell} {rest : List Line}
    (hrest : m.rest = Draft.fieldLines slot index next values ++ rest)
    (hslot : m.values slot = some (.address slot 0)) (hnext : slot < next)
    (hmemory : m.memory slot = done ++ todo) (hindex : done.length = index)
    (htypes : todo.map Cell.type = xs.map Scalar.type)
    (hvalues : List.Forall₂ (fun value x => m.eval args value = some x) values xs)
    (hbelow : ∀ v ∈ values, v.Below next) :
    ∃ m', f.Leads args m m' ∧ m'.rest = rest ∧ m'.values slot = some (.address slot 0) ∧
      m'.memory slot = done ++ xs.map Cell.holding := by
  -- The cells `done` hold their values, and the cells `todo` are for the values that are left.
  induction values generalizing m index next done todo xs with
  | nil =>
    cases hvalues
    obtain rfl := List.map_eq_nil_iff.1 htypes
    exact ⟨m, .refl, hrest, hslot, hmemory⟩
  | cons value values ih =>
    obtain ⟨x, xs, hx, hlater, rfl⟩ := List.forall₂_cons_left_iff.1 hvalues
    obtain ⟨cell, todo, rfl⟩ : ∃ cell later, todo = cell :: later := by
      cases todo with
      | nil => cases htypes
      | cons cell later => exact ⟨cell, later, rfl⟩
    obtain ⟨htype, htypes⟩ := List.cons.inj htypes
    let later := Draft.fieldLines slot (index + 1) (next + 1) values ++ rest
    -- The address of the field is new, so neither the slot nor the operands are touched.
    let m₁ := m.define next (.address slot index) (.store value next :: later)
    have hkeep : ∀ id < next, m₁.values id = m.values id := fun id hid =>
      Function.update_of_ne (Nat.ne_of_lt hid) _ _
    have hfield : f.step args m = some (.next m₁) := by
      rw [Function.step, hrest]
      simp [Draft.fieldLines, hslot, m₁, later]
    have heval : ∀ v ∈ value :: values, m₁.eval args v = m.eval args v := fun v hv =>
      Operand.eval_congr fun id hid => hkeep id (hbelow v hv id hid)
    have haddress : m₁.values next = some (.address slot index) := Function.update_self _ _ _
    have hstore := @Function.leads_store args m₁ slot next index value x done todo cell later f rfl
      ((heval value List.mem_cons_self).trans hx) haddress hmemory hindex htype
    let m₂ : Machine := { m₁ with
      rest := later, memory := Function.update m.memory slot (done ++ .holding x :: todo) }
    have hvalues₂ : List.Forall₂ (fun v y => m₂.eval args v = some y) values xs := by
      have hsame : ∀ v ∈ values, m₂.eval args v = m.eval args v := fun v hv =>
        heval v (List.mem_cons_of_mem _ hv)
      exact ((List.forall₂_and_left values xs).2 ⟨hsame, hlater⟩).imp
        fun v y hv => hv.1.trans hv.2
    obtain ⟨m', hleads, hrest', hslot', hmemory'⟩ := @ih m₂ (index + 1) (next + 1) xs
      (done ++ [.holding x]) todo rfl ((hkeep slot hnext).trans hslot) (by omega)
      (by simp [m₂]) (by simp [hindex]) htypes hvalues₂ fun v hv =>
        (hbelow v (List.mem_cons_of_mem _ hv)).mono (Nat.le_succ next)
    refine ⟨m', .head hfield (hstore.trans hleads), hrest', hslot', ?_⟩
    rw [hmemory']
    simp

/-- A structure whose fields were all stored is returned as a whole. -/
theorem Function.ends_retPacked (f : Function) {slot id : Nat} {fields : List ScalarType}
    {xs : List Scalar} {rest : List Line}
    (hrest : m.rest = .loadPacked id fields slot :: .retPacked id fields :: rest)
    (hslot : m.values slot = some (.address slot 0))
    (hmemory : m.memory slot = xs.map Cell.holding) (htypes : xs.map Scalar.type = fields) :
    f.Ends args m (.retPacked xs) := by
  -- All cells hold their values.
  have hcontents : (xs.map Cell.holding).mapM Cell.content = some xs := by
    clear hmemory htypes
    induction xs with
    | nil => rfl
    | cons x xs ih => simp [Cell.holding, ih]
  have hread : m.readPacked fields slot = some xs := by
    have hcells : (xs.map Cell.holding).map Cell.type = fields := by
      rw [← htypes, List.map_map]
      rfl
    simp [Machine.readPacked, hslot, hmemory, hcells, hcontents]
  refine ⟨m.define id (.packed xs) (.retPacked id fields :: rest), .single ?_, ?_⟩
  · rw [Function.step, hrest]
    simp [hread]
  · simp [Function.step, Machine.define, htypes]

end Runs

end WasmLowering.Ssa

namespace WasmLowering.Lowering

open Ssa Draft

/-- The native types of value types are the types of operands of these types. -/
theorem OperandsTyped.mapM {vs : List Operand} {ts : List ValueType} (h : OperandsTyped vs ts) :
    ts.mapM (ValueType.scalar hostPointerBits) = .ok (vs.map Operand.type) := by
  induction h with
  | nil => rfl
  | cons hv _ ih =>
    rw [List.mapM_cons, hv, ih]
    rfl

variable {args : List Scalar} {f : Ssa.Function} {last s t : State} {m : Machine}
  {stack locals : List Value} {xs vs : List Operand}

/-- A return ends the run with the topmost operands. -/
theorem Running.returns (h : Running args last s stack locals m) (hd : s.Disciplined)
    (hordered : s.Ordered) (live : s.phase = .live) (hret : s.ret = .ok t) (hlast : Moves t last)
    (hstack : s.stack.toList = xs ++ vs) (htyped : OperandsTyped vs s.results) :
    f.Ends args m
      (.returning ((stack.drop (stack.length - s.results.length)).map Value.native)) := by
  have hm := ret_moves live hret
  have ha := hd.sound.toArranged
  have hlen : vs.length = s.results.length := htyped.length_eq
  obtain ⟨hn, hb, fields, hfields, ht⟩ := ret_eq_ok.1 hret
  rw [← hlen, toList_top hstack] at ht
  have hdraft : t.draft = s.draft.returned fields vs := by rw [ht]
  have hvs : ∀ v ∈ vs, v.Below s.draft.nextValue := fun v hv =>
    hordered.stack v (Array.mem_toList_iff.1 (hstack ▸ List.mem_append_right _ hv))
  have hrep : m.Represents args vs (stack.drop (stack.length - s.results.length)) :=
    ((hstack ▸ h.stack : m.Represents args (xs ++ vs) stack).split hlen).2
  generalize stack.drop (stack.length - s.results.length) = returned at hrep
  -- No value, one value, or several in a structure.
  rcases vs with _ | ⟨v, _ | ⟨w, vs⟩⟩
  · obtain rfl := List.forall₂_nil_left_iff.1 hrep
    have hcode : t.draft.code s.draft.current = s.draft.code s.draft.current ++ [.retVoid] := by
      rw [hdraft]
      exact ha.code_append _
    obtain ⟨rest, hrest, -, -⟩ := h.next hd hm hlast hcode (by simp [Line.isReturnSlot])
    refine ⟨m, .refl, ?_⟩
    rw [Function.step, hrest]
    rfl
  · obtain ⟨y, ys, hy, hys, rfl⟩ := List.forall₂_cons_left_iff.1 hrep
    obtain rfl := List.forall₂_nil_left_iff.1 hys
    have hcode : t.draft.code s.draft.current = s.draft.code s.draft.current ++ [.ret v] := by
      rw [hdraft]
      exact ha.code_append _
    obtain ⟨rest, hrest, -, -⟩ := h.next hd hm hlast hcode (by simp [Line.isReturnSlot])
    refine ⟨m, .refl, ?_⟩
    rw [Function.step, hrest]
    simp [hy, Ending.returning]
  · have hpacked : t.draft = s.draft.retPacked fields (v :: w :: vs) := hdraft
    have htypes : (returned.map Value.native).map Scalar.type = fields := by
      rw [hrep.map_type]
      exact Except.ok.inj (htyped.mapM.symm.trans (hfields (by rw [← hlen]; simp)))
    -- The slot of the structure was made at the front of the function.
    have hslot : .alloca s.draft.nextValue (.packed fields) .ret ∈ last.draft.code entryLabel := by
      have hmem := Draft.alloca_mem_retPacked ha fields (v :: w :: vs)
      rw [← hpacked] at hmem
      have hdt := Moves.disciplined hm hd
      exact (Moves.extended hlast hdt hdt.sound.entry_mem hdt.sound.entry_placed).mem hmem
    obtain ⟨haddress, hcells⟩ := h.stored.returns _ _ hslot
    obtain ⟨front, hfront, hcode⟩ := Draft.code_retPacked ha fields (v :: w :: vs)
    rw [← hpacked] at hcode
    obtain ⟨rest, hrest, -⟩ := h.rest.split hm hlast hd hcode hfront fun line hline => by
      obtain hline | hline := List.mem_append.1 hline
      · exact not_isReturnSlot_fieldLines hline
      · obtain rfl | hline := List.mem_cons.1 hline
        · rfl
        · rw [List.mem_singleton.1 hline]
          rfl
    have hvalues : List.Forall₂ (fun value x => m.eval args value = some x) (v :: w :: vs)
        (returned.map Value.native) := List.forall₂_map_right_iff.2 hrep
    obtain ⟨m', hleads, hrest', hslot', hmemory'⟩ :=
      @Function.leads_fields args m f _ 0 _ _ _ [] _ _ (hrest.trans (List.append_assoc _ _ _))
        haddress (Nat.lt_succ_self _) rfl rfl (hcells.trans htypes.symm) hvalues
        fun v hv => (hvs v hv).mono (Nat.le_succ _)
    obtain ⟨m'', hleads', hends⟩ := f.ends_retPacked hrest' hslot' hmemory' htypes
    obtain ⟨x, xs, -, hxs, rfl⟩ := List.forall₂_cons_left_iff.1 hrep
    obtain ⟨y, ys, -, -, rfl⟩ := List.forall₂_cons_left_iff.1 hxs
    exact ⟨m'', hleads.trans hleads', hends⟩

end WasmLowering.Lowering
