import WasmLowering.Proofs.ModuleLife

/-!
# Segments

A module lists its element segments in one section and its data segments in another one, and may
announce the number of data segments in a third. The table holds what these sections list. It is not
checked as a whole, however. The items of an element segment that are written as indices of
functions are compared with the functions that exist, while an expression may refer to any function.
The announced number is compared with the data segments where they are listed, so that a module
which lists none may announce some.

## Key results

- `ModuleTable.edit_segments`: what an edit does to segments
- `Loader.frame_elements`: the element section lists valid segments
- `loaded_elements`, `loaded_dataCount`: the segments of a loaded module, by its sections
- `indexed_items_in_range`: the functions that element segments refer to
- `data_count_of_listed`: the number of data segments
-/

namespace WasmLowering

/-! ## Edits -/

/-- The segments of a module, and the number of data segments that it announces. -/
structure Segments where
  elements : Array ElementSegment
  data : Array DataSegment
  dataCount : Option UInt32

/-- The segments in a table. -/
def ModuleTable.segments (t : ModuleTable) : Segments :=
  { elements := t.elements, data := t.data, dataCount := t.dataCount }

/-- The segments after an edit. -/
def TableEdit.segmented (e : TableEdit) (s : Segments) : Segments :=
  match e with
  | addElement segment => { s with elements := s.elements.push segment }
  | addData segment => { s with data := s.data.push segment }
  | setDataCount count => { s with dataCount := some count }
  | _ => s

/-- The entry of an import is no segment. -/
theorem ModuleTable.segments_addImported {t u : ModuleTable} {desc : ImportDesc}
    (h : t.built (.addImported desc) = .ok u) : u.segments = t.segments := by
  cases desc with
  | func typeIndex =>
    obtain ⟨-, rfl⟩ := addFunction_eq_ok.1 h
    rfl
  | memory limits =>
    obtain ⟨-, rfl⟩ := pushMemory_eq_ok.1 h
    rfl
  | table | global =>
    obtain rfl := Except.ok.inj h
    rfl

/-- What an edit does to segments. -/
theorem ModuleTable.edit_segments {t u : ModuleTable} {e : TableEdit} (h : t.edit e = .ok u) :
    u.segments = e.segmented t.segments := by
  cases e with
  | addImport module name desc =>
    obtain ⟨-, v, hv, rfl⟩ := addImport_eq_ok.1 h
    have same : v.segments = t.segments := segments_addImported hv
    exact same
  | addFunction typeIndex =>
    obtain ⟨-, rfl⟩ := addFunction_eq_ok.1 h
    rfl
  | addMemory limits =>
    obtain ⟨-, rfl⟩ := pushMemory_eq_ok.1 h
    rfl
  | addExport name code index =>
    obtain ⟨_, -, -, rfl⟩ := addExport_eq_ok.1 h
    rfl
  | setStart index =>
    obtain ⟨-, rfl⟩ := setStart_eq_ok.1 h
    rfl
  | setFunctionName index name =>
    obtain ⟨-, rfl⟩ := setFunctionName_eq_ok.1 h
    rfl
  | _ =>
    obtain rfl := Except.ok.inj h
    rfl

theorem EntryForm.segmented_eq {k : SectionKind} {e : TableEdit} {bytes : Bytes}
    (h : EntryForm k e bytes) (s : Segments) :
    (k ≠ .elements → (e.segmented s).elements = s.elements) ∧
      (k ≠ .data → (e.segmented s).data = s.data) ∧
      (k ≠ .dataCount → (e.segmented s).dataCount = s.dataCount) := by
  cases h <;> simp [TableEdit.segmented]

/-- Entries of the data section add one data segment each. -/
theorem ModuleTable.size_data_edits {t u : ModuleTable} {edits : List TableEdit}
    {parts : List Bytes} (h : t.Edits edits u)
    (forms : List.Forall₂ (EntryForm .data) edits parts) :
    u.data.size = t.data.size + edits.length := by
  unfold Edits at h
  -- Along the entries; an entry of this section is an added data segment.
  induction forms generalizing t with
  | nil =>
    obtain ⟨⟩ := h
    rfl
  | cons form _ ih =>
    obtain _ | ⟨first, rest⟩ := h
    obtain ⟨_⟩ := form
    obtain rfl := Except.ok.inj first
    rw [ih rest, List.length_cons]
    show (t.data.push _).size + _ = _
    rw [Array.size_push]
    omega

/-- Only imports and declarations change the number of functions. -/
theorem EntryForm.size_functions {k : SectionKind} {e : TableEdit} {bytes : Bytes}
    {t u : ModuleTable} (hk : k ∉ [.imports, .functions]) (h : EntryForm k e bytes)
    (hedit : t.edit e = .ok u) : u.functions.size = t.functions.size := by
  obtain ⟨himports, hfunctions⟩ : k ≠ .imports ∧ k ≠ .functions := by simpa using hk
  have hsize := ModuleTable.size_edit hedit
  have himported := ModuleTable.size_imports_edit hedit
  have hnone := h.imports_func
  rw [if_neg himports] at hnone
  rw [h.own_func, if_neg hfunctions] at hsize
  omega

/-! ## Runs over frames -/

namespace Loader

variable {l l' : Loader} {fs : List Frame}

/-- Without an element section the element segments stay. -/
private theorem elements_of_frames (h : Chain (fun l l' f => l.frame f = .ok l') l fs l')
    (none : ∀ f ∈ fs, f.id ≠ SectionKind.elements.id) : l'.table.elements = l.table.elements := by
  refine kept_of_frames (·.segments.elements) [.elements] (fun _ => rfl) ?_ h (by simpa using none)
  intro k e bytes t u hk form hedit
  rw [ModuleTable.edit_segments hedit, (form.segmented_eq _).1 (by simpa using hk)]

/-- Without a data section the data segments stay. -/
private theorem data_of_frames (h : Chain (fun l l' f => l.frame f = .ok l') l fs l')
    (none : ∀ f ∈ fs, f.id ≠ SectionKind.data.id) : l'.table.data = l.table.data := by
  refine kept_of_frames (·.segments.data) [.data] (fun _ => rfl) ?_ h (by simpa using none)
  intro k e bytes t u hk form hedit
  rw [ModuleTable.edit_segments hedit, (form.segmented_eq _).2.1 (by simpa using hk)]

/-- Without an announcement the announced number stays. -/
private theorem dataCount_of_frames (h : Chain (fun l l' f => l.frame f = .ok l') l fs l')
    (none : ∀ f ∈ fs, f.id ≠ SectionKind.dataCount.id) :
    l'.table.dataCount = l.table.dataCount := by
  refine kept_of_frames (·.segments.dataCount) [.dataCount] (fun _ => rfl) ?_ h
    (by simpa using none)
  intro k e bytes t u hk form hedit
  rw [ModuleTable.edit_segments hedit, (form.segmented_eq _).2.2 (by simpa using hk)]

private theorem size_functions_of_frames (h : Chain (fun l l' f => l.frame f = .ok l') l fs l')
    (none : ∀ f ∈ fs, f.id ≠ SectionKind.imports.id ∧ f.id ≠ SectionKind.functions.id) :
    l'.table.functions.size = l.table.functions.size :=
  kept_of_frames (·.functions.size) [.imports, .functions] (fun _ => Array.size_map)
    EntryForm.size_functions h (by simpa using none)

end Loader

/-! ## Element segments -/

/-- Valid element segments that are added to a table. -/
theorem ModuleTable.added_elements {t u : ModuleTable} {descs : List ElementDesc}
    (h : Chain (fun t u (s : ElementDesc) =>
      u = t.addElement s.segment ∧ s.Valid t.functions.size) t descs u) :
    u = { t with elements := t.elements ++ (descs.map ElementDesc.segment).toArray } ∧
      ∀ s ∈ descs, s.Valid t.functions.size := by
  induction h with
  | nil t => exact ⟨by simp, by simp⟩
  | cons first _ ih =>
    -- A segment adds no function, so all of them are checked against the same number.
    obtain ⟨rfl, valid⟩ := first
    obtain ⟨rfl, later⟩ := ih
    exact ⟨by simp [addElement], List.forall_mem_cons.2 ⟨valid, later⟩⟩

/-- The element section adds the segments that it lists, with the functions checked that are given
    by their indices. -/
theorem Loader.frame_elements {l l' : Loader} {f : Frame} (hid : f.id = SectionKind.elements.id)
    (h : l.frame f = .ok l') :
    ∃ descs : List ElementDesc, VectorForm ElementForm descs f.payload ∧
      (∀ s ∈ descs, s.Valid l.table.functions.size) ∧
      l'.table = { l.table with
        elements := l.table.elements ++ (descs.map ElementDesc.segment).toArray } := by
  -- The forms of entries do not tell what was checked, so the decoder itself is looked at.
  obtain ⟨-, hrun⟩ := frame_run hid (by decide) h
  obtain ⟨table, htable, rfl⟩ := Decoder.run_bind_pure_eq_ok hrun
  obtain ⟨n, mid, hn, hentries⟩ := Decoder.run_bind_eq_ok.1 htable
  obtain ⟨count, hpayload, number⟩ := Decoder.sound_u32 hn
  have sound : ∀ t, (Decoder.elementEntry t).Sound fun u bytes => ∃ s : ElementDesc,
      (u = t.addElement s.segment ∧ s.Valid t.functions.size) ∧ ElementForm s bytes := by
    intro t input rest u hentry
    obtain ⟨bytes, hbytes, s, hadd, valid, form⟩ := Decoder.sound_element t hentry
    exact ⟨bytes, hbytes, s, ⟨hadd, valid⟩, form⟩
  obtain ⟨_, rfl, parts, hlength, rfl, chain⟩ := Decoder.sound_iterate sound _ _ hentries
  obtain ⟨descs, added, forms⟩ := chain.written
  obtain ⟨rfl, valid⟩ := ModuleTable.added_elements added
  have hcount : descs.length = n.toNat := forms.length_eq.trans hlength
  rw [hpayload, List.append_nil]
  exact ⟨descs, .mk (hcount ▸ number) forms, valid, rfl⟩

/-- The element segments that the sections of a module list. -/
structure ListsElements (frames : List Frame) (descs : List ElementDesc) : Prop where
  listed : ∀ f ∈ frames, f.id = SectionKind.elements.id → VectorForm ElementForm descs f.payload
  absent : (∀ f ∈ frames, f.id ≠ SectionKind.elements.id) → descs = []

/-- A loaded module has the element segments that it lists. -/
theorem loaded_elements {frames : List Frame} {l : Loader}
    (h : Chain (fun l l' f => l.frame f = .ok l') {} frames l) :
    ∃ descs, ListsElements frames descs ∧
      l.table.elements = (descs.map ElementDesc.segment).toArray ∧
      ∀ s ∈ descs, s.Valid l.table.functions.size := by
  by_cases hpresent : ∃ f ∈ frames, f.id = SectionKind.elements.id
  · obtain ⟨f, hf, hid⟩ := hpresent
    obtain ⟨before, after, mid, done, rfl, hbefore, hframe, hafter, first, last, later⟩ :=
      Loader.exists_section h hf hid (by decide)
    obtain ⟨descs, form, valid, hdone⟩ := Loader.frame_elements hid hframe
    have helements : done.table.elements = (descs.map ElementDesc.segment).toArray := by
      rw [hdone, Loader.elements_of_frames hbefore first]
      simp
    -- Functions are imported and declared before there are element segments.
    have hfunctions : l.table.functions.size = mid.table.functions.size := by
      rw [Loader.size_functions_of_frames hafter, hdone]
      intro g hg
      exact ⟨SectionKind.id_ne_of_rank (later g hg) (by decide) (by decide),
        SectionKind.id_ne_of_rank (later g hg) (by decide) (by decide)⟩
    refine ⟨descs, ⟨fun g hg hgid => ?_, fun none => absurd hid (none f hf)⟩, ?_,
      hfunctions ▸ valid⟩
    · -- There is no other element section.
      obtain hmem | rfl | hmem : g ∈ before ∨ g = f ∨ g ∈ after := by simpa using hg
      · exact absurd hgid (first g hmem)
      · exact form
      · exact absurd hgid (last g hmem)
    · rw [Loader.elements_of_frames hafter last, helements]
  · have none : ∀ f ∈ frames, f.id ≠ SectionKind.elements.id := by simpa using hpresent
    refine ⟨[], ⟨fun f hf hid => absurd hid (none f hf), fun _ => rfl⟩, ?_, by simp⟩
    rw [Loader.elements_of_frames h none]
    rfl

/-- The functions that the items refer to are among the first ones. -/
def ElementSegment.InRange (count : Nat) (s : ElementSegment) : Prop :=
  ∀ item ∈ s.items, item.opcode = 0xD2 → item.value.toNat < count

instance (count : Nat) (s : ElementSegment) : Decidable (s.InRange count) :=
  inferInstanceAs (Decidable (∀ item ∈ s.items, item.opcode = 0xD2 → item.value.toNat < count))

/-- The flags below four are those of segments whose items are indices. -/
theorem ElementDesc.flags_lt_four {s : ElementDesc} :
    s.flags < 4 ↔ s.items.expressions = false := by
  unfold flags
  cases s.place.inactive <;> cases s.place.explicit <;> cases s.items.expressions <;> decide

/-- The items of a segment with low flags are functions that exist. -/
theorem ElementDesc.items_of_valid {s : ElementDesc} {count : Nat} (valid : s.Valid count)
    (hflags : s.flags < 4) {item : ConstExpr} (hmem : item ∈ s.segment.items) :
    item.opcode = 0xD2 ∧ item.value.toNat < count := by
  rw [flags_lt_four] at hflags
  obtain ⟨place, items⟩ := s
  cases items with
  | references type items => cases hflags
  | functions indices =>
    obtain ⟨index, hindex, rfl⟩ := List.mem_map.1 hmem
    exact ⟨rfl, by simpa [ConstExpr.refFunc] using valid index hindex⟩

/-- Whatever compiles has the element segments that its element section lists, if there is one. The
    items of segments with flags below four are functions that exist. So all functions that the
    segments refer to exist exactly if those do that the expressions in segments with other flags
    refer to. -/
theorem indexed_items_in_range {name input : Bytes} {m : Module}
    (h : (compile name input).outcome = .ok m) :
    ∃ frames parts descs, input = moduleMagic ++ (moduleVersion ++ parts.flatten) ∧
      List.Forall₂ FrameForm frames parts ∧ ListsElements frames descs ∧
      m.table.elements.toList = descs.map ElementDesc.segment ∧
      (∀ s ∈ descs, s.flags < 4 → ∀ item ∈ s.segment.items,
        item.opcode = 0xD2 ∧ item.value.toNat < m.table.functions.size) ∧
      ((∀ segment ∈ m.table.elements, segment.InRange m.table.functions.size) ↔
        ∀ s ∈ descs, 4 ≤ s.flags → s.segment.InRange m.table.functions.size) := by
  obtain ⟨l, hload, htable, -⟩ := compile_eq_ok h
  obtain ⟨frames, parts, rfl, forms, hframes, -⟩ := loadModule_eq_ok hload
  obtain ⟨descs, lists, helements, valid⟩ := loaded_elements (Loader.frames_eq_ok.1 hframes)
  rw [← htable] at helements valid
  have indexed : ∀ s ∈ descs, s.flags < 4 → ∀ item ∈ s.segment.items,
      item.opcode = 0xD2 ∧ item.value.toNat < m.table.functions.size :=
    fun s hs hflags _ hitem => ElementDesc.items_of_valid (valid s hs) hflags hitem
  refine ⟨frames, parts, descs, rfl, forms, lists, by rw [helements], indexed, ?_⟩
  rw [helements]
  constructor
  · intro inRange s hs _
    exact inRange s.segment (by simpa using ⟨s, hs, rfl⟩)
  · intro expressions segment hmem
    obtain ⟨s, hs, rfl⟩ : ∃ s ∈ descs, s.segment = segment := by simpa using hmem
    -- Items that are indices are in range anyway.
    by_cases hflags : s.flags < 4
    · exact fun item hitem _ => (indexed s hs hflags item hitem).2
    · exact expressions s hs (by simpa using hflags)

/-- A module with one function and a segment for each way to refer to it. -/
def referringModule : Bytes :=
  [0x00, 0x61, 0x73, 0x6D, 0x01, 0x00, 0x00, 0x00,
    0x01, 0x04, 0x01, 0x60, 0x00, 0x00,
    0x03, 0x02, 0x01, 0x00,
    0x09, 0x0B, 0x02, 0x01, 0x00, 0x01, 0x00, 0x05, 0x70, 0x01, 0xD2, 0x00, 0x0B,
    0x0A, 0x04, 0x01, 0x02, 0x00, 0x0B]

/-- Both segments are found, and the one with an index refers to the function. -/
theorem indexed_items_of_referring :
    ∃ m, (compile [] referringModule).outcome = .ok m ∧ m.table.functions.size = 1 ∧
      ∃ descs : List ElementDesc, m.table.elements.toList = descs.map ElementDesc.segment ∧
        descs.length = 2 ∧ ∀ s ∈ descs, s.flags < 4 → ∀ item ∈ s.segment.items,
          item.opcode = 0xD2 ∧ item.value.toNat < 1 := by
  have hsizes : ((compile [] referringModule).outcome.toOption.map
      fun m => (m.table.functions.size, m.table.elements.size)) = some (1, 2) := by decide +kernel
  obtain ⟨m, hm, hsizes⟩ := exists_ok_of_map hsizes
  obtain ⟨hone, htwo⟩ := Prod.mk.inj hsizes
  obtain ⟨_, _, descs, -, -, -, helements, indexed, -⟩ := indexed_items_in_range hm
  rw [hone] at indexed
  refine ⟨m, hm, hone, descs, helements, ?_, indexed⟩
  rw [← List.length_map ElementDesc.segment, ← helements, Array.length_toList, htwo]

/-- A module with one function, and a segment with an expression that refers to a second one. -/
def strayModule : Bytes :=
  [0x00, 0x61, 0x73, 0x6D, 0x01, 0x00, 0x00, 0x00,
    0x01, 0x04, 0x01, 0x60, 0x00, 0x00,
    0x03, 0x02, 0x01, 0x00,
    0x09, 0x07, 0x01, 0x05, 0x70, 0x01, 0xD2, 0x01, 0x0B,
    0x0A, 0x04, 0x01, 0x02, 0x00, 0x0B]

/-- An expression that refers to no function is accepted. -/
theorem stray_expression_accepted :
    ∃ m, (compile [] strayModule).outcome = .ok m ∧
      ¬ ∀ segment ∈ m.table.elements, segment.InRange m.table.functions.size := by
  have hstray : ((compile [] strayModule).outcome.toOption.map
      fun m => decide (∀ segment ∈ m.table.elements.toList,
        segment.InRange m.table.functions.size)) = some false := by decide +kernel
  obtain ⟨m, hm, hnot⟩ := exists_ok_of_map hstray
  refine ⟨m, hm, fun inRange => of_decide_eq_false hnot fun segment hmem => ?_⟩
  exact inRange segment (by simpa using hmem)

/-! ## Data segments -/

section Data

variable {frames : List Frame} {l : Loader} {n : UInt32}

/-- The number of data segments that a loaded module announces stands in a section. -/
theorem loaded_dataCount (h : Chain (fun l l' f => l.frame f = .ok l') {} frames l)
    (hcount : l.table.dataCount = some n) :
    ∃ f ∈ frames, f.id = SectionKind.dataCount.id ∧ IndexForm n f.payload := by
  by_cases hpresent : ∃ f ∈ frames, f.id = SectionKind.dataCount.id
  · obtain ⟨f, hf, hid⟩ := hpresent
    obtain ⟨before, after, mid, done, rfl, -, hframe, hafter, -, last, -⟩ :=
      Loader.exists_section h hf hid (by decide)
    refine ⟨f, hf, hid, ?_⟩
    rw [Loader.dataCount_of_frames hafter last] at hcount
    obtain ⟨-, takes⟩ := Loader.frame_takes hid (by decide) hframe
    -- The section is one number.
    cases takes with
    | entries list => cases list
    | number _ form edited =>
      cases form with
      | dataCount index =>
        obtain rfl := Except.ok.inj edited
        obtain rfl := Option.some.inj hcount
        exact index
  · rw [Loader.dataCount_of_frames h (by simpa using hpresent)] at hcount
    cases hcount

/-- The data section has as many entries as were announced. -/
private theorem loaded_data (h : Chain (fun l l' f => l.frame f = .ok l') {} frames l)
    (hcount : l.table.dataCount = some n) {f : Frame} (hf : f ∈ frames)
    (hid : f.id = SectionKind.data.id) : l.table.data.size = n.toNat := by
  obtain ⟨before, after, mid, done, rfl, hbefore, hframe, hafter, first, last, later⟩ :=
    Loader.exists_section h hf hid (by decide)
  obtain ⟨-, takes⟩ := Loader.frame_takes hid (by decide) hframe
  -- The announcement comes before the data section.
  rw [Loader.dataCount_of_frames hafter fun g hg =>
    SectionKind.id_ne_of_rank (later g hg) (by decide) (by decide)] at hcount
  rw [Loader.data_of_frames hafter last]
  cases takes with
  | entries _ form edited announced =>
    obtain ⟨_, forms⟩ := form.parts
    have hsize := ModuleTable.size_data_edits edited forms
    -- Before the section there is no data segment.
    have hnone := congrArg Array.size (Loader.data_of_frames hbefore first)
    obtain ⟨data, rfl⟩ := ModuleTable.edits_data edited forms
    rw [announced rfl n hcount]
    exact hsize.trans (by rw [hnone]; exact Nat.zero_add _)
  | number single => simp at single

end Data

/-- Whatever compiles and announces a number of data segments does so in a section, and has this
    number of data segments if it has a data section. Without a data section it has none, whatever
    it announces. So the number is right exactly if it is zero or there is a data section. -/
theorem data_count_of_listed {name input : Bytes} {m : Module} {n : UInt32}
    (h : (compile name input).outcome = .ok m) (hcount : m.table.dataCount = some n) :
    ∃ frames parts, input = moduleMagic ++ (moduleVersion ++ parts.flatten) ∧
      List.Forall₂ FrameForm frames parts ∧
      (∃ f ∈ frames, f.id = SectionKind.dataCount.id ∧ IndexForm n f.payload) ∧
      ((∃ f ∈ frames, f.id = SectionKind.data.id) → m.table.data.size = n.toNat) ∧
      ((∀ f ∈ frames, f.id ≠ SectionKind.data.id) → m.table.data.size = 0) ∧
      (m.table.data.size = n.toNat ↔ n = 0 ∨ ∃ f ∈ frames, f.id = SectionKind.data.id) := by
  obtain ⟨l, hload, htable, -⟩ := compile_eq_ok h
  obtain ⟨frames, parts, rfl, forms, hframes, -⟩ := loadModule_eq_ok hload
  have chain := Loader.frames_eq_ok.1 hframes
  rw [htable] at hcount ⊢
  have listed : (∃ f ∈ frames, f.id = SectionKind.data.id) → l.table.data.size = n.toNat := by
    rintro ⟨f, hf, hid⟩
    exact loaded_data chain hcount hf hid
  have absent : (∀ f ∈ frames, f.id ≠ SectionKind.data.id) → l.table.data.size = 0 := by
    intro none
    rw [Loader.data_of_frames chain none]
    rfl
  refine ⟨frames, parts, rfl, forms, loaded_dataCount chain hcount, listed, absent, ?_⟩
  -- Without a data section there are no segments, so only zero is right.
  by_cases hpresent : ∃ f ∈ frames, f.id = SectionKind.data.id
  · simp [hpresent, listed hpresent]
  · rw [absent (by simpa using hpresent), or_iff_left hpresent, ← UInt32.toNat_inj, eq_comm]
    rfl

/-- A module that announces a data segment and lists it. -/
def announcingModule : Bytes :=
  [0x00, 0x61, 0x73, 0x6D, 0x01, 0x00, 0x00, 0x00,
    0x0C, 0x01, 0x01,
    0x0B, 0x03, 0x01, 0x01, 0x00]

/-- The module has the segment that it announces. -/
theorem data_count_of_announcing :
    ∃ m, (compile [] announcingModule).outcome = .ok m ∧ m.table.dataCount = some 1 ∧
      m.table.data.size = 1 := by
  have hcount : ((compile [] announcingModule).outcome.toOption.map
      fun m => m.table.dataCount) = some (some 1) := by decide +kernel
  obtain ⟨m, hm, hone⟩ := exists_ok_of_map hcount
  obtain ⟨frames, parts, hinput, forms, -, listed, -⟩ := data_count_of_listed hm hone
  have hdata : ∃ f ∈ frames, f.id = SectionKind.data.id := by
    rw [← frames_of_form forms, ← hinput]
    decide +kernel
  exact ⟨m, hm, hone, listed hdata⟩

/-- The module without its data section. -/
def unlistedModule : Bytes :=
  [0x00, 0x61, 0x73, 0x6D, 0x01, 0x00, 0x00, 0x00,
    0x0C, 0x01, 0x01]

/-- A module that only announces a data segment is accepted. -/
theorem announced_data_missing :
    ∃ m, (compile [] unlistedModule).outcome = .ok m ∧ m.table.dataCount = some 1 ∧
      m.table.data.size = 0 := by
  have hrun : ((compile [] unlistedModule).outcome.toOption.map
      fun m => (m.table.dataCount, m.table.data.size)) = some (some 1, 0) := by decide +kernel
  obtain ⟨m, hm, hparts⟩ := exists_ok_of_map hrun
  exact ⟨m, hm, Prod.mk.inj hparts⟩

end WasmLowering
