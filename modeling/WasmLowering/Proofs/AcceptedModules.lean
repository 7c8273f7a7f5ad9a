import WasmLowering.Proofs.Loading

/-!
# Accepted modules

What is compiled has exactly the shape of a module: a header, framed sections up to the last byte,
in the order of their ids, each of which is filled by its entries. The order is that of ranks in the
loader, from which custom sections are exempt; the counts of functions and bodies agree because
sections that have not come yet have declared nothing.

## Key results

- `Loader.Takes.payload`: the payload of a section is a number of entries and the entries
- `Loader.moduleForm_of_frames`: the shape of a module follows from a run over its frames
- `compile_moduleForm`: what compiles has this shape, and what has another shape is refused
-/

namespace WasmLowering

/-- The forms of the payload of a section with a given number of entries. The start section and the
    data count are single numbers; any other section is the number of its entries and the
    entries. -/
inductive PayloadForm : SectionKind → Nat → Bytes → Prop where
  | entries {k : SectionKind} {edits : List TableEdit} {bytes : Bytes}
      (list : k.listsEntries = true) (form : VectorForm (EntryForm k) edits bytes) :
      PayloadForm k edits.length bytes
  | number {k : SectionKind} {e : TableEdit} {bytes : Bytes} (single : k = .start ∨ k = .dataCount)
      (form : EntryForm k e bytes) : PayloadForm k 1 bytes
  | code {bodies : List Bytes} {bytes : Bytes} (form : VectorForm SizedForm bodies bytes) :
      PayloadForm .code bodies.length bytes

/-- The shape of a module with a given number of bodies: a header and frames, in which the sections
    other than custom ones come in order and are filled by their entries. -/
structure ModuleForm (frames : List Frame) (bodies : Nat) (input : Bytes) : Prop where
  framed : ∃ parts, input = moduleMagic ++ (moduleVersion ++ parts.flatten) ∧
    List.Forall₂ FrameForm frames parts
  order : (rankedIds frames).Sublist sectionOrder
  payloads : ∀ f ∈ frames, f.id ≠ 0 → ∃ k n, f.id = k.id ∧ PayloadForm k n f.payload ∧
    (k = .code → n = bodies)
  absent : (∀ f ∈ frames, f.id ≠ SectionKind.code.id) → bodies = 0

namespace Loader

variable {l l' : Loader} {fs : List Frame}

/-- The payload of a section is a number of entries and the entries. -/
theorem Takes.payload {k : SectionKind} {payload : Bytes} (h : l.Takes k payload l') :
    ∃ n, PayloadForm k n payload ∧ (k = .code → n = l'.bodies) := by
  cases h with
  | entries list form =>
    refine ⟨_, .entries list form, ?_⟩
    -- The code section does not list entries of the table.
    rintro rfl
    cases list
  | number single form =>
    refine ⟨1, .number single form, ?_⟩
    rintro rfl
    simp at single
  | code form => exact ⟨_, .code form, fun _ => rfl⟩

/-- Every section of a run is filled by its entries, and a code section by the bodies in the end. -/
private theorem payloads_of_frames (h : Chain (fun l l' f => l.frame f = .ok l') l fs l') :
    ∀ f ∈ fs, f.id ≠ 0 → ∃ k n, f.id = k.id ∧ PayloadForm k n f.payload ∧
      (k = .code → n = l'.bodies) := by
  intro f hf hid
  by_cases hcode : f.id = SectionKind.code.id
  · obtain ⟨_, after, _, done, -, -, -, takes, hafter, tail⟩ := exists_code h hf hcode
    obtain ⟨n, form, hn⟩ := takes.payload
    -- No other code section follows, so the number of bodies stays.
    have hbodies : l'.bodies = done.bodies :=
      bodies_of_no_code hafter fun g hg heq => by
        obtain hg | hg := tail g hg <;> rw [hg] at heq <;> cases heq
    exact ⟨.code, n, hcode, form, fun _ => (hn rfl).trans hbodies.symm⟩
  · obtain ⟨before, after, rfl⟩ := List.append_of_mem hf
    obtain ⟨mid, -, hrest⟩ := Chain.append.1 h
    obtain _ | ⟨first, -⟩ := hrest
    obtain ⟨hcustom, -⟩ | ⟨-, -, k, hk, -, takes⟩ := frame_eq_ok first
    · exact absurd hcustom hid
    · have hk := SectionKind.id_of_ofId? hk
      obtain ⟨n, form, -⟩ := takes.payload
      -- Another section says nothing about the number of bodies.
      refine ⟨k, n, hk, form, ?_⟩
      rintro rfl
      exact absurd hk hcode

/-- The shape of a module follows from a run over its frames. -/
private theorem moduleForm_of_frames {parts : List Bytes} (forms : List.Forall₂ FrameForm fs parts)
    (h : ({} : Loader).frames fs = .ok l') :
    ModuleForm fs l'.bodies (moduleMagic ++ (moduleVersion ++ parts.flatten)) := by
  have chain := frames_eq_ok.1 h
  obtain ⟨increasing, known⟩ := increasing_frames chain
  exact {
    framed := ⟨parts, rfl, forms⟩
    order := sublist_sectionOrder (fun id hid => (known id hid).2) increasing
    payloads := payloads_of_frames chain
    absent := fun none => bodies_of_no_code chain none }

end Loader

/-- What a compiled module was loaded from. -/
theorem compile_eq_ok {name input : Bytes} {m : Module}
    (h : (compile name input).outcome = .ok m) :
    ∃ l, loadModule input = .ok l ∧ m.table = l.table ∧
      m.lowered = some { name, functions := l.functions, intrinsics := l.intrinsics } := by
  unfold compile at h
  split at h
  · cases h
  · next l hl =>
    obtain rfl := Except.ok.inj h
    exact ⟨l, hl, rfl, rfl⟩

/-- The functions that a module defines are those that are no imports. -/
theorem Loader.Counted.localFunctionCount {l : Loader} (counted : l.Counted) :
    l.table.localFunctionCount.toNat = l.declared := by
  have hsum : l.table.localFunctionCount = .ofNat l.declared := by
    rw [ModuleTable.localFunctionCount, ModuleTable.count, ModuleTable.importedCount,
      counted.functions, UInt32.ofNat_add, UInt32.add_comm, UInt32.add_sub_cancel]
  rw [hsum]
  exact UInt32.toNat_ofNat_of_lt' counted.small

/-- Whatever compiles is a header and framed sections in order, each filled by its entries, with one
    body for each function of the module. Whatever does not have this shape is refused. -/
theorem compile_moduleForm (name input : Bytes) :
    (∀ m, (compile name input).outcome = .ok m →
      ∃ frames lowered, m.lowered = some lowered ∧
        ModuleForm frames lowered.functions.size input ∧
        m.table.localFunctionCount.toNat = lowered.functions.size ∧
        m.table.functions.size = (m.table.imports.get .func).size + lowered.functions.size) ∧
    ((∀ frames bodies, ¬ ModuleForm frames bodies input) →
      ∃ fault, (compile name input).outcome = .error fault) := by
  have accepted : ∀ m, (compile name input).outcome = .ok m →
      ∃ frames lowered, m.lowered = some lowered ∧
        ModuleForm frames lowered.functions.size input ∧
        m.table.localFunctionCount.toNat = lowered.functions.size ∧
        m.table.functions.size = (m.table.imports.get .func).size + lowered.functions.size := by
    intro m hm
    obtain ⟨l, hload, htable, hlowered⟩ := compile_eq_ok hm
    obtain ⟨frames, parts, rfl, forms, hframes, hbodies⟩ := loadModule_eq_ok hload
    -- The counts made while loading tie the declared functions to the bodies.
    have counted := Loader.counted_of_frames (Loader.frames_eq_ok.1 hframes)
    have hsize : l.functions.size = l.declared := counted.lowered.trans hbodies
    refine ⟨frames, _, hlowered, ?_, ?_, ?_⟩
    · rw [counted.lowered]
      exact Loader.moduleForm_of_frames forms hframes
    · rw [htable, counted.localFunctionCount, hsize]
    · rw [htable, hsize]
      exact counted.functions
  refine ⟨accepted, fun refused => ?_⟩
  -- What compiles has the form, so what has no form fails.
  cases hm : (compile name input).outcome with
  | error fault => exact ⟨fault, rfl⟩
  | ok m =>
    obtain ⟨frames, lowered, -, form, -⟩ := accepted m hm
    exact absurd form (refused frames _)

/-- The bytes of a module with a custom section between its sections, in which the size of the code
    section is padded. -/
def paddedModule : Bytes :=
  [0x00, 0x61, 0x73, 0x6D, 0x01, 0x00, 0x00, 0x00,
    0x01, 0x05, 0x01, 0x60, 0x00, 0x01, 0x7F,
    0x00, 0x02, 0x01, 0x78,
    0x03, 0x02, 0x01, 0x00,
    0x0A, 0x86, 0x00, 0x01, 0x04, 0x00, 0x41, 0x07, 0x0B]

/-- The module is accepted with one body, and is refused if a byte is added. -/
theorem compile_moduleForm_padded :
    (∃ m frames lowered, (compile [] paddedModule).outcome = .ok m ∧ m.lowered = some lowered ∧
      ModuleForm frames lowered.functions.size paddedModule ∧ lowered.functions.size = 1) ∧
    (∀ frames bodies, ¬ ModuleForm frames bodies (paddedModule ++ [0x00])) ∧
    ∃ fault, (compile [] (paddedModule ++ [0x00])).outcome = .error fault := by
  have hcount : ((compile [] paddedModule).outcome.toOption.map
      fun m => m.table.localFunctionCount.toNat) = some 1 := by decide +kernel
  cases hm : (compile [] paddedModule).outcome with
  | error fault => simp [hm, Except.toOption] at hcount
  | ok m =>
    obtain ⟨frames, lowered, hlowered, form, hlocal, -⟩ :=
      (compile_moduleForm [] paddedModule).1 m hm
    have hone : m.table.localFunctionCount.toNat = 1 := by
      simpa [hm, Except.toOption] using hcount
    -- A byte behind the last section is no section, as its size is missing.
    have hnone : ∀ frames bodies, ¬ ModuleForm frames bodies (paddedModule ++ [0x00]) := by
      intro frames bodies form
      obtain ⟨parts, hinput, forms⟩ := form.framed
      have hparts : (paddedModule ++ [0x00]).drop 8 = parts.flatten ++ [] := by
        rw [hinput, List.append_nil]
        rfl
      have hcomplete := congrArg Framing.complete (Framing.split_flatten_append forms [])
      have hincomplete : (Framing.split ((paddedModule ++ [0x00]).drop 8)).complete = false := by
        decide +kernel
      rw [← hparts, hincomplete] at hcomplete
      simp [Framing.split] at hcomplete
    exact ⟨⟨m, frames, lowered, rfl, hlowered, form, hlocal.symm.trans hone⟩, hnone,
      (compile_moduleForm [] (paddedModule ++ [0x00])).2 hnone⟩

end WasmLowering
