import WasmLowering.Proofs.Loading
import WasmLowering.Proofs.RoundTrip

/-!
# Custom sections

Custom sections change nothing but debug names. A section that is not called `name` is passed over,
so that the loader reaches the same state without it. A name section changes the names of functions
and the warnings. No other part of the loader looks at these: each decoder that works on the module
table commutes with the removal of names, and so does a run over frames, also if it fails.

## Key results

- `Decoder.map_ofKind`, `Loader.map_sectionDecoder`: decoders commute with the removal of names
- `Loader.outcome_frames`: so does a run over frames
- `compile_custom`: a custom section may be inserted between any two sections
-/

namespace WasmLowering

/-! ## Decoders and changes of state -/

namespace Decoder

variable {α β σ : Type}

private theorem map_ofExcept (f : α → β) (x : Except Fault α) :
    f <$> ofExcept x = ofExcept (f <$> x) := by
  cases x <;> rfl

/-- What each step commutes with, a repetition does. -/
private theorem map_iterate {f : σ → σ} {step : σ → Decoder σ} (h : ∀ s, f <$> step s = step (f s))
    (n : Nat) (s : σ) : f <$> iterate step n s = iterate step n (f s) := by
  induction n generalizing s with
  | zero => rfl
  | succ n ih =>
    calc f <$> (step s >>= iterate step n)
      _ = step s >>= fun t => iterate step n (f t) := by simp only [map_bind, ih]
      _ = (f <$> step s) >>= iterate step n := (bind_map_left ..).symm
      _ = step (f s) >>= iterate step n := by rw [h]

private theorem map_entries {f : σ → σ} {entry : σ → Decoder σ}
    (h : ∀ s, f <$> entry s = entry (f s))
    (s : σ) : f <$> entries entry s = entries entry (f s) := by
  simp only [entries, map_bind, map_iterate h]

/-- A result may be changed before or after everything has been read. -/
private theorem decodeAll_map (f : α → β) (d : Decoder α) (input : Bytes) :
    (f <$> d).decodeAll input = f <$> d.decodeAll input := by
  rw [map_eq_pure_bind, decodeAll, decodeAll, run_bind]
  cases hd : d.run input with
  | mk result rest => cases result <;> cases rest <;> rfl

end Decoder

/-! ## The module table -/

namespace ModuleTable

variable (t : ModuleTable)

@[simp] theorem size_functions_unnamed : t.unnamed.functions.size = t.functions.size :=
  Array.size_map

@[simp] theorem count_unnamed (k : ExternalKind) : t.unnamed.count k = t.count k := by
  cases k <;> simp [count, unnamed]

private theorem map_built_test {condition : ModuleTable → Bool} {c : TableBuilder Unit}
    (same : condition t.unnamed = condition t) (h : unnamed <$> t.built c = t.unnamed.built c) :
    unnamed <$> t.built (TableBuilder.test condition >>= fun _ => c) =
      t.unnamed.built (TableBuilder.test condition >>= fun _ => c) := by
  rw [built_test, built_test, same, ← h]
  split <;> rfl

private theorem map_addFunction (typeIndex : UInt32) :
    unnamed <$> t.built (.addFunction typeIndex) = t.unnamed.built (.addFunction typeIndex) := by
  refine t.map_built_test rfl ?_
  exact congrArg Except.ok (by simp [unnamed])

private theorem map_pushMemory (refusal : Cause) (limits : Limits) :
    unnamed <$> t.built (.pushMemory refusal limits) =
      t.unnamed.built (.pushMemory refusal limits) := by
  unfold TableBuilder.pushMemory
  split <;> rfl

private theorem map_addImported (desc : ImportDesc) :
    unnamed <$> t.built (.addImported desc) = t.unnamed.built (.addImported desc) := by
  cases desc with
  | func typeIndex => exact t.map_addFunction typeIndex
  | table type => rfl
  | memory limits => exact t.map_pushMemory _ limits
  | global type => rfl

/-- An import is added whatever the names of functions are. -/
private theorem map_addImport (module name : Bytes) (desc : ImportDesc) :
    unnamed <$> t.built (.addImport module name desc) =
      t.unnamed.built (.addImport module name desc) := by
  rw [built_addImport, built_addImport, count_unnamed, ← map_addImported]
  -- The imports are the same in both tables, so both pass the test or neither.
  have same : t.unnamed.imports = t.imports := rfl
  rw [same]
  split
  · cases t.built (.addImported desc) <;> rfl
  · rfl

private theorem map_addExport (name : Bytes) (code : UInt8) (index : UInt32) :
    unnamed <$> t.built (.addExport name code index) =
      t.unnamed.built (.addExport name code index) := by
  have hcount : t.unnamed.countOfCode code = t.countOfCode code := by
    unfold countOfCode
    split <;> simp
  refine t.map_built_test (by rw [hcount]) ?_
  cases ExternalKind.ofCode? code <;> rfl

private theorem map_setStart (index : UInt32) :
    unnamed <$> t.built (.setStart index) = t.unnamed.built (.setStart index) :=
  t.map_built_test (by rw [size_functions_unnamed]) rfl

end ModuleTable

/-! ## Sections -/

/-- Entries are read without regard to names. -/
theorem Decoder.map_ofKind (k : SectionKind) (t : ModuleTable) :
    ModuleTable.unnamed <$> ofKind k t = ofKind k t.unnamed := by
  -- Each decoder reads the same bytes for both tables, and then edits them alike.
  cases k with
  | custom => rfl
  | code => rfl
  | types =>
    simp only [ofKind, typeEntry, map_bind]
    refine congrArg (byte >>= ·) (funext fun form => ?_)
    split
    · simp only [map_bind, map_pure]
      rfl
    · rfl
  | imports => simp only [ofKind, importEntry, map_bind, map_ofExcept, ModuleTable.map_addImport]
  | functions =>
    simp only [ofKind, functionEntry, map_bind, map_ofExcept, ModuleTable.map_addFunction]
  | tables =>
    simp only [ofKind, tableEntry, map_bind, map_pure]
    rfl
  | memories =>
    simp only [ofKind, memoryEntry, TableBuilder.addMemory, map_bind, map_ofExcept,
      ModuleTable.map_pushMemory]
  | globals =>
    simp only [ofKind, globalEntry, map_bind, map_pure]
    rfl
  | exports =>
    simp only [ofKind, exportEntry, map_bind]
    refine congrArg (sized >>= ·) (funext fun name => congrArg (byte >>= ·) (funext fun kind => ?_))
    split
    · rfl
    · simp only [map_bind, map_ofExcept, ModuleTable.map_addExport]
  | start => simp only [ofKind, startEntry, map_bind, map_ofExcept, ModuleTable.map_setStart]
  | elements =>
    simp only [ofKind, elementEntry, elementItem, ModuleTable.size_functions_unnamed, map_bind,
      map_pure]
    rfl
  | data =>
    simp only [ofKind, dataEntry, map_bind, map_pure]
    rfl
  | dataCount =>
    simp only [ofKind, dataCountEntry, map_bind, map_pure]
    rfl

namespace Loader

/-- A section of the table is read without regard to names. -/
private theorem map_tableSection {d : ModuleTable → Decoder ModuleTable} (l : Loader)
    (h : ∀ t, ModuleTable.unnamed <$> d t = d t.unnamed) :
    unnamed <$> l.tableSection d = l.unnamed.tableSection d := by
  calc unnamed <$> l.tableSection d
    _ = d l.table >>= fun table => pure { l.unnamed with table := table.unnamed } := by
      simp only [tableSection, map_bind, map_pure]
      rfl
    _ = (ModuleTable.unnamed <$> d l.table) >>= fun table => pure { l.unnamed with table } := by
      rw [bind_map_left]
    _ = l.unnamed.tableSection d := by rw [h]; rfl

/-- The functions are read without regard to names. -/
private theorem map_functionSection (l : Loader) :
    unnamed <$> l.functionSection = l.unnamed.functionSection := by
  have hentries := fun n => Decoder.map_iterate (Decoder.map_ofKind .functions) n l.table
  simp only [functionSection, map_bind, map_pure]
  refine congrArg (Decoder.u32 >>= ·) (funext fun count => ?_)
  -- The entries are read first, and the number of functions is kept after that.
  have hunnamed : Decoder.iterate Decoder.functionEntry count.toNat l.unnamed.table =
      ModuleTable.unnamed <$> Decoder.iterate Decoder.functionEntry count.toNat l.table :=
    (hentries count.toNat).symm
  rw [hunnamed, bind_map_left]
  rfl

private theorem map_dataSection (t : ModuleTable) :
    ModuleTable.unnamed <$> Decoder.dataSection t = Decoder.dataSection t.unnamed := by
  have hentries := fun n => Decoder.map_iterate (Decoder.map_ofKind .data) n t
  simp only [Decoder.ofKind] at hentries
  simp only [Decoder.dataSection, map_bind, hentries]
  rfl

/-- A body is lowered without regard to names. -/
private theorem map_bodyEntry (l : Loader) : unnamed <$> l.bodyEntry = l.unnamed.bodyEntry := by
  have htype := l.table.functionType_unnamed
  simp only [bodyEntry, map_bind, map_pure]
  refine congrArg (Decoder.sized >>= ·) (funext fun input => ?_)
  -- Only the type of its function is looked up in the table.
  show _ = Decoder.ofExcept (l.table.unnamed.functionType _) >>= _
  rw [htype]
  rfl

private theorem map_codeSection (l : Loader) :
    unnamed <$> l.codeSection = l.unnamed.codeSection := by
  simp only [codeSection, map_bind, map_pure]
  refine congrArg (Decoder.u32 >>= ·) (funext fun count =>
    congrArg (Decoder.check (count.toNat == l.declared) >>= ·) (funext fun _ => ?_))
  rw [← Decoder.map_iterate map_bodyEntry, bind_map_left]
  rfl

/-- Sections are read without regard to names. -/
private theorem map_sectionDecoder (l : Loader) (k : SectionKind) :
    unnamed <$> l.sectionDecoder k = l.unnamed.sectionDecoder k := by
  -- Most sections are lists of entries of the table.
  cases k with
  | custom => rfl
  | functions => exact l.map_functionSection
  | code => exact l.map_codeSection
  | data => exact l.map_tableSection map_dataSection
  | start => exact l.map_tableSection (Decoder.map_ofKind .start)
  | dataCount => exact l.map_tableSection (Decoder.map_ofKind .dataCount)
  | types => exact l.map_tableSection (Decoder.map_entries (Decoder.map_ofKind .types))
  | imports => exact l.map_tableSection (Decoder.map_entries (Decoder.map_ofKind .imports))
  | tables => exact l.map_tableSection (Decoder.map_entries (Decoder.map_ofKind .tables))
  | memories => exact l.map_tableSection (Decoder.map_entries (Decoder.map_ofKind .memories))
  | globals => exact l.map_tableSection (Decoder.map_entries (Decoder.map_ofKind .globals))
  | exports => exact l.map_tableSection (Decoder.map_entries (Decoder.map_ofKind .exports))
  | elements => exact l.map_tableSection (Decoder.map_entries (Decoder.map_ofKind .elements))

private theorem map_inContext {α β : Type} (f : α → β) (context : Context) (x : Except Fault α) :
    f <$> inContext context x = inContext context (f <$> x) := by
  cases x <;> rfl

/-- A section is read in its place without regard to names. -/
private theorem map_ranked (l : Loader) (f : Frame) :
    unnamed <$> l.ranked f = l.unnamed.ranked f := by
  simp only [ranked, map_bind, unnamed_rank]
  -- The rank is the same with and without names.
  refine congrArg (require _ >>= ·) (funext fun _ => ?_)
  cases SectionKind.ofId? f.id with
  | none => rfl
  | some k =>
    have hdecoder := map_sectionDecoder { l with rank := sectionRank f.id } k
    simp only [map_inContext, ← Decoder.decodeAll_map, hdecoder]
    rfl

/-! ## Runs over frames -/

/-- The outcome of loading apart from names and warnings. -/
def outcome : Except LoadFailure Loader → Except Fault Loader
  | .ok l => .ok l.unnamed
  | .error failure => .error failure.fault

variable {l l' : Loader}

/-- A custom section changes names at most. -/
private theorem outcome_custom (same : l.unnamed = l'.unnamed) (payload : Bytes) :
    outcome (l.custom payload) = outcome (l'.custom payload) := by
  simp only [custom]
  split
  · rfl
  · split
    · split
      · simp only [outcome, unnamed_applyNames, same]
      · rfl
    · simp only [outcome, same]

private theorem outcome_ranked {f : Frame} (hid : f.id ≠ 0) :
    outcome (l.frame f) = l.unnamed.ranked f := by
  rw [← map_ranked, frame, if_neg hid]
  cases l.ranked f <;> rfl

private theorem outcome_frame (same : l.unnamed = l'.unnamed) (f : Frame) :
    outcome (l.frame f) = outcome (l'.frame f) := by
  by_cases hid : f.id = 0
  · simp only [frame, if_pos hid]
    exact outcome_custom same f.payload
  · rw [outcome_ranked hid, outcome_ranked hid, same]

/-- A computation that does not look at names goes on without regard to them. -/
private theorem outcome_bind {x y : Except LoadFailure Loader}
    {next : Loader → Except LoadFailure Loader} (h : outcome x = outcome y)
    (hnext : ∀ l l', l.unnamed = l'.unnamed → outcome (next l) = outcome (next l')) :
    outcome (x >>= next) = outcome (y >>= next) := by
  cases x with
  | error failure =>
    cases y with
    | error failure' => exact h
    | ok l' => cases h
  | ok l =>
    cases y with
    | error failure' => cases h
    | ok l' => exact hnext l l' (Except.ok.inj h)

private theorem outcome_frames (fs : List Frame) :
    ∀ l l' : Loader, l.unnamed = l'.unnamed → outcome (l.frames fs) = outcome (l'.frames fs) := by
  induction fs with
  | nil => exact fun l l' same => congrArg Except.ok same
  | cons f fs ih => exact fun l l' same => outcome_bind (outcome_frame same f) ih

/-- A run up to the last frame does not look at names. -/
private theorem outcome_framing (f : Framing) :
    ∀ l l' : Loader, l.unnamed = l'.unnamed → outcome (l.framing f) = outcome (l'.framing f) := by
  intro l l' same
  refine outcome_bind (outcome_frames f.frames l l' same) fun l l' same => ?_
  -- The number of bodies and that of functions are the same.
  have hbodies : l.bodies = l'.bodies := by rw [← unnamed_bodies, same, unnamed_bodies]
  have hdeclared : l.declared = l'.declared := by rw [← unnamed_declared, same, unnamed_declared]
  rw [hbodies, hdeclared]
  split
  · exact congrArg Except.ok same
  · rfl

/-- A run over frames goes on where a first part of it ends. -/
private theorem framing_append (l : Loader) (fs gs : List Frame) (complete : Bool) :
    l.framing ⟨fs ++ gs, complete⟩ = l.frames fs >>= fun l => l.framing ⟨gs, complete⟩ := by
  induction fs generalizing l with
  | nil => rfl
  | cons f fs ih =>
    cases hf : l.frame f with
    | error failure => simp [framing, frames, hf, bind, Except.bind]
    | ok mid => simpa [framing, frames, hf, bind, Except.bind] using ih mid

end Loader

/-! ## Name sections -/

/-- The forms of the index of a function and its name. -/
inductive FunctionNameForm : UInt32 × Bytes → Bytes → Prop where
  | mk {index : UInt32} {name xs ys : Bytes} (number : IndexForm index xs)
      (text : SizedForm name ys) : FunctionNameForm (index, name) (xs ++ ys)

/-- What follows the title of a name section: frames, of which those with id 1 name functions. -/
def NameSectionForm (content : Bytes) : Prop :=
  ∃ frames parts, content = parts.flatten ∧ List.Forall₂ FrameForm frames parts ∧
    ∀ f ∈ frames, f.id = 1 → ∃ names, VectorForm FunctionNameForm names f.payload

/-- The name of a function is read from its form. -/
private theorem functionName_run {entry : UInt32 × Bytes} {bytes : Bytes}
    (h : FunctionNameForm entry bytes) (rest : Bytes) :
    Decoder.functionName.run (bytes ++ rest) = (.ok entry, rest) := by
  obtain ⟨number, text⟩ := h
  rw [List.append_assoc]
  refine (Decoder.run_bind_ok (u32_run number)).trans ?_
  exact (Decoder.run_bind_ok (sized_run text rest)).trans rfl

namespace NameMap

/-- Names are read from their forms. -/
private theorem read_of_forms {names : List (UInt32 × Bytes)} {parts : List Bytes}
    (h : List.Forall₂ FunctionNameForm names parts) (rest : Bytes) :
    read names.length (parts.flatten ++ rest) = ⟨names, true⟩ := by
  induction h with
  | nil => rfl
  | cons first _ ih =>
    rw [List.length_cons, List.flatten_cons, List.append_assoc, read, functionName_run first]
    simp only [ih]

/-- A list of names behind its number is read to its end. -/
private theorem ofPayload_of_form {names : List (UInt32 × Bytes)} {payload : Bytes}
    (h : VectorForm FunctionNameForm names payload) : ofPayload payload = ⟨names, true⟩ := by
  obtain ⟨number, forms⟩ := h
  have hcount : (UInt32.ofNat names.length).toNat = names.length :=
    UInt32.toNat_ofNat_of_lt' number.lt
  rw [← hcount] at number
  rw [ofPayload, u32_run number]
  simpa [hcount] using read_of_forms forms []

/-- Frames in which names are well-formed are read to their end. -/
private theorem complete_ofFrames {fs : List Frame}
    (h : ∀ f ∈ fs, f.id = 1 → ∃ names, VectorForm FunctionNameForm names f.payload) :
    (ofFrames fs).complete = true := by
  induction fs with
  | nil => rfl
  | cons f fs ih =>
    have hlater := ih fun g hg => h g (List.mem_cons_of_mem f hg)
    rw [ofFrames]
    split
    -- The frame that names functions.
    · next hid =>
      obtain ⟨names, form⟩ := h f List.mem_cons_self hid
      simpa [ofPayload_of_form form] using hlater
    · exact hlater

/-- A well-formed name section is read to its end. -/
private theorem complete_ofSection {content : Bytes} (h : NameSectionForm content) :
    (ofSection content).complete = true := by
  obtain ⟨frames, parts, rfl, forms, hnames⟩ := h
  have hsplit : Framing.split parts.flatten = ⟨frames, true⟩ := by
    simpa [Framing.split] using Framing.split_flatten_append forms []
  simp [ofSection, hsplit, complete_ofFrames hnames]

end NameMap

/-! ## Insertion -/

/-- The module without the debug names of functions. -/
def Module.unnamed (m : Module) : Module :=
  { m with table := m.table.unnamed }

/-- Sections at the front of a module are loaded first. -/
private theorem loadModule_append {fs : List Frame} {parts : List Bytes}
    (forms : List.Forall₂ FrameForm fs parts) (rest : Bytes) :
    loadModule (moduleMagic ++ (moduleVersion ++ (parts.flatten ++ rest))) =
      ({} : Loader).frames fs >>= fun l => l.framing (.split rest) := by
  rw [loadModule, moduleHeader_run.2 rfl]
  simp only [Framing.split_flatten_append forms]
  exact Loader.framing_append ..

/-- A custom section at the front of some frames is handled first. -/
private theorem framing_custom {payload bytes : Bytes} (form : FrameForm ⟨0, payload⟩ bytes)
    (l : Loader) (rest : Bytes) :
    l.framing (.split (bytes ++ rest)) = l.custom payload >>= fun l => l.framing (.split rest) := by
  rw [Framing.split_frame form]
  cases hl : l.custom payload with
  | error failure => simp [Loader.framing, Loader.frames, Loader.frame, hl, bind, Except.bind]
  | ok l => simp [Loader.framing, Loader.frames, Loader.frame, hl, bind, Except.bind]

/-- What is loaded apart from names decides what is compiled apart from names. -/
private theorem outcome_compile {input input' : Bytes} (name : Bytes)
    (h : Loader.outcome (loadModule input) = Loader.outcome (loadModule input')) :
    Module.unnamed <$> (compile name input).outcome =
      Module.unnamed <$> (compile name input').outcome := by
  cases hl : loadModule input with
  | error failure =>
    cases hl' : loadModule input' with
    | error failure' =>
      rw [hl, hl'] at h
      have hfault : failure.fault = failure'.fault := Except.error.inj h
      simp [compile, hl, hl', hfault]
    | ok l' =>
      rw [hl, hl'] at h
      cases h
  | ok l =>
    cases hl' : loadModule input' with
    | error failure' =>
      rw [hl, hl'] at h
      cases h
    | ok l' =>
      rw [hl, hl'] at h
      have same : l.unnamed = l'.unnamed := Except.ok.inj h
      have hmodule := congrArg (fun l : Loader =>
        Module.mk l.table (some ⟨name, l.functions, l.intrinsics⟩)) same
      rw [compile, compile, hl, hl']
      exact congrArg Except.ok hmodule

/-- A custom section may be inserted after any complete sections, whatever follows. If it is not a
    name section, the report does not change at all; a well-formed name section changes debug names
    and messages at most. -/
theorem compile_custom {fs : List Frame} {parts : List Bytes}
    (forms : List.Forall₂ FrameForm fs parts) {title text content inserted : Bytes}
    (titled : SizedForm title text) (framed : FrameForm ⟨0, text ++ content⟩ inserted)
    (name rest : Bytes) :
    (title ≠ .ofString "name" →
      compile name (moduleMagic ++ (moduleVersion ++ (parts.flatten ++ (inserted ++ rest)))) =
        compile name (moduleMagic ++ (moduleVersion ++ (parts.flatten ++ rest)))) ∧
    (title = .ofString "name" → NameSectionForm content →
      Module.unnamed <$> (compile name
        (moduleMagic ++ (moduleVersion ++ (parts.flatten ++ (inserted ++ rest))))).outcome =
      Module.unnamed <$> (compile name
        (moduleMagic ++ (moduleVersion ++ (parts.flatten ++ rest)))).outcome) := by
  have hinsert := loadModule_append forms (inserted ++ rest)
  simp only [framing_custom framed] at hinsert
  constructor
  -- Any other section is skipped.
  · intro other
    have hcustom : ∀ l : Loader, l.custom (text ++ content) = .ok l := by
      intro l
      simp [Loader.custom, sized_run titled, other]
    have hload :
        loadModule (moduleMagic ++ (moduleVersion ++ (parts.flatten ++ (inserted ++ rest)))) =
          loadModule (moduleMagic ++ (moduleVersion ++ (parts.flatten ++ rest))) := by
      rw [hinsert, loadModule_append forms]
      simp only [hcustom]
      rfl
    rw [compile, compile, hload]
  -- A name section changes nothing but names.
  · rintro rfl wellFormed
    refine outcome_compile name ?_
    have hcustom : ∀ l : Loader,
        l.custom (text ++ content) = .ok (l.applyNames (.ofSection content)) := by
      intro l
      simp [Loader.custom, sized_run titled, NameMap.complete_ofSection wellFormed]
    rw [hinsert, loadModule_append forms]
    simp only [hcustom]
    cases ({} : Loader).frames fs with
    | error failure => rfl
    | ok l => exact Loader.outcome_framing _ _ _ (l.unnamed_applyNames _)

/-! ## Written sections -/

private theorem sizedForm_sized {s : Bytes} (small : s.length < 2 ^ 32) : SizedForm s s.sized :=
  .mk (unsignedForm_ofUnsigned small)

private theorem frameForm_encode {f : Frame} (small : f.payload.length < 2 ^ 32) :
    FrameForm f f.encode :=
  .mk (sizedForm_sized small)

/-- The sections of a module with one function. -/
def constantSections : List Frame :=
  [⟨1, [0x01, 0x60, 0x00, 0x01, 0x7F]⟩, ⟨3, [0x01, 0x00]⟩,
    ⟨10, [0x01, 0x04, 0x00, 0x41, 0x07, 0x0B]⟩]

/-- The rest of a name section that calls the first function `f`, and names one that is not
    there. -/
def namingContent : Bytes :=
  Frame.encode ⟨1, [0x02, 0x00, 0x01, 0x66, 0x09, 0x01, 0x67]⟩

/-- A section with the title `x` changes nothing, even before bytes that are no section. A name
    section after the code changes the name of the function only. -/
theorem compile_custom_naming :
    compile [] (moduleMagic ++ (moduleVersion ++ ((constantSections.map Frame.encode).flatten ++
        (Frame.encode ⟨0, [0x01, 0x78, 0xFF]⟩ ++ [0x0B])))) =
      compile [] (moduleMagic ++ (moduleVersion ++
        ((constantSections.map Frame.encode).flatten ++ [0x0B]))) ∧
    Module.unnamed <$> (compile [] (moduleMagic ++ (moduleVersion ++
        ((constantSections.map Frame.encode).flatten ++
          (Frame.encode ⟨0, (Bytes.ofString "name").sized ++ namingContent⟩ ++ []))))).outcome =
      Module.unnamed <$> (compile [] (moduleMagic ++ (moduleVersion ++
        ((constantSections.map Frame.encode).flatten ++ [])))).outcome ∧
    ((compile [] (moduleMagic ++ (moduleVersion ++
        ((constantSections.map Frame.encode).flatten ++
          (Frame.encode ⟨0, (Bytes.ofString "name").sized ++ namingContent⟩ ++
            []))))).outcome.toOption.map
      fun m => m.table.functions.map FunctionEntry.name) = some #[[0x66]] := by
  have forms : List.Forall₂ FrameForm constantSections (constantSections.map Frame.encode) :=
    .cons (frameForm_encode (by decide)) (.cons (frameForm_encode (by decide))
      (.cons (frameForm_encode (by decide)) .nil))
  -- The names are well-formed, also that of a function that is not there.
  have named : NameSectionForm namingContent := by
    refine ⟨[⟨1, _⟩], [_], (List.append_nil _).symm, .cons (frameForm_encode (by decide)) .nil, ?_⟩
    rintro f hf -
    obtain rfl := List.mem_singleton.1 hf
    have first : FunctionNameForm (0, [0x66]) [0x00, 0x01, 0x66] :=
      @FunctionNameForm.mk 0 [0x66] [0x00] [0x01, 0x66] (.last 0 (by decide) (by decide))
        (@SizedForm.mk [0x66] [0x01] (.last 1 (by decide) (by decide)))
    have second : FunctionNameForm (9, [0x67]) [0x09, 0x01, 0x67] :=
      @FunctionNameForm.mk 9 [0x67] [0x09] [0x01, 0x67] (.last 9 (by decide) (by decide))
        (@SizedForm.mk [0x67] [0x01] (.last 1 (by decide) (by decide)))
    exact ⟨_, @VectorForm.mk _ _ _ [0x02] _ (.last 2 (by decide) (by decide))
      (.cons first (.cons second .nil))⟩
  refine ⟨?_, ?_, by decide +kernel⟩
  · -- The section has another title, so it is skipped.
    have titled : SizedForm [0x78] [0x01, 0x78] :=
      @SizedForm.mk [0x78] [0x01] (.last 1 (by decide) (by decide))
    have framed : FrameForm ⟨0, [0x01, 0x78] ++ [0xFF]⟩ (Frame.encode ⟨0, [0x01, 0x78, 0xFF]⟩) :=
      frameForm_encode (by decide)
    exact (compile_custom forms titled framed [] [0x0B]).1 (by decide +kernel)
  · exact (compile_custom forms (sizedForm_sized (by decide +kernel))
      (frameForm_encode (by decide +kernel)) [] []).2 rfl named

end WasmLowering
