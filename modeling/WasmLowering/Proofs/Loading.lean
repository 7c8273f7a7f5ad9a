import WasmLowering.Module.Compile
import WasmLowering.Proofs.EntryFormat

/-!
# Loading section by section

What it means that a module loads. The bytes after the header are frames and nothing else, and the
loader passes through the frames one by one. `frame_eq_ok` says all that an accepted frame can do:
a custom section names functions, and another section has a higher rank than those before it, and a
payload that is a number of entries followed by the entries. Facts about all loaded modules follow
from this lemma by induction over the frames.

## Key results

- `Framing.split_flatten_append`, `Framing.split_complete`: frames are found where they are written
- `Loader.takes_of_run`: what the sections do
- `Loader.frame_eq_ok`, `Loader.frames_eq_ok`: what a frame and a run over frames do
- `Loader.exists_section`, `Loader.kept_of_frames`: a section in a run, and what a run keeps
- `loadModule_eq_ok`: a module is its header and frames that load
-/

namespace WasmLowering

/-! ## Frames -/

/-- The forms of a frame: the id and the payload behind its size. -/
inductive FrameForm : Frame → Bytes → Prop where
  | mk {f : Frame} {bytes : Bytes} (payload : SizedForm f.payload bytes) :
      FrameForm f (f.id :: bytes)

/-- A byte string is read from its form. -/
theorem sized_run {s bytes : Bytes} (h : SizedForm s bytes) (rest : Bytes) :
    Decoder.sized.run (bytes ++ rest) = (.ok s, rest) := by
  obtain ⟨form⟩ := h
  have hto : (UInt32.ofNat s.length).toNat = s.length := UInt32.toNat_ofNat_of_lt' form.lt
  rw [← hto] at form
  rw [List.append_assoc]
  refine (Decoder.run_bind_ok (u32_run form)).trans ?_
  rw [hto]
  exact Decoder.recovers_take s rest

namespace Framing

/-- A frame is found at the front of the input. -/
theorem split_frame {f : Frame} {bytes : Bytes} (h : FrameForm f bytes) (rest : Bytes) :
    split (bytes ++ rest) = ⟨f :: (split rest).frames, (split rest).complete⟩ := by
  obtain ⟨payload⟩ := h
  have hsized := sized_run payload rest
  rw [List.cons_append, split]
  split
  · next hrun => rw [hsized] at hrun; cases hrun
  · next hrun =>
    rw [hsized] at hrun
    cases hrun
    rfl

/-- Frames at the front of the input are the first ones that are found. -/
theorem split_flatten_append {fs : List Frame} {parts : List Bytes}
    (h : List.Forall₂ FrameForm fs parts) (rest : Bytes) :
    split (parts.flatten ++ rest) = ⟨fs ++ (split rest).frames, (split rest).complete⟩ := by
  induction h with
  | nil => rfl
  | cons first _ ih =>
    rw [List.flatten_cons, List.append_assoc, split_frame first, ih]
    rfl

/-- A complete framing leaves no byte out. -/
private theorem split_complete {input : Bytes} (h : (split input).complete = true) :
    ∃ parts, input = parts.flatten ∧ List.Forall₂ FrameForm (split input).frames parts := by
  fun_induction split input with
  | case1 => exact ⟨[], rfl, .nil⟩
  | case2 => simp at h
  | case3 id rest payload tail hrun _ framing ih =>
    obtain ⟨parts, rfl, forms⟩ := ih h
    obtain ⟨bytes, rfl, form⟩ := Decoder.sound_sized hrun
    exact ⟨(id :: bytes) :: parts, by simp, .cons (.mk form) forms⟩

end Framing

/-- A module starts with its magic number and its version. -/
theorem moduleHeader_run {input rest : Bytes} :
    Decoder.moduleHeader.run input = (.ok (), rest) ↔
      input = moduleMagic ++ (moduleVersion ++ rest) := by
  constructor
  · intro h
    obtain ⟨magic, mid, hmagic, h₁⟩ := Decoder.run_bind_eq_ok.1 h
    obtain ⟨_, mid', hcheck, h₂⟩ := Decoder.run_bind_eq_ok.1 h₁
    obtain ⟨version, mid'', hversion, h₃⟩ := Decoder.run_bind_eq_ok.1 h₂
    -- The eight bytes are those that are checked.
    obtain ⟨rfl, -⟩ := Decoder.take_run hmagic
    obtain ⟨rfl, -⟩ := Decoder.take_run hversion
    obtain ⟨first, rfl⟩ := Decoder.check_run hcheck
    obtain ⟨second, rfl⟩ := Decoder.check_run h₃
    rw [beq_iff_eq.1 first, beq_iff_eq.1 second]
  · rintro rfl
    rfl

/-! ## Names -/

/-- The table without the debug names of functions. -/
def ModuleTable.unnamed (t : ModuleTable) : ModuleTable :=
  { t with functions := t.functions.map fun f => { f with name := [] } }

@[simp] theorem ModuleTable.functionType_unnamed (t : ModuleTable) (index : UInt32) :
    t.unnamed.functionType index = t.functionType index := by
  simp only [functionType, unnamed, Array.getElem?_map]
  cases t.functions[index.toNat]? <;> rfl

/-- A name goes to a function that exists, or the table is as before and there is one more
    warning. -/
theorem applyName_cases (t : ModuleTable) (warnings : Array UInt32) (entry : UInt32 × Bytes) :
    (∃ u, t.built (.setFunctionName entry.1 entry.2) = .ok u ∧
      applyName (t, warnings) entry = (u, warnings)) ∨
    applyName (t, warnings) entry = (t, warnings.push entry.1) := by
  unfold applyName
  split
  · next u hu => exact .inl ⟨u, ModuleTable.built_eq_ok.2 hu, rfl⟩
  · next u hu =>
    obtain rfl := TableBuilder.eq_of_test_modify hu
    exact .inr rfl

/-- A name given to a function changes nothing but names. -/
theorem ModuleTable.unnamed_setFunctionName {t u : ModuleTable} {index : UInt32} {name : Bytes}
    (h : t.built (.setFunctionName index name) = .ok u) : u.unnamed = t.unnamed := by
  obtain ⟨-, rfl⟩ := setFunctionName_eq_ok.1 h
  simp only [unnamed, mk.injEq, and_true, true_and]
  refine Array.ext (by simp) fun i hi _ => ?_
  simp only [Array.getElem_map, Array.getElem_modify]
  split <;> rfl

namespace Loader

/-- What has been learned apart from debug names, and without the warnings about them. -/
def unnamed (l : Loader) : Loader :=
  { l with table := l.table.unnamed, warnings := #[] }

@[simp] theorem unnamed_rank (l : Loader) : l.unnamed.rank = l.rank := rfl

@[simp] theorem unnamed_bodies (l : Loader) : l.unnamed.bodies = l.bodies := rfl

@[simp] theorem unnamed_declared (l : Loader) : l.unnamed.declared = l.declared := rfl

/-- Names change nothing but names, one after the other. -/
private theorem unnamed_foldl_applyName (names : List (UInt32 × Bytes)) (t : ModuleTable)
    (warnings : Array UInt32) : (names.foldl applyName (t, warnings)).1.unnamed = t.unnamed := by
  induction names generalizing t warnings with
  | nil => rfl
  | cons entry names ih =>
    rw [List.foldl_cons]
    obtain ⟨u, hu, heq⟩ | heq := applyName_cases t warnings entry
    · rw [heq, ih, ModuleTable.unnamed_setFunctionName hu]
    · rw [heq, ih]

theorem unnamed_applyNames (l : Loader) (map : NameMap) :
    (l.applyNames map).unnamed = l.unnamed := by
  simp only [unnamed, applyNames, unnamed_foldl_applyName]

/-- A custom section that is accepted changes nothing but names. -/
private theorem custom_eq_ok {l l' : Loader} {payload : Bytes} (h : l.custom payload = .ok l') :
    l'.unnamed = l.unnamed := by
  simp only [custom] at h
  split at h
  · cases h
  · split at h
    · split at h
      · rw [← Except.ok.inj h, unnamed_applyNames]
      · cases h
    · rw [Except.ok.inj h]

end Loader

/-! ## Sections -/

/-- An id is that of its kind. -/
theorem SectionKind.id_of_ofId? {id : UInt8} {k : SectionKind} (h : ofId? id = some k) :
    id = k.id := by
  unfold ofId? at h
  split at h <;> simp at h <;> subst h <;> rfl

/-- Whether a section lists entries that only change the module table. -/
def SectionKind.listsEntries : SectionKind → Bool
  | custom | start | code | dataCount => false
  | _ => true

theorem Verifier.check_eq_ok {verifier : Verifier} {f : Ssa.Function} :
    verifier.check f = .ok () ↔ verifier f = none := by
  unfold Verifier.check
  cases verifier f <;> simp

namespace Loader

/-- The next body is lowered with the type of its function, and the verifier has no complaint. -/
def LowersBody (l l' : Loader) (body : Bytes) : Prop :=
  ∃ type function intrinsics,
    l.table.functionType (l.table.bodyFunction (.ofNat l.functions.size)) = .ok type ∧
    Lowering.lowerFunction l.table.types l.functions.size
      (l.table.bodyFunction (.ofNat l.functions.size)) type l.intrinsics body =
        .ok (function, intrinsics) ∧
    l.verifier function = none ∧
    l' = { l with functions := l.functions.push function, intrinsics }

/-- What a section of a kind other than `custom` does with its payload. -/
inductive Takes (l : Loader) : SectionKind → Bytes → Loader → Prop where
  | entries {k : SectionKind} {payload : Bytes} {edits : List TableEdit} {table : ModuleTable}
      (list : k.listsEntries = true) (form : VectorForm (EntryForm k) edits payload)
      (edited : l.table.Edits edits table)
      (announced : k = .data → ∀ n ∈ l.table.dataCount, n.toNat = edits.length) :
      Takes l k payload
        { l with table, declared := if k = .functions then edits.length else l.declared }
  | number {k : SectionKind} {payload : Bytes} {e : TableEdit} {table : ModuleTable}
      (single : k = .start ∨ k = .dataCount) (form : EntryForm k e payload)
      (edited : l.table.edit e = .ok table) : Takes l k payload { l with table }
  | code {payload : Bytes} {bodies : List Bytes} {l' : Loader}
      (form : VectorForm SizedForm bodies payload) (declared : bodies.length = l.declared)
      (lowered : Chain LowersBody l bodies l') :
      Takes l .code payload { l' with bodies := bodies.length }

variable {l l' : Loader} {payload : Bytes}

/-- A body is read from its form, and lowered. -/
theorem sound_bodyEntry (l : Loader) :
    l.bodyEntry.Sound fun l' bytes => ∃ body, l.LowersBody l' body ∧ SizedForm body bytes := by
  intro input rest l' h
  obtain ⟨body, mid, hbody, h₁⟩ := Decoder.run_bind_eq_ok.1 h
  obtain ⟨type, mid', htype, h₂⟩ := Decoder.run_bind_eq_ok.1 h₁
  obtain ⟨⟨function, intrinsics⟩, mid'', hlower, h₃⟩ := Decoder.run_bind_eq_ok.1 h₂
  obtain ⟨_, hpass, rfl⟩ := Decoder.run_bind_pure_eq_ok h₃
  -- Only the body itself is read from the input.
  obtain ⟨bytes, rfl, form⟩ := Decoder.sound_sized hbody
  obtain ⟨typed, rfl⟩ := Decoder.ofExcept_run htype
  obtain ⟨lowered, rfl⟩ := Decoder.ofExcept_run hlower
  obtain ⟨passed, rfl⟩ := Decoder.ofExcept_run hpass
  exact ⟨bytes, rfl, body,
    ⟨type, function, intrinsics, typed, lowered, Verifier.check_eq_ok.1 passed, rfl⟩, form⟩

/-- The code section has a body for each declared function, and lowers them in order. -/
private theorem takes_code (h : l.codeSection.run payload = (.ok l', [])) :
    l.Takes .code payload l' := by
  obtain ⟨n, mid, hn, h₁⟩ := Decoder.run_bind_eq_ok.1 h
  obtain ⟨_, mid', hcheck, h₂⟩ := Decoder.run_bind_eq_ok.1 h₁
  obtain ⟨loaded, hbodies, rfl⟩ := Decoder.run_bind_pure_eq_ok h₂
  obtain ⟨count, rfl, number⟩ := Decoder.sound_u32 hn
  obtain ⟨declared, rfl⟩ := Decoder.check_run hcheck
  -- Each body is read from its form and lowered.
  obtain ⟨_, rfl, parts, hlength, rfl, chain⟩ := Decoder.sound_iterate sound_bodyEntry _ _ hbodies
  obtain ⟨bodies, lowered, forms⟩ := chain.written
  have hcount : bodies.length = n.toNat := forms.length_eq.trans hlength
  rw [← hcount] at number declared ⊢
  rw [List.append_nil]
  exact .code (.mk number forms) (by simpa using declared) lowered

private theorem takes_entries {k : SectionKind} (list : k.listsEntries = true) (hk : k ≠ .functions)
    (hdata : k ≠ .data)
    (h : (l.tableSection (.entries (Decoder.ofKind k))).run payload = (.ok l', [])) :
    l.Takes k payload l' := by
  obtain ⟨table, htable, rfl⟩ := Decoder.run_bind_pure_eq_ok h
  obtain ⟨bytes, rfl, edits, edited, form⟩ := Decoder.sound_entries k l.table htable
  have takes := Takes.entries (l := l) list form edited fun hk => absurd hk hdata
  rwa [if_neg hk, ← List.append_nil bytes] at takes

private theorem takes_number {k : SectionKind} (single : k = .start ∨ k = .dataCount)
    (h : (l.tableSection (Decoder.ofKind k)).run payload = (.ok l', [])) :
    l.Takes k payload l' := by
  obtain ⟨table, htable, rfl⟩ := Decoder.run_bind_pure_eq_ok h
  obtain ⟨bytes, rfl, e, edited, form⟩ := Decoder.sound_ofKind k l.table htable
  rw [List.append_nil]
  exact .number single form edited

/-- The function section also says how many bodies there will be. -/
private theorem takes_functions (h : l.functionSection.run payload = (.ok l', [])) :
    l.Takes .functions payload l' := by
  obtain ⟨n, mid, hn, h₁⟩ := Decoder.run_bind_eq_ok.1 h
  obtain ⟨table, htable, rfl⟩ := Decoder.run_bind_pure_eq_ok h₁
  obtain ⟨count, rfl, number⟩ := Decoder.sound_u32 hn
  obtain ⟨bytes, rfl, edits, hlength, edited, form⟩ :=
    Decoder.sound_iterate_ofKind .functions _ l.table htable
  have takes := Takes.entries (l := l) rfl (form count number) edited (by simp)
  rwa [if_pos rfl, hlength, ← List.append_nil (count ++ bytes), List.append_assoc] at takes

/-- The data section has as many entries as were announced. -/
private theorem takes_data (h : (l.tableSection .dataSection).run payload = (.ok l', [])) :
    l.Takes .data payload l' := by
  obtain ⟨table, htable, rfl⟩ := Decoder.run_bind_pure_eq_ok h
  obtain ⟨n, mid, hn, h₁⟩ := Decoder.run_bind_eq_ok.1 htable
  obtain ⟨_, mid', hcheck, h₂⟩ := Decoder.run_bind_eq_ok.1 h₁
  obtain ⟨count, rfl, number⟩ := Decoder.sound_u32 hn
  obtain ⟨announced, rfl⟩ := Decoder.check_run hcheck
  obtain ⟨bytes, rfl, edits, hlength, edited, form⟩ :=
    Decoder.sound_iterate_ofKind .data _ l.table h₂
  -- The number that was announced is that of the entries.
  have takes := Takes.entries (l := l) rfl (form count number) edited (by
    intro _ m hm
    rw [Option.mem_def.1 hm] at announced
    obtain rfl : m = n := by simpa using announced
    exact hlength.symm)
  rwa [if_neg (by decide), ← List.append_nil (count ++ bytes), List.append_assoc] at takes

/-- What a section does. -/
private theorem takes_of_run {k : SectionKind} (hk : k ≠ .custom)
    (h : (l.sectionDecoder k).run payload = (.ok l', [])) : l.Takes k payload l' := by
  cases k with
  | custom => exact absurd rfl hk
  | functions => exact takes_functions h
  | code => exact takes_code h
  | data => exact takes_data h
  | start => exact takes_number (.inl rfl) h
  | dataCount => exact takes_number (.inr rfl) h
  | types | imports | tables | memories | globals | exports | elements =>
    exact takes_entries rfl (by decide) (by decide) h

/-! ## Runs over frames -/

private theorem decodeAll_eq_ok {α : Type} {d : Decoder α} {a : α} :
    d.decodeAll payload = .ok a ↔ d.run payload = (.ok a, []) := by
  unfold Decoder.decodeAll
  split <;> simp_all

private theorem ranked_run {f : Frame} (h : l.ranked f = .ok l') :
    l.rank < sectionRank f.id ∧ ∃ k, SectionKind.ofId? f.id = some k ∧
      ({ l with rank := sectionRank f.id }.sectionDecoder k).run f.payload = (.ok l', []) := by
  obtain ⟨_, hrank, hsection⟩ := bind_eq_ok.1 h
  refine ⟨by simpa using require_eq_ok.1 hrank, ?_⟩
  split at hsection
  · cases hsection
  · next k hk => exact ⟨k, hk, decodeAll_eq_ok.1 (inContext_eq_ok.1 hsection)⟩

private theorem ranked_eq_ok {f : Frame} (hid : f.id ≠ 0) (h : l.ranked f = .ok l') :
    l.rank < sectionRank f.id ∧ ∃ k, SectionKind.ofId? f.id = some k ∧ k ≠ .custom ∧
      { l with rank := sectionRank f.id }.Takes k f.payload l' := by
  obtain ⟨hrank, k, hk, hrun⟩ := ranked_run h
  have hcustom : k ≠ .custom := by
    rintro rfl
    exact hid (SectionKind.id_of_ofId? hk)
  exact ⟨hrank, k, hk, hcustom, takes_of_run hcustom hrun⟩

/-- What an accepted frame does: a custom section changes names at most, and any other section comes
    after those of a lower rank. -/
theorem frame_eq_ok {f : Frame} (h : l.frame f = .ok l') :
    (f.id = 0 ∧ l'.unnamed = l.unnamed) ∨
    (f.id ≠ 0 ∧ l.rank < sectionRank f.id ∧ ∃ k, SectionKind.ofId? f.id = some k ∧
      k ≠ .custom ∧ { l with rank := sectionRank f.id }.Takes k f.payload l') := by
  unfold frame at h
  split at h
  · next hid => exact .inl ⟨hid, custom_eq_ok h⟩
  · next hid =>
    split at h
    · next loaded hranked =>
      obtain rfl := Except.ok.inj h
      exact .inr ⟨hid, ranked_eq_ok hid hranked⟩
    · cases h

/-- The decoder of a section accepts the whole payload of its frame. -/
theorem frame_run {f : Frame} {k : SectionKind} (hid : f.id = k.id) (hk : k ≠ .custom)
    (h : l.frame f = .ok l') : l.rank < sectionRank k.id ∧
      ({ l with rank := sectionRank k.id }.sectionDecoder k).run f.payload = (.ok l', []) := by
  unfold frame at h
  rw [if_neg (hid ▸ SectionKind.id_ne_zero hk)] at h
  split at h
  · next loaded hranked =>
    obtain rfl := Except.ok.inj h
    obtain ⟨hrank, other, hother, hrun⟩ := ranked_run hranked
    rw [hid] at hrank hother hrun
    obtain rfl := Option.some.inj ((SectionKind.ofId?_id k).symm.trans hother)
    exact ⟨hrank, hrun⟩
  · cases h

/-- What a section of a given kind does. -/
theorem frame_takes {f : Frame} {k : SectionKind} (hid : f.id = k.id) (hk : k ≠ .custom)
    (h : l.frame f = .ok l') :
    l.rank < sectionRank k.id ∧ { l with rank := sectionRank k.id }.Takes k f.payload l' := by
  obtain ⟨hrank, hrun⟩ := frame_run hid hk h
  exact ⟨hrank, takes_of_run hk hrun⟩

/-- The frames are passed through one by one. -/
theorem frames_eq_ok {fs : List Frame} :
    l.frames fs = .ok l' ↔ Chain (fun l l' f => l.frame f = .ok l') l fs l' := by
  induction fs generalizing l with
  | nil =>
    constructor
    · intro h
      obtain rfl := Except.ok.inj h
      exact .nil l
    · rintro ⟨⟩
      rfl
  | cons f fs ih =>
    cases hf : l.frame f with
    | error failure =>
      refine ⟨fun h => ?_, ?_⟩
      · simp [frames, hf, bind, Except.bind] at h
      · rintro (_ | ⟨first, -⟩)
        cases hf.symm.trans first
    | ok mid =>
      -- The others go on from where the first one leads.
      have hframes : l.frames (f :: fs) = mid.frames fs := by
        simp [frames, hf, bind, Except.bind]
      rw [hframes, ih]
      refine ⟨.cons hf, ?_⟩
      rintro (_ | ⟨first, rest⟩)
      rwa [Except.ok.inj (hf.symm.trans first)]

end Loader

/-! ## Order -/

/-- The ids of sections in the order in which they come. -/
def sectionOrder : List UInt8 :=
  [1, 2, 3, 4, 5, 6, 7, 8, 9, 12, 10, 11]

/-- The ids of the sections other than custom ones. -/
def rankedIds (fs : List Frame) : List UInt8 :=
  (fs.map Frame.id).filter (· ≠ 0)

private theorem mem_rankedIds {fs : List Frame} {id : UInt8} :
    id ∈ rankedIds fs ↔ id ≠ 0 ∧ ∃ f ∈ fs, f.id = id := by
  simp [rankedIds, and_comm]

/-- The ids of known sections are in their order. -/
private theorem mem_sectionOrder {id : UInt8} {k : SectionKind} (hid : id ≠ 0)
    (h : SectionKind.ofId? id = some k) : id ∈ sectionOrder := by
  unfold SectionKind.ofId? at h
  split at h <;> simp [sectionOrder] at hid h ⊢

private theorem last_of_sectionOrder : ∀ id ∈ sectionOrder,
    sectionRank SectionKind.code.id < sectionRank id → id = SectionKind.data.id := by
  decide +kernel

/-- A section of higher rank is of no kind with a lower rank. -/
theorem SectionKind.id_ne_of_rank {k other : SectionKind} {id : UInt8}
    (higher : id ≠ 0 → sectionRank k.id < sectionRank id) (hother : other ≠ .custom)
    (hrank : sectionRank other.id ≤ sectionRank k.id) : id ≠ other.id := by
  rintro rfl
  exact Nat.not_lt.2 hrank (higher (id_ne_zero hother))

/-- Ids of increasing rank are in the order of sections. -/
theorem sublist_sectionOrder {ids : List UInt8} (known : ∀ id ∈ ids, id ∈ sectionOrder)
    (increasing : ids.Pairwise (sectionRank · < sectionRank ·)) : ids.Sublist sectionOrder := by
  have distinct : ids.Nodup := increasing.imp fun h heq => by simp [heq] at h
  have antisymm : Std.Antisymm fun a b : UInt8 => sectionRank a < sectionRank b :=
    ⟨fun _ _ h h' => absurd h' h.asymm⟩
  exact List.sublist_of_subperm_of_pairwise (distinct.subperm known) increasing (by decide)

namespace Loader

variable {l l' : Loader} {fs : List Frame}

/-- Bodies are lowered to one function each, which changes nothing else but intrinsics. -/
theorem lowered_bodies {bodies : List Bytes} (h : Chain LowersBody l bodies l') :
    ∃ functions intrinsics, l' = { l with functions, intrinsics } ∧
      functions.size = l.functions.size + bodies.length := by
  induction h with
  | nil l => exact ⟨l.functions, l.intrinsics, rfl, rfl⟩
  | cons first _ ih =>
    obtain ⟨_, function, intrinsics, -, -, -, rfl⟩ := first
    obtain ⟨functions, intrinsics, rfl, hsize⟩ := ih
    refine ⟨functions, intrinsics, rfl, ?_⟩
    simp only [Array.size_push] at hsize
    rw [hsize, List.length_cons]
    omega

/-- The rank is set by the frame, and by nothing in it. -/
theorem Takes.rank {k : SectionKind} {payload : Bytes} (h : l.Takes k payload l') :
    l'.rank = l.rank := by
  cases h with
  | entries => rfl
  | number => rfl
  | code _ _ lowered =>
    obtain ⟨_, _, rfl, -⟩ := lowered_bodies lowered
    rfl

/-- The sections of a run come in the order of their ids, after those that came before the run. -/
theorem increasing_frames (h : Chain (fun l l' f => l.frame f = .ok l') l fs l') :
    (rankedIds fs).Pairwise (sectionRank · < sectionRank ·) ∧
      ∀ id ∈ rankedIds fs, l.rank < sectionRank id ∧ id ∈ sectionOrder := by
  induction h with
  | nil l => exact ⟨.nil, by simp [rankedIds]⟩
  | @cons l mid l' f fs first _ ih =>
    obtain ⟨increasing, later⟩ := ih
    obtain ⟨hid, hsame⟩ | ⟨hid, hrank, k, hk, -, takes⟩ := frame_eq_ok first
    · -- A custom section has no rank, and may stand anywhere.
      have hids : rankedIds (f :: fs) = rankedIds fs := by simp [rankedIds, hid]
      have hmid : mid.rank = l.rank := by
        rw [← unnamed_rank mid, hsame, unnamed_rank]
      rw [hids, ← hmid]
      exact ⟨increasing, later⟩
    · have hids : rankedIds (f :: fs) = f.id :: rankedIds fs := by simp [rankedIds, hid]
      rw [takes.rank] at later
      rw [hids]
      refine ⟨.cons (fun id hmem => (later id hmem).1) increasing, ?_⟩
      intro id hmem
      obtain rfl | hmem := List.mem_cons.1 hmem
      · exact ⟨hrank, mem_sectionOrder hid hk⟩
      · exact ⟨hrank.trans (later id hmem).1, (later id hmem).2⟩

/-- A section of a run over frames. It is the only one of its kind, and those after it have a higher
    rank. -/
theorem exists_section (h : Chain (fun l l' f => l.frame f = .ok l') l fs l') {f : Frame}
    {k : SectionKind} (hf : f ∈ fs) (hid : f.id = k.id) (hk : k ≠ .custom) :
    ∃ before after mid done, fs = before ++ f :: after ∧
      Chain (fun l l' f => l.frame f = .ok l') l before mid ∧ mid.frame f = .ok done ∧
      Chain (fun l l' f => l.frame f = .ok l') done after l' ∧
      (∀ g ∈ before, g.id ≠ k.id) ∧ (∀ g ∈ after, g.id ≠ k.id) ∧
      ∀ g ∈ after, g.id ≠ 0 → sectionRank k.id < sectionRank g.id := by
  have hne : f.id ≠ 0 := hid ▸ SectionKind.id_ne_zero hk
  obtain ⟨before, after, rfl⟩ := List.append_of_mem hf
  have increasing := (increasing_frames h).1
  obtain ⟨mid, hbefore, hrest⟩ := Chain.append.1 h
  obtain _ | ⟨first, hafter⟩ := hrest
  -- The section stands between two parts of the run.
  have hids : rankedIds (before ++ f :: after) = rankedIds before ++ f.id :: rankedIds after := by
    simp [rankedIds, hne]
  rw [hids, List.pairwise_append, List.pairwise_cons, hid] at increasing
  obtain ⟨-, ⟨higher, -⟩, lower⟩ := increasing
  have later : ∀ g ∈ after, g.id ≠ 0 → sectionRank k.id < sectionRank g.id := fun g hg hg0 =>
    higher g.id (mem_rankedIds.2 ⟨hg0, g, hg, rfl⟩)
  refine ⟨before, after, mid, _, rfl, hbefore, first, hafter, fun g hg heq => ?_,
    fun g hg => SectionKind.id_ne_of_rank (later g hg) hk (Nat.le_refl _), later⟩
  -- No section before it has its id.
  have hmem : g.id ∈ rankedIds before := mem_rankedIds.2 ⟨heq.trans hid.symm ▸ hne, g, hg, rfl⟩
  exact Nat.lt_irrefl _ (heq ▸ lower g.id hmem k.id List.mem_cons_self)

/-- What names do not touch, and only the entries of some sections change, is the same after a run
    without these sections. -/
theorem kept_of_frames {α : Type} (view : ModuleTable → α) (changers : List SectionKind)
    (unnamed : ∀ t, view t.unnamed = view t)
    (edit : ∀ {k e bytes t u}, k ∉ changers → EntryForm k e bytes → ModuleTable.edit t e = .ok u →
      view u = view t)
    (h : Chain (fun l l' f => l.frame f = .ok l') l fs l')
    (none : ∀ f ∈ fs, ∀ k ∈ changers, f.id ≠ k.id) : view l'.table = view l.table := by
  refine h.keeps (P := fun s => view s.table = view l.table) (fun s t f hf first same => ?_) rfl
  rw [← same]
  obtain ⟨-, hsame⟩ | ⟨-, -, k, hk, -, takes⟩ := frame_eq_ok first
  · -- A custom section changes names at most.
    rw [← unnamed t.table, ← unnamed s.table]
    exact congrArg (fun l : Loader => view l.table) hsame
  · have hkeeps : k ∉ changers := fun hmem => none f hf k hmem (SectionKind.id_of_ofId? hk)
    cases takes with
    | entries _ form edited =>
      refine edited.keeps (P := fun u => view u = view s.table) (fun _ _ e he first same => ?_) rfl
      -- Each entry is one of a section that keeps what is looked at.
      obtain ⟨_, entry⟩ := form.exists_part he
      exact (edit hkeeps entry first).trans same
    | number _ form edited => exact edit hkeeps form edited
    | code _ _ lowered =>
      obtain ⟨_, _, rfl, -⟩ := lowered_bodies lowered
      rfl

/-! ## Counts -/

/-- The counts agree: functions are imports or declared by the module, and there is one lowered
    function for each body. Sections that have not come yet have declared nothing. -/
structure Counted (l : Loader) : Prop where
  functions : l.table.functions.size = (l.table.imports.get .func).size + l.declared
  small : l.declared < 2 ^ 32
  declared : l.rank < sectionRank 3 → l.declared = 0
  lowered : l.functions.size = l.bodies
  bodies : l.rank < sectionRank 10 → l.bodies = 0

/-- An empty loader has nothing to count. -/
private theorem counted_empty : Counted {} where
  functions := rfl
  small := by decide
  declared _ := rfl
  lowered := rfl
  bodies _ := rfl

/-- Names are not counted. -/
private theorem counted_unnamed : l.unnamed.Counted ↔ l.Counted := by
  have hfunctions : l.unnamed.table.functions.size = l.table.functions.size := Array.size_map
  constructor
  · intro h
    exact ⟨hfunctions ▸ h.functions, h.small, h.declared, h.lowered, h.bodies⟩
  · intro h
    exact ⟨hfunctions ▸ h.functions, h.small, h.declared, h.lowered, h.bodies⟩

end Loader

theorem EntryForm.own_func {k : SectionKind} {e : TableEdit} {bytes : Bytes}
    (h : EntryForm k e bytes) : (e.own .func).length = if k = .functions then 1 else 0 := by
  cases h <;> rfl

/-- An edit adds an import to the imports and to the functions, and a declaration to the functions
    only. -/
theorem ModuleTable.size_edit {t u : ModuleTable} {e : TableEdit} (h : t.edit e = .ok u) :
    u.functions.size + (t.imports.get .func).size =
      t.functions.size + (u.imports.get .func).size + (e.own .func).length := by
  have effect := edit_effect h
  have hentries := congrArg List.length (effect.entries .func)
  have himports := congrArg List.length (effect.imports .func)
  simp only [ModuleTable.entries, List.length_map, List.length_append, Array.length_toList]
    at hentries himports
  omega

/-- Only the function section declares functions, one for each entry. -/
theorem ModuleTable.size_edits {k : SectionKind} {t u : ModuleTable} {edits : List TableEdit}
    {parts : List Bytes} (h : t.Edits edits u) (forms : List.Forall₂ (EntryForm k) edits parts) :
    u.functions.size + (t.imports.get .func).size =
      t.functions.size + (u.imports.get .func).size +
        if k = .functions then edits.length else 0 := by
  unfold Edits at h
  induction forms generalizing t with
  | nil =>
    obtain ⟨⟩ := h
    simp
  | cons form _ ih =>
    obtain _ | ⟨first, rest⟩ := h
    have hfirst := size_edit first
    have hrest := ih rest
    rw [form.own_func] at hfirst
    -- Only in the function section does an entry declare a function.
    by_cases hk : k = .functions
    · rw [if_pos hk] at hfirst hrest ⊢
      rw [List.length_cons]
      omega
    · rw [if_neg hk] at hfirst hrest ⊢
      omega

namespace Loader

variable {l l' : Loader} {fs : List Frame}

/-- A section keeps the counts in agreement. -/
theorem Takes.counted {k : SectionKind} {payload : Bytes} (counted : l.Counted)
    (rank : l.rank < sectionRank k.id)
    (h : { l with rank := sectionRank k.id }.Takes k payload l') : l'.Counted := by
  cases h with
  | entries list form edited announced =>
    obtain ⟨_, forms⟩ := form.parts
    have hsize := ModuleTable.size_edits edited forms
    have hcount := counted.functions
    -- Only the function section declares functions, and it is read at most once.
    by_cases hk : k = .functions
    · subst hk
      have hnone : l.declared = 0 := counted.declared rank
      refine ⟨?_, ?_, fun h => absurd h (Nat.lt_irrefl _), counted.lowered, ?_⟩
      · simp only [reduceIte] at hsize ⊢
        omega
      · simpa using form.small
      · intro _
        exact counted.bodies (rank.trans (by decide))
    · simp only [if_neg hk] at hsize ⊢
      refine ⟨?_, counted.small, fun h => counted.declared (rank.trans h), counted.lowered,
        fun h => counted.bodies (rank.trans h)⟩
      simp only
      omega
  | number single form edited =>
    have hsize := ModuleTable.size_edit edited
    have hcount := counted.functions
    have hk : k ≠ .functions := by
      rintro rfl
      simp at single
    rw [form.own_func, if_neg hk] at hsize
    refine ⟨?_, counted.small, fun h => counted.declared (rank.trans h), counted.lowered,
      fun h => counted.bodies (rank.trans h)⟩
    simp only at hsize ⊢
    omega
  -- The code section is read at most once, so all bodies are from this one.
  | code form declared lowered =>
    obtain ⟨functions, intrinsics, rfl, hsize⟩ := lowered_bodies lowered
    have hnone : l.bodies = 0 := counted.bodies rank
    have hlowered := counted.lowered
    refine ⟨counted.functions, counted.small, fun h => counted.declared (rank.trans h), ?_,
      fun h => absurd h (Nat.lt_irrefl _)⟩
    simp only at hsize ⊢
    omega

/-- A frame keeps the counts in agreement. -/
theorem Counted.frame {f : Frame} (counted : l.Counted) (h : l.frame f = .ok l') : l'.Counted := by
  obtain ⟨-, same⟩ | ⟨-, rank, k, hk, -, takes⟩ := frame_eq_ok h
  · exact counted_unnamed.1 (same ▸ counted_unnamed.2 counted)
  · rw [SectionKind.id_of_ofId? hk] at rank takes
    exact takes.counted counted rank

theorem counted_of_frames (h : Chain (fun l l' f => l.frame f = .ok l') {} fs l) : l.Counted :=
  h.keeps (fun _ _ _ _ first counted => counted.frame first) counted_empty

/-! ## The code section -/

/-- A run over frames without a code section lowers nothing. -/
theorem bodies_of_no_code (h : Chain (fun l l' f => l.frame f = .ok l') l fs l')
    (none : ∀ f ∈ fs, f.id ≠ SectionKind.code.id) : l'.bodies = l.bodies := by
  refine h.keeps (P := fun s => s.bodies = l.bodies) (fun s t f hf first same => ?_) rfl
  rw [← same]
  obtain ⟨-, hsame⟩ | ⟨-, -, k, hk, -, takes⟩ := frame_eq_ok first
  -- A custom section changes names at most.
  · rw [← unnamed_bodies t, hsame, unnamed_bodies]
  · cases takes with
    | entries => rfl
    | number => rfl
    | code => exact absurd (SectionKind.id_of_ofId? hk) (none f hf)

/-- The code section of a run over frames, after which only data and custom sections come. -/
theorem exists_code (h : Chain (fun l l' f => l.frame f = .ok l') l fs l') {f : Frame}
    (hf : f ∈ fs) (hid : f.id = SectionKind.code.id) :
    ∃ before after mid done, fs = before ++ f :: after ∧
      Chain (fun l l' f => l.frame f = .ok l') l before mid ∧
      mid.rank < sectionRank SectionKind.code.id ∧
      { mid with rank := sectionRank SectionKind.code.id }.Takes .code f.payload done ∧
      Chain (fun l l' f => l.frame f = .ok l') done after l' ∧
      ∀ g ∈ after, g.id = 0 ∨ g.id = SectionKind.data.id := by
  obtain ⟨before, after, mid, done, rfl, hbefore, hcode, hafter, -, -, later⟩ :=
    exists_section h hf hid (by decide)
  obtain ⟨hrank, takes⟩ := frame_takes hid (by decide) hcode
  refine ⟨before, after, mid, done, rfl, hbefore, hrank, takes, hafter, fun g hg => ?_⟩
  by_cases hg0 : g.id = 0
  · exact .inl hg0
  · obtain ⟨-, hmem⟩ := (increasing_frames hafter).2 g.id (mem_rankedIds.2 ⟨hg0, g, hg, rfl⟩)
    exact .inr (last_of_sectionOrder g.id hmem (later g hg hg0))

end Loader

/-- Entries of the data section add data segments only. -/
theorem ModuleTable.edits_data {t u : ModuleTable} {edits : List TableEdit} {parts : List Bytes}
    (h : t.Edits edits u) (forms : List.Forall₂ (EntryForm .data) edits parts) :
    ∃ data, u = { t with data } := by
  unfold Edits at h
  induction forms generalizing t with
  | nil =>
    obtain ⟨⟩ := h
    exact ⟨_, rfl⟩
  | cons form _ ih =>
    obtain _ | ⟨first, rest⟩ := h
    obtain ⟨_⟩ := form
    obtain rfl := Except.ok.inj first
    obtain ⟨data, rfl⟩ := ih rest
    exact ⟨data, rfl⟩

namespace Loader

variable {l l' : Loader} {fs : List Frame}

/-- Data and custom sections change data segments and names only. -/
theorem unnamed_of_data (h : Chain (fun l l' f => l.frame f = .ok l') l fs l')
    (tail : ∀ f ∈ fs, f.id = 0 ∨ f.id = SectionKind.data.id) :
    ∃ data rank, l'.unnamed =
      { l.unnamed with table := { l.table.unnamed with data }, rank } := by
  refine h.keeps (P := fun s => ∃ data rank, s.unnamed =
    { l.unnamed with table := { l.table.unnamed with data }, rank })
    (fun s t f hf first same => ?_) ⟨l.table.data, l.rank, rfl⟩
  obtain ⟨data, rank, same⟩ := same
  obtain ⟨-, hsame⟩ | ⟨hid, -, k, hk, -, takes⟩ := frame_eq_ok first
  · exact ⟨data, rank, hsame.trans same⟩
  · obtain rfl : .data = k := by
      rw [(tail f hf).resolve_left hid] at hk
      simpa [SectionKind.ofId?, SectionKind.id] using hk
    cases takes with
    | entries list form edited announced =>
      obtain ⟨_, forms⟩ := form.parts
      obtain ⟨data, rfl⟩ := ModuleTable.edits_data edited forms
      refine ⟨data, sectionRank f.id, ?_⟩
      have hload := congrArg (fun l : Loader =>
        { l with table := { l.table with data }, rank := sectionRank f.id }) same
      exact hload
    | number single => simp at single

end Loader

/-- A module that loads is its header followed by frames that load, after which there is a body for
    every function. -/
theorem loadModule_eq_ok {input : Bytes} {l : Loader} (h : loadModule input = .ok l) :
    ∃ frames parts, input = moduleMagic ++ (moduleVersion ++ parts.flatten) ∧
      List.Forall₂ FrameForm frames parts ∧ ({} : Loader).frames frames = .ok l ∧
      l.bodies = l.declared := by
  unfold loadModule at h
  split at h
  · cases h
  · next rest hheader =>
    obtain rfl := moduleHeader_run.1 hheader
    unfold Loader.framing at h
    cases hframes : ({} : Loader).frames (Framing.split rest).frames with
    | error failure => simp [hframes, bind, Except.bind] at h
    | ok loaded =>
      simp only [hframes, bind, Except.bind] at h
      split at h
      · next hend =>
        obtain rfl := Except.ok.inj h
        -- No byte was left out, and there is a body for every function.
        obtain ⟨complete, counts⟩ := Bool.and_eq_true_iff.1 hend
        obtain ⟨parts, rfl, forms⟩ := Framing.split_complete complete
        exact ⟨_, parts, rfl, forms, hframes, by simpa using counts⟩
      · cases h

end WasmLowering
