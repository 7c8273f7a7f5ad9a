import WasmLowering.Proofs.IntrinsicNames
import WasmLowering.Proofs.Modularity

/-!
# The life of a module

A module is compiled again and again, with success or without. At any time its functions, their
lowered forms and its exports agree: an index is that of an import or of a body, the function of a
body is found under the name of the body, and an export leads to a function that exists.

The table of a module knows the imports and the functions, the lowered module the names of the
bodies. What ties them together are invariants of the loader: one body for each function that is not
imported, fewer imports than there are indices, and no export without its entry.

## Key results

- `Ssa.Module.find?_bodyName`: the function of a body is found under its name
- `Loader.indexed_of_frames`: imports are few, and exported functions exist
- `loaded_exports`: the export of a name is the last one that the module lists
- `Module.compiled_eq`: a module is what its last successful compilation made of it
-/

namespace WasmLowering

open Ssa

/-! ## Functions by name -/

/-- Bodies have different names. -/
theorem Ssa.bodyName_injective : Function.Injective bodyName := by
  intro i j h
  exact decimalDigits_injective ((String.append_right_inj _).1 h)

/-- The function of a body is found under its name. -/
theorem Ssa.Module.find?_bodyName {m : Ssa.Module}
    (bodies : ∀ (i : Nat) (f : Ssa.Function), m.functions[i]? = some f → f.body = i) (i : Nat) :
    m.find? (bodyName i) = m.functions[i]? := by
  -- Looking for a name is looking for the index of a body.
  have hname : ∀ f : Ssa.Function, (f.name == bodyName i) = (f.body == i) := by
    intro f
    rw [Bool.eq_iff_iff, beq_iff_eq, beq_iff_eq]
    exact bodyName_injective.eq_iff
  simp only [Ssa.Module.find?, hname]
  cases hf : m.functions[i]? with
  | none =>
    refine Array.find?_eq_none.2 fun f hmem hbody => ?_
    obtain ⟨j, hj⟩ := Array.getElem?_of_mem hmem
    rw [← beq_iff_eq.1 hbody, bodies j f hj, hj] at hf
    cases hf
  | some f =>
    obtain ⟨hi, hget⟩ := Array.getElem?_eq_some_iff.1 hf
    refine Array.find?_eq_some_iff_getElem.2 ⟨beq_iff_eq.2 (bodies i f hf), i, hi, hget, ?_⟩
    -- The functions before it come from other bodies.
    intro j hj
    have := bodies j _ (Array.getElem?_eq_getElem (hj.trans hi))
    simp [this, Nat.ne_of_lt hj]

/-! ## Imports and exports -/

/-- Only an entry of the import section imports a function. -/
theorem EntryForm.imports_func {k : SectionKind} {e : TableEdit} {bytes : Bytes}
    (h : EntryForm k e bytes) : (e.imports .func).length ≤ if k = .imports then 1 else 0 := by
  cases h with
  | @imported _ _ _ _ _ desc =>
    simp only [TableEdit.imports]
    split <;> simp
  | _ => simp [TableEdit.imports]

/-- The imported functions after an edit. -/
theorem ModuleTable.size_imports_edit {t u : ModuleTable} {e : TableEdit} (h : t.edit e = .ok u) :
    (u.imports.get .func).size = (t.imports.get .func).size + (e.imports .func).length := by
  have := congrArg List.length ((edit_effect h).imports .func)
  simpa using this

/-- The imported functions after the entries of a section. -/
theorem ModuleTable.size_imports_edits {k : SectionKind} {t u : ModuleTable}
    {edits : List TableEdit} {parts : List Bytes} (h : t.Edits edits u)
    (forms : List.Forall₂ (EntryForm k) edits parts) :
    (u.imports.get .func).size ≤
      (t.imports.get .func).size + if k = .imports then edits.length else 0 := by
  unfold Edits at h
  -- Along the entries, each of which imports at most one function.
  induction forms generalizing t with
  | nil =>
    obtain ⟨⟩ := h
    exact Nat.le_add_right ..
  | cons form _ ih =>
    obtain _ | ⟨first, rest⟩ := h
    have hfirst := size_imports_edit first
    have hform := form.imports_func
    have hrest := ih rest
    by_cases hk : k = .imports
    · rw [if_pos hk] at hform hrest ⊢
      rw [List.length_cons]
      omega
    · rw [if_neg hk] at hform hrest ⊢
      omega

/-- Exported functions exist. -/
def ModuleTable.ExportsExist (t : ModuleTable) : Prop :=
  ∀ name index, t.findExport name = some { kind := .func, index } → index.toNat < t.functions.size

/-- An edit adds no export of a function that is not there. -/
theorem ModuleTable.ExportsExist.edit {t u : ModuleTable} {e : TableEdit} (exist : t.ExportsExist)
    (h : t.edit e = .ok u) : u.ExportsExist := by
  intro name index hfind
  have effect := edit_effect h
  -- No edit takes a function away, so it is enough to look at the functions before the edit.
  have hsize : t.functions.size ≤ u.functions.size := by
    simpa [ModuleTable.entries] using effect.length_le .func
  refine Nat.lt_of_lt_of_le ?_ hsize
  rw [findExport, effect.exports, lookup_exported] at hfind
  -- The export is an old one, or the one that the edit adds.
  cases hlast : (e.exports name).getLast? with
  | none =>
    rw [hlast, Option.none_or] at hfind
    exact exist name index hfind
  | some x =>
    rw [hlast, Option.some_or] at hfind
    obtain rfl := Option.some.inj hfind
    cases e with
    | addExport other code i =>
      obtain ⟨kind, hk, hlt, -⟩ := addExport_eq_ok.1 h
      obtain ⟨-, rfl, rfl⟩ : other = name ∧ kind = .func ∧ i = index := by
        by_cases hname : other = name
        · simpa [TableEdit.exports, hk, hname] using hlast
        · simp [TableEdit.exports, hname] at hlast
      -- The number of functions in 32 bits is at most their number.
      have hcount : (t.count .func).toNat ≤ t.functions.size := Nat.mod_le ..
      exact Nat.lt_of_lt_of_le hlt hcount
    | _ => simp [TableEdit.exports] at hlast

theorem ModuleTable.ExportsExist.edits {t u : ModuleTable} {edits : List TableEdit}
    (exist : t.ExportsExist) (h : t.Edits edits u) : u.ExportsExist :=
  h.keeps (P := ExportsExist) (fun _ _ _ _ first exist => exist.edit first) exist

namespace Loader

variable {l l' : Loader} {fs : List Frame}

/-- Imported functions have an index each, and exported functions exist. -/
structure Indexed (l : Loader) : Prop where
  small : (l.table.imports.get .func).size < 2 ^ 32
  /-- Before the import section there is no import. -/
  none : l.rank < sectionRank 2 → (l.table.imports.get .func).size = 0
  exports : l.table.ExportsExist

/-- Nothing is imported or exported in the beginning. -/
private theorem indexed_empty : Indexed {} where
  small := by decide
  none _ := rfl
  exports name index h := by cases h

/-- A section keeps indices in range. -/
theorem Takes.indexed {k : SectionKind} {payload : Bytes} (indexed : l.Indexed)
    (rank : l.rank < sectionRank k.id)
    (h : { l with rank := sectionRank k.id }.Takes k payload l') : l'.Indexed := by
  cases h with
  | entries list form edited announced =>
    obtain ⟨_, forms⟩ := form.parts
    have hsize := ModuleTable.size_imports_edits edited forms
    have hsmall := indexed.small
    by_cases hk : k = .imports
    · -- Ranks increase, so this is the first import section, and its entries are fewer than 2 ^ 32.
      subst hk
      have hnone : (l.table.imports.get .func).size = 0 := indexed.none rank
      have hfew := form.small
      rw [if_pos rfl] at hsize
      refine ⟨?_, fun h => absurd h (Nat.lt_irrefl _), indexed.exports.edits edited⟩
      simp only at hsize ⊢
      omega
    · -- Other sections import nothing.
      rw [if_neg hk] at hsize
      simp only at hsize
      refine ⟨?_, fun h => ?_, indexed.exports.edits edited⟩
      · simp only
        omega
      · have hnone := indexed.none (rank.trans h)
        simp only
        omega
  | number single form edited =>
    have hsize := ModuleTable.size_imports_edit edited
    have hform := form.imports_func
    have hk : k ≠ .imports := by
      rintro rfl
      simp at single
    rw [if_neg hk] at hform
    have hsmall := indexed.small
    simp only at hsize
    refine ⟨?_, fun h => ?_, indexed.exports.edit edited⟩
    · simp only
      omega
    · have hnone := indexed.none (rank.trans h)
      simp only
      omega
  | code form declared lowered =>
    obtain ⟨functions, intrinsics, rfl, -⟩ := lowered_bodies lowered
    exact ⟨indexed.small, fun h => indexed.none (rank.trans h), indexed.exports⟩

/-- Names do not matter for indices. -/
private theorem indexed_unnamed : l.unnamed.Indexed ↔ l.Indexed := by
  have hfunctions : l.unnamed.table.functions.size = l.table.functions.size := Array.size_map
  constructor
  · intro h
    exact ⟨h.small, h.none, fun name index hfind => hfunctions ▸ h.exports name index hfind⟩
  · intro h
    exact ⟨h.small, h.none, fun name index hfind => hfunctions ▸ h.exports name index hfind⟩

/-- A frame keeps indices in range. -/
theorem Indexed.frame {f : Frame} (indexed : l.Indexed) (h : l.frame f = .ok l') : l'.Indexed := by
  obtain ⟨-, same⟩ | ⟨-, rank, k, hk, -, takes⟩ := frame_eq_ok h
  · exact indexed_unnamed.1 (same ▸ indexed_unnamed.2 indexed)
  · rw [SectionKind.id_of_ofId? hk] at rank takes
    exact takes.indexed indexed rank

private theorem indexed_of_frames (h : Chain (fun l l' f => l.frame f = .ok l') {} fs l) :
    l.Indexed :=
  h.keeps (P := Indexed) (fun _ _ _ _ first indexed => indexed.frame first) indexed_empty

end Loader

/-! ## Listed exports -/

namespace Decoder

/-- An entry of the export section. -/
def listedExport : Decoder (Bytes × Export) := do
  let name ← sized
  let code ← byte
  let index ← u32
  match ExternalKind.ofCode? code with
  | none => fail (.of (.exportKind code))
  | some kind => return (name, { kind, index })

/-- The entries in the payload of an export section. -/
def listedExports : Decoder (List (Bytes × Export)) := do
  replicate listedExport (← u32).toNat

end Decoder

/-- The entries of the export section of a module. -/
def moduleExports (input : Bytes) : List (Bytes × Export) :=
  let frames := (Framing.split (input.drop 8)).frames
  ((frames.find? (·.id = SectionKind.exports.id)).bind fun f =>
    (Decoder.listedExports.decodeAll f.payload).toOption).getD []

private theorem moduleExports_of_form {frames : List Frame} {parts : List Bytes}
    (forms : List.Forall₂ FrameForm frames parts) :
    moduleExports (moduleMagic ++ (moduleVersion ++ parts.flatten)) =
      ((frames.find? (·.id = SectionKind.exports.id)).bind fun f =>
        (Decoder.listedExports.decodeAll f.payload).toOption).getD [] := by
  rw [moduleExports, frames_of_form forms]

/-- The last export of a name. -/
def lastExport (exports : List (Bytes × Export)) (name : Bytes) : Option Export :=
  (exports.filter (·.1 = name)).getLast?.map Prod.snd

/-- The edit that adds an export. -/
def TableEdit.ofExport (e : Bytes × Export) : TableEdit :=
  .addExport e.1 e.2.kind.code e.2.index

/-- An entry of the export section is read as the export that it adds. -/
theorem EntryForm.listed {e : TableEdit} {bytes : Bytes} (h : EntryForm .exports e bytes) :
    ∃ entry, e = .ofExport entry ∧ Decoder.listedExport.Recovers bytes entry := by
  cases h with
  | @exported name xs ys kind index first form =>
    refine ⟨(name, { kind, index }), rfl, Decoder.Recovers.bind (sized_run first) ?_⟩
    refine (Decoder.recovers_byte kind.code).bind_cons ?_
    refine Decoder.Recovers.bind_pure (fun _ => u32_run form) ?_
    rw [ExternalKind.ofCode?_code]
    exact Decoder.recovers_pure _

/-- The payload of an export section is read as the exports that are added. -/
private theorem listedExports_decodeAll {edits : List TableEdit} {payload : Bytes}
    (h : VectorForm (EntryForm .exports) edits payload) :
    ∃ entries, edits = entries.map .ofExport ∧
      Decoder.listedExports.decodeAll payload = .ok entries := by
  obtain ⟨number, forms⟩ := h
  -- Each entry is read as the export that it adds.
  have hentries : ∀ {edits : List TableEdit} {parts : List Bytes},
      List.Forall₂ (EntryForm .exports) edits parts → ∃ entries : List (Bytes × Export),
        edits = entries.map .ofExport ∧
          List.Forall₂ (fun e bytes => Decoder.listedExport.Recovers bytes e) entries parts := by
    intro edits parts forms
    induction forms with
    | nil => exact ⟨[], rfl, .nil⟩
    | cons form _ ih =>
      obtain ⟨entry, rfl, recovers⟩ := form.listed
      obtain ⟨entries, rfl, later⟩ := ih
      exact ⟨entry :: entries, rfl, .cons recovers later⟩
  obtain ⟨entries, rfl, recovers⟩ := hentries forms
  rw [List.length_map] at number
  exact ⟨entries, rfl, (Decoder.recovers_vector (.mk number recovers)).decodeAll⟩

/-- After exports were added, the last one of a name is found. -/
theorem ModuleTable.findExport_edits {t u : ModuleTable} {entries : List (Bytes × Export)}
    (h : t.Edits (entries.map .ofExport) u) (name : Bytes) :
    u.findExport name = (lastExport entries name).or (t.findExport name) := by
  unfold Edits at h
  induction entries generalizing t with
  | nil =>
    obtain ⟨⟩ := h
    rfl
  | cons entry entries ih =>
    obtain _ | ⟨first, rest⟩ := h
    -- A later export of the name comes before this one, and this one before those of the table.
    rw [ih rest, findExport, findExport, (edit_effect first).exports, lookup_exported]
    unfold lastExport TableEdit.ofExport
    by_cases hname : entry.1 = name
    · cases hlast : (entries.filter (·.1 = name)).getLast? <;>
        simp [TableEdit.exports, hname, List.getLast?_cons, hlast, ExternalKind.ofCode?_code]
    · simp [TableEdit.exports, hname]

/-- Only the export section adds exports. -/
theorem EntryForm.exported_eq {k : SectionKind} {e : TableEdit} {bytes : Bytes}
    (h : EntryForm k e bytes) (hk : k ≠ .exports) (exports : ExportMap) :
    e.exported exports = exports := by
  cases h with
  | exported => exact absurd rfl hk
  | _ => rfl

namespace Loader

variable {l l' : Loader} {fs : List Frame}

/-- Sections other than the export section leave the exports as they are. -/
private theorem exports_of_frames (h : Chain (fun l l' f => l.frame f = .ok l') l fs l')
    (none : ∀ f ∈ fs, f.id ≠ SectionKind.exports.id) : l'.table.exports = l.table.exports := by
  refine kept_of_frames ModuleTable.exports [.exports] (fun _ => rfl) ?_ h (by simpa using none)
  intro k e bytes t u hk form hedit
  exact (ModuleTable.edit_effect hedit).exports.trans (form.exported_eq (by simpa using hk) _)

end Loader

/-- The export of a name in a loaded module is the last one that the module lists. -/
theorem loaded_exports {input : Bytes} {l : Loader} (h : loadModule input = .ok l) (name : Bytes) :
    l.table.findExport name = lastExport (moduleExports input) name := by
  obtain ⟨frames, parts, rfl, forms, hframes, -⟩ := loadModule_eq_ok h
  have chain := Loader.frames_eq_ok.1 hframes
  rw [moduleExports_of_form forms]
  cases hfind : frames.find? (·.id = SectionKind.exports.id) with
  -- Without an export section there are no exports.
  | none =>
    have hexports := Loader.exports_of_frames chain (by simpa using hfind)
    rw [ModuleTable.findExport, hexports]
    rfl
  | some f =>
    have hid : f.id = SectionKind.exports.id := by simpa using List.find?_some hfind
    obtain ⟨before, after, mid, done, rfl, hbefore, hexports, hafter, first, last, -⟩ :=
      Loader.exists_section chain (List.mem_of_find?_eq_some hfind) hid (by decide)
    -- It is the only section that adds exports.
    have hnone := Loader.exports_of_frames hbefore first
    have hlater := Loader.exports_of_frames hafter last
    obtain ⟨-, takes⟩ := Loader.frame_takes hid (by decide) hexports
    rw [ModuleTable.findExport, hlater]
    cases takes with
    | entries _ form edited =>
      obtain ⟨entries, rfl, hdecode⟩ := listedExports_decodeAll form
      have hfound := ModuleTable.findExport_edits edited name
      have hempty : mid.table.findExport name = none := by
        rw [ModuleTable.findExport, hnone]
        rfl
      simp only [Option.bind_some, hdecode, Except.toOption, Option.getD_some]
      exact hfound.trans (by rw [hempty, Option.or_none])
    | number single => simp at single

/-! ## Loaded modules -/

section Loaded

variable {input : Bytes} {l : Loader}

/-- Indices are in range in a loaded module. -/
private theorem loaded_indexed (h : loadModule input = .ok l) : l.Indexed := by
  obtain ⟨_, _, -, -, hframes, -⟩ := loadModule_eq_ok h
  exact Loader.indexed_of_frames (Loader.frames_eq_ok.1 hframes)

/-- There is a lowered function for each function that is no import. -/
private theorem size_loaded_functions (h : loadModule input = .ok l) :
    l.table.functions.size = (l.table.imports.get .func).size + l.functions.size := by
  obtain ⟨_, _, -, -, hframes, hbodies⟩ := loadModule_eq_ok h
  have counted := Loader.counted_of_frames (Loader.frames_eq_ok.1 hframes)
  rw [counted.functions, counted.lowered, hbodies]

/-- The lowered function for an index behind the imports. -/
private theorem loaded_function (h : loadModule input = .ok l) {index : UInt32}
    (own : (l.table.imports.get .func).size ≤ index.toNat)
    (hindex : index.toNat < l.table.functions.size) :
    ∃ f type, l.functions[index.toNat - (l.table.imports.get .func).size]? = some f ∧
      f.name = bodyName (index.toNat - (l.table.imports.get .func).size) ∧
      l.table.functionType index = .ok type ∧
      type.signature hostPointerBits = .ok f.signature := by
  obtain ⟨place, hplace⟩ := Nat.le.dest own
  have hsize := size_loaded_functions h
  obtain ⟨hlength, hall⟩ := loaded_functions h
  have hlt : place < (moduleBodies input).length := by omega
  -- The function was lowered for the index that is asked for, also where sums wrap around.
  obtain ⟨type, f, _, _, htype, hlower, hf⟩ := hall place _ (List.getElem?_eq_getElem hlt)
  have hfunc : l.table.bodyFunction (.ofNat place) = index := by
    rw [ModuleTable.bodyFunction, ModuleTable.importedCount, ← UInt32.ofNat_add, hplace,
      UInt32.ofNat_toNat]
  obtain ⟨signature, _, _, _, hsignature, -, -, -, -, rfl, -⟩ :=
    Lowering.lowerFunction_eq_ok.1 hlower
  rw [← hplace, Nat.add_sub_cancel_left]
  exact ⟨_, type, hf, rfl, hfunc ▸ htype, hsignature⟩

end Loaded

/-! ## Attempts to compile -/

namespace Module

/-- The module after attempts to compile inputs under names, the first of them on a new module. -/
def compiled (attempts : List (Bytes × Bytes)) : Module :=
  attempts.foldl (fun m a => m.after (compile a.1 a.2)) {}

/-- The last attempt that succeeded. -/
def lastSuccess (attempts : List (Bytes × Bytes)) : Option (Bytes × Bytes) :=
  (attempts.filter fun a => (compile a.1 a.2).outcome.isOk).getLast?

/-- The exports that the module lists which was compiled last. -/
def listedExports (attempts : List (Bytes × Bytes)) : List (Bytes × Export) :=
  ((lastSuccess attempts).map fun a => moduleExports a.2).getD []

/-- A module is what its last successful compilation made of it. -/
private theorem compiled_eq (attempts : List (Bytes × Bytes)) :
    lastSuccess attempts = none ∧ compiled attempts = {} ∨
      ∃ name input, lastSuccess attempts = some (name, input) ∧
        (compile name input).outcome = .ok (compiled attempts) := by
  induction attempts using List.reverseRecOn with
  | nil => exact .inl ⟨rfl, rfl⟩
  | append_singleton attempts a ih =>
    -- The last attempt decides if it succeeds, and otherwise changes nothing.
    have hcompiled : compiled (attempts ++ [a]) = (compiled attempts).after (compile a.1 a.2) := by
      simp [compiled]
    cases hout : (compile a.1 a.2).outcome with
    | ok m =>
      refine .inr ⟨a.1, a.2, ?_, ?_⟩
      · simp [lastSuccess, hout, Except.isOk, Except.toBool]
      · rw [hcompiled, after, hout]
    | error fault =>
      have hlast : lastSuccess (attempts ++ [a]) = lastSuccess attempts := by
        simp [lastSuccess, hout, Except.isOk, Except.toBool]
      have hsame : compiled (attempts ++ [a]) = compiled attempts := by
        rw [hcompiled, after, hout]
      rw [hlast, hsame]
      exact ih

/-- The functions of a module, their lowered forms and the exports that it lists agree. -/
structure Agrees (m : Module) (exports : List (Bytes × Export)) : Prop where
  imported : ∀ index : UInt32, index.toNat < (m.table.imports.get .func).size →
    m.function index = .ok none
  /-- Behind the imports come the functions of the bodies, each with the signature of its type. -/
  own : ∀ index : UInt32, (m.table.imports.get .func).size ≤ index.toNat →
    index.toNat < m.table.functions.size →
    ∃ lowered f type, m.lowered = some lowered ∧ m.function index = .ok (some f) ∧
      lowered.functions[index.toNat - (m.table.imports.get .func).size]? = some f ∧
      f.name = bodyName (index.toNat - (m.table.imports.get .func).size) ∧
      m.table.functionType index = .ok type ∧ type.signature hostPointerBits = .ok f.signature
  outside : ∀ index : UInt32, m.table.functions.size ≤ index.toNat →
    m.function index = .error .malformed
  /-- An exported function is found if it is no import, and looking for one never fails. -/
  exported : ∀ name, ∃ result, m.exportedFunction name = .ok result ∧
    (result.isSome = true ↔ ∃ index, lastExport exports name = some { kind := .func, index } ∧
      (m.table.imports.get .func).size ≤ index.toNat) ∧
    ∀ index, lastExport exports name = some { kind := .func, index } →
      m.function index = .ok result

section Function

variable {m : Module} {index : UInt32}

/-- There is no function behind the last one. -/
private theorem function_of_le (h : m.table.functions.size ≤ index.toNat) :
    m.function index = .error .malformed := by
  have hout : decide (index.toNat < m.table.functions.size) = false := by simpa using h
  rw [function, hout]
  rfl

/-- An import has no lowered function. -/
private theorem function_of_imported (h : index.toNat < m.table.functions.size)
    (imported : index < m.table.importedCount .func) : m.function index = .ok none := by
  rw [function, decide_eq_true h]
  simp only [imported, if_true]
  rfl

/-- A function of the module is found under the name of its body. -/
private theorem function_of_own {lowered : Ssa.Module} (h : index.toNat < m.table.functions.size)
    (own : ¬ index < m.table.importedCount .func) (hlowered : m.lowered = some lowered) :
    m.function index =
      .ok (lowered.find? (bodyName (index - m.table.importedCount .func).toNat)) := by
  rw [function, decide_eq_true h]
  simp only [own, if_false, getLowered, hlowered]
  rfl

end Function

/-- An exported function is what its index stands for. -/
private theorem exportedFunction_of_found {m : Module} {name : Bytes} {found : Option Export}
    (h : m.table.findExport name = found) {imported : Nat}
    (hfunction : ∀ index, found = some { kind := .func, index } →
      ∃ result, m.function index = .ok result ∧ (result.isSome = true ↔ imported ≤ index.toNat)) :
    ∃ result, m.exportedFunction name = .ok result ∧
      (result.isSome = true ↔
        ∃ index, found = some { kind := .func, index } ∧ imported ≤ index.toNat) ∧
      ∀ index, found = some { kind := .func, index } → m.function index = .ok result := by
  subst h
  unfold exportedFunction
  split
  · next index heq =>
    -- The name has one export only.
    have honly : ∀ other, m.table.findExport name = some { kind := .func, index := other } →
        other = index := by
      intro other hother
      exact (Export.mk.inj (Option.some.inj (hother.symm.trans heq))).2
    obtain ⟨result, hok, hsome⟩ := hfunction index heq
    refine ⟨result, hok, hsome.trans ⟨fun hown => ⟨index, heq, hown⟩, ?_⟩, ?_⟩
    · rintro ⟨other, hother, hown⟩
      rwa [honly other hother] at hown
    · intro other hother
      rw [honly other hother, hok]
  · next hnone =>
    refine ⟨none, rfl, ?_, fun index heq => absurd heq (hnone index)⟩
    simp only [Option.isSome_none, Bool.false_eq_true, false_iff, not_exists, not_and]
    exact fun index heq => absurd heq (hnone index)

/-- A new module has no functions and no exports. -/
private theorem agrees_empty : Agrees {} [] where
  imported index h := absurd h (Nat.not_lt_zero _)
  own index _ h := absurd h (Nat.not_lt_zero _)
  outside index h := function_of_le h
  exported name := ⟨none, rfl, by simp [lastExport], by simp [lastExport]⟩

/-- The functions and exports of a compiled module agree. -/
private theorem agrees_of_compile {name input : Bytes} {m : Module}
    (h : (compile name input).outcome = .ok m) : m.Agrees (moduleExports input) := by
  obtain ⟨l, hload, htable, hlowered⟩ := compile_eq_ok h
  have indexed := loaded_indexed hload
  have hsize := size_loaded_functions hload
  -- Imports are few, so comparing indices with their number in 32 bits is comparing numbers.
  have himported : (l.table.importedCount .func).toNat = (l.table.imports.get .func).size :=
    UInt32.toNat_ofNat_of_lt' indexed.small
  have imported : ∀ index : UInt32, index.toNat < (l.table.imports.get .func).size →
      m.function index = .ok none := by
    intro index hindex
    refine function_of_imported ?_ ?_
    · rw [htable]
      omega
    · rwa [htable, UInt32.lt_iff_toNat_lt, himported]
  have own : ∀ index : UInt32, (l.table.imports.get .func).size ≤ index.toNat →
      index.toNat < l.table.functions.size → m.function index =
        .ok l.functions[index.toNat - (l.table.imports.get .func).size]? := by
    intro index hown hindex
    have hplace : (index - l.table.importedCount .func).toNat =
        index.toNat - (l.table.imports.get .func).size := by
      rw [UInt32.toNat_sub_of_le _ _ (by rwa [UInt32.le_iff_toNat_le, himported]), himported]
    rw [function_of_own (by rwa [htable]) ?_ hlowered, htable, hplace]
    · exact congrArg Except.ok (Ssa.Module.find?_bodyName (fun i f => body_of_loaded hload) _)
    · rw [htable, UInt32.lt_iff_toNat_lt, himported]
      omega
  constructor
  case imported => rwa [htable]
  case own =>
    rw [htable]
    intro index hown hindex
    obtain ⟨f, type, hf, hname, htype, hsignature⟩ := loaded_function hload hown hindex
    exact ⟨_, f, type, hlowered, (own index hown hindex).trans (by rw [hf]), hf, hname, htype,
      hsignature⟩
  case outside => exact fun index => function_of_le
  case exported =>
    rw [htable]
    intro name
    have hfound : m.table.findExport name = lastExport (moduleExports input) name := by
      rw [htable]
      exact loaded_exports hload name
    refine exportedFunction_of_found hfound fun index hlast => ?_
    have hexists : index.toNat < l.table.functions.size :=
      indexed.exports name index ((loaded_exports hload name).trans hlast)
    -- The function is one of the module's own, or an import.
    by_cases hown : (l.table.imports.get .func).size ≤ index.toNat
    · refine ⟨_, own index hown hexists, ?_⟩
      simp only [hown, iff_true, Option.isSome_iff_exists]
      exact ⟨_, Array.getElem?_eq_getElem (by omega)⟩
    · exact ⟨none, imported index (Nat.lt_of_not_le hown), by simp [hown]⟩

/-- Whatever has been compiled before, with success or without, the functions of a module, their
    lowered forms and its exports agree. An index is that of an import or of a body, and the lowered
    function of the body has the signature of its type; an exported function is found exactly if it
    is no import. -/
theorem compiled_agrees (attempts : List (Bytes × Bytes)) :
    (compiled attempts).Agrees (listedExports attempts) := by
  obtain ⟨hnone, hempty⟩ | ⟨name, input, hlast, hcompiled⟩ := compiled_eq attempts
  · rw [hempty, listedExports, hnone]
    exact agrees_empty
  · rw [listedExports, hlast]
    exact agrees_of_compile hcompiled

/-- A module with an import, a function, and exports of both, of which one takes the name of
    another. -/
def exportingModule : Bytes :=
  [0x00, 0x61, 0x73, 0x6D, 0x01, 0x00, 0x00, 0x00,
    0x01, 0x05, 0x01, 0x60, 0x00, 0x01, 0x7F,
    0x02, 0x07, 0x01, 0x01, 0x6D, 0x01, 0x66, 0x00, 0x00,
    0x03, 0x02, 0x01, 0x00,
    0x07, 0x0D, 0x03, 0x01, 0x66, 0x00, 0x00, 0x01, 0x67, 0x00, 0x00, 0x01, 0x66, 0x00, 0x01,
    0x0A, 0x06, 0x01, 0x04, 0x00, 0x41, 0x07, 0x0B]

/-- The module is compiled between two attempts that fail. -/
theorem compiled_agrees_exporting :
    ∃ f, f.name = "func_0" ∧
      let m := compiled [([], []), ([], exportingModule), ([], [0x00])]
      m.function 0 = .ok none ∧ m.function 1 = .ok (some f) ∧ m.function 2 = .error .malformed ∧
        m.exportedFunction [0x66] = .ok (some f) ∧ m.exportedFunction [0x67] = .ok none := by
  let attempts : List (Bytes × Bytes) := [([], []), ([], exportingModule), ([], [0x00])]
  have agrees := compiled_agrees attempts
  have himports : ((compiled attempts).table.imports.get .func).size = 1 := by decide +kernel
  have hfunctions : (compiled attempts).table.functions.size = 2 := by decide +kernel
  have hown : lastExport (listedExports attempts) [0x66] = some { kind := .func, index := 1 } := by
    decide +kernel
  have himp : lastExport (listedExports attempts) [0x67] = some { kind := .func, index := 0 } := by
    decide +kernel
  obtain ⟨_, f, _, -, hf, -, hname, -, -⟩ := agrees.own 1 (by rw [himports]; decide)
    (by rw [hfunctions]; decide)
  have himported := agrees.imported 0 (by rw [himports]; decide)
  -- One export is of this function, and the other of the import.
  obtain ⟨result, hresult, -, hfunction⟩ := agrees.exported [0x66]
  obtain ⟨result', hresult', -, hfunction'⟩ := agrees.exported [0x67]
  have hfound := Except.ok.inj ((hfunction 1 hown).symm.trans hf)
  have hnone := Except.ok.inj ((hfunction' 0 himp).symm.trans himported)
  rw [hfound] at hresult
  rw [hnone] at hresult'
  refine ⟨f, ?_, himported, hf, agrees.outside 2 (by rw [hfunctions]; decide), hresult, hresult'⟩
  rw [hname, himports]
  decide +kernel

end Module

end WasmLowering
