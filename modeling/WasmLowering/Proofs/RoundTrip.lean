import WasmLowering.Proofs.Independence
import WasmLowering.Proofs.ModuleFormat
import WasmLowering.Proofs.TableInvariant
import WasmLowering.Module.Compile

/-!
# Round trip of modules

A module description lists what the sections of a module declare. It is written section by section,
where sections without entries are left out, and it says what the table of the module should be.
Compiling the written form gives this table: the state of the loader after each entry is the table
of the part of the description that has been read.

## Key results

- `table_addImport` and its siblings: an entry extends the table as it extends the description
- `loads_vector`, `loads_functions`, `loads_code`, `loads_data`: what each section does
- `compile_encode`: a description that is written and compiled is found in the table
-/

namespace WasmLowering

/-! ## Descriptions -/

/-- An import: its two names, and what it has to be. -/
structure ImportItem where
  module : Bytes
  name : Bytes
  desc : ImportDesc
  deriving Repr, DecidableEq

/-- A function of the module: the index of its type, and its body. -/
structure FunctionDesc where
  typeIndex : UInt32
  body : Bytes
  deriving Repr, DecidableEq

/-- A global of the module and its initial value. -/
structure GlobalDesc where
  type : GlobalType
  init : Initializer
  deriving Repr, DecidableEq

/-- What the sections of a module declare, in the order in which they are written. -/
structure ModuleDesc where
  types : List FuncType := []
  imports : List ImportItem := []
  functions : List FunctionDesc := []
  tables : List TableType := []
  memories : List Limits := []
  globals : List GlobalDesc := []
  exports : List (Bytes × Export) := []
  start : Option UInt32 := none
  elements : List ElementDesc := []
  dataCount : Option UInt32 := none
  data : List DataDesc := []
  deriving Repr, DecidableEq

/-! ## The table of a description -/

namespace ImportDesc

/-- The function that an import adds. -/
def function? : ImportDesc → Option FunctionEntry
  | func typeIndex => some { typeIndex }
  | _ => none

/-- The table that an import adds. -/
def table? : ImportDesc → Option TableType
  | table type => some type
  | _ => none

/-- The memory that an import adds. -/
def memory? : ImportDesc → Option Limits
  | memory limits => some limits
  | _ => none

/-- The global that an import adds, which has no initial value. -/
def global? : ImportDesc → Option Global
  | global type => some { type }
  | _ => none

end ImportDesc

/-- The function in a module table. -/
def FunctionDesc.entry (f : FunctionDesc) : FunctionEntry :=
  { typeIndex := f.typeIndex }

/-- The global in a module table. -/
def GlobalDesc.entry (g : GlobalDesc) : Global :=
  { type := g.type, init := g.init.constExpr }

namespace ImportItem

/-- The imports of a kind. -/
def ofKind (imports : List ImportItem) (k : ExternalKind) : List ImportItem :=
  imports.filter (·.desc.kind = k)

/-- The imports of a kind, numbered from zero. -/
def numbered (imports : List ImportItem) (k : ExternalKind) : Array Import :=
  ((ofKind imports k).mapIdx fun i x =>
    { module := x.module, name := x.name, index := .ofNat i }).toArray

/-- The entries that imports add to an index space. -/
def entries {α : Type} (add : ImportDesc → Option α) (imports : List ImportItem) : List α :=
  imports.filterMap fun x => add x.desc

variable (imports : List ImportItem) (x : ImportItem) (k : ExternalKind)

private theorem size_numbered : (numbered imports k).size = (ofKind imports k).length := by
  simp [numbered]

private theorem length_ofKind_le : (ofKind imports k).length ≤ imports.length :=
  List.length_filter_le ..

private theorem length_entries {α : Type} (add : ImportDesc → Option α)
    (h : ∀ desc, (add desc).isSome = decide (desc.kind = k)) :
    (entries add imports).length = (ofKind imports k).length := by
  rw [entries, ofKind, ← List.countP_eq_length_filter, List.length_filterMap_eq_countP]
  exact List.countP_congr fun x _ => by rw [h]

/-- The imports of a kind after one more import. -/
private theorem numbered_append :
    numbered (imports ++ [x]) k =
      if x.desc.kind = k then
        (numbered imports k).push ⟨x.module, x.name, .ofNat (ofKind imports k).length⟩
      else numbered imports k := by
  unfold numbered ofKind
  split
  · next h => simp [h, List.mapIdx_append]
  · next h => simp [h]

/-- The entries of imports after one more import. -/
private theorem entries_append {α : Type} (add : ImportDesc → Option α) :
    entries add (imports ++ [x]) = entries add imports ++ (add x.desc).toList := by
  unfold entries
  rw [List.filterMap_append]
  cases h : add x.desc <;> simp [h]

end ImportItem

namespace ModuleDesc

/-- The module table that a description stands for. -/
def table (m : ModuleDesc) : ModuleTable where
  types := m.types.toArray
  imports :=
    { func := ImportItem.numbered m.imports .func
      table := ImportItem.numbered m.imports .table
      memory := ImportItem.numbered m.imports .memory
      global := ImportItem.numbered m.imports .global }
  functions := (ImportItem.entries ImportDesc.function? m.imports ++
    m.functions.map FunctionDesc.entry).toArray
  tables := (ImportItem.entries ImportDesc.table? m.imports ++ m.tables).toArray
  memories := (ImportItem.entries ImportDesc.memory? m.imports ++ m.memories).toArray
  globals := (ImportItem.entries ImportDesc.global? m.imports ++
    m.globals.map GlobalDesc.entry).toArray
  exports := m.exports.foldl (fun map e => map.insert e.1 e.2) []
  elements := (m.elements.map ElementDesc.segment).toArray
  data := (m.data.map DataDesc.segment).toArray
  start := m.start
  dataCount := m.dataCount

/-- The number of entries of a kind that the module defines itself. -/
def ownCount (m : ModuleDesc) : ExternalKind → Nat
  | .func => m.functions.length
  | .table => m.tables.length
  | .memory => m.memories.length
  | .global => m.globals.length

/-- The size of the index space of a kind. -/
def size (m : ModuleDesc) (k : ExternalKind) : Nat :=
  (ImportItem.ofKind m.imports k).length + m.ownCount k

section Table

variable (m : ModuleDesc)

private theorem get_imports (k : ExternalKind) :
    m.table.imports.get k = ImportItem.numbered m.imports k := by
  cases k <;> rfl

private theorem length_imported_functions :
    (ImportItem.entries ImportDesc.function? m.imports).length =
      (ImportItem.ofKind m.imports .func).length :=
  ImportItem.length_entries _ _ _ fun desc => by cases desc <;> rfl

/-- The index space of a kind has its imports and the module's own entries. -/
private theorem length_entries (k : ExternalKind) : (m.table.entries k).length = m.size k := by
  unfold size
  cases k with
  | func => simp [table, ModuleTable.entries, ownCount, length_imported_functions]
  | table =>
    have := ImportItem.length_entries m.imports .table ImportDesc.table? fun desc => by
      cases desc <;> rfl
    simp [table, ModuleTable.entries, ownCount, this]
  | memory =>
    have := ImportItem.length_entries m.imports .memory ImportDesc.memory? fun desc => by
      cases desc <;> rfl
    simp [table, ModuleTable.entries, ownCount, this]
  | global =>
    have := ImportItem.length_entries m.imports .global ImportDesc.global? fun desc => by
      cases desc <;> rfl
    simp [table, ModuleTable.entries, ownCount, this]

private theorem size_functions : m.table.functions.size = m.size .func := by
  simpa [ModuleTable.entries] using m.length_entries .func

end Table

/-! ## One more entry -/

section Entries

variable (m : ModuleDesc)

private theorem table_addType (type : FuncType) :
    m.table.addType type = { m with types := m.types ++ [type] }.table := by
  simp [table, ModuleTable.addType]

private theorem table_addFunction {f : FunctionDesc} (valid : f.typeIndex.toNat < m.types.length) :
    m.table.built (.addFunction f.typeIndex) =
      .ok { m with functions := m.functions ++ [f] }.table := by
  refine ModuleTable.addFunction_eq_ok.2 ⟨by simpa [table] using valid, ?_⟩
  simp [table, FunctionDesc.entry]

private theorem table_addTable (type : TableType) :
    m.table.addTable type = { m with tables := m.tables ++ [type] }.table := by
  simp [table, ModuleTable.addTable]

private theorem table_addMemory {limits : Limits} (valid : limits.Valid) :
    m.table.built (.addMemory limits) =
      .ok { m with memories := m.memories ++ [limits] }.table := by
  refine ModuleTable.pushMemory_eq_ok.2 ⟨valid.is64, ?_⟩
  simp [table]

private theorem table_addGlobal (g : GlobalDesc) :
    m.table.addGlobal g.type g.init.constExpr = { m with globals := m.globals ++ [g] }.table := by
  simp [table, ModuleTable.addGlobal, GlobalDesc.entry]

/-- An import is accepted while the module has no entries of its own. -/
theorem table_addImport {x : ImportItem} (none : ∀ k, m.ownCount k = 0)
    (valid : x.desc.Valid m.types.length) (few : m.imports.length < 2 ^ 32) :
    m.table.built (.addImport x.module x.name x.desc) =
      .ok { m with imports := m.imports ++ [x] }.table := by
  have hfew := ImportItem.length_ofKind_le m.imports x.desc.kind
  have hlength := m.length_entries x.desc.kind
  rw [size, none, Nat.add_zero] at hlength
  apply ModuleTable.addImport_eq_ok.2
  rw [ModuleTable.count_eq, hlength, get_imports, ImportItem.size_numbered]
  refine ⟨UInt32.toNat_ofNat_of_lt' (by simp only [UInt32.size]; omega), ?_⟩
  -- Imports come before the module has entries of its own.
  have hfunctions : m.functions = [] := List.length_eq_zero_iff.1 (none .func)
  have htables : m.tables = [] := List.length_eq_zero_iff.1 (none .table)
  have hmemories : m.memories = [] := List.length_eq_zero_iff.1 (none .memory)
  have hglobals : m.globals = [] := List.length_eq_zero_iff.1 (none .global)
  have hindex : ∀ desc : ImportDesc, desc = x.desc → desc.Valid m.types.length :=
    fun desc h => h ▸ valid
  cases hdesc : x.desc with
  | func typeIndex =>
    have hindex : typeIndex.toNat < m.types.length := hindex _ hdesc.symm
    refine ⟨_, ModuleTable.addFunction_eq_ok.2 ⟨by simpa [table] using hindex, rfl⟩, ?_⟩
    simp [table, ImportItem.numbered_append, ImportItem.entries_append, hfunctions, htables,
      hmemories, hglobals, hdesc, ImportDesc.kind, ImportDesc.function?, ImportDesc.table?,
      ImportDesc.memory?, ImportDesc.global?, PerKind.set, PerKind.get,
      ModuleTable.withImport]
  | table type =>
    refine ⟨_, rfl, ?_⟩
    simp [table, ImportItem.numbered_append, ImportItem.entries_append, hfunctions, htables,
      hmemories, hglobals, hdesc, ImportDesc.kind, ImportDesc.function?, ImportDesc.table?,
      ImportDesc.memory?, ImportDesc.global?, PerKind.set, PerKind.get,
      ModuleTable.withImport, ModuleTable.addTable]
  | memory limits =>
    have hlimits : limits.Valid := hindex _ hdesc.symm
    refine ⟨_, ModuleTable.pushMemory_eq_ok.2 ⟨hlimits.is64, rfl⟩, ?_⟩
    simp [table, ImportItem.numbered_append, ImportItem.entries_append, hfunctions, htables,
      hmemories, hglobals, hdesc, ImportDesc.kind, ImportDesc.function?, ImportDesc.table?,
      ImportDesc.memory?, ImportDesc.global?, PerKind.set, PerKind.get,
      ModuleTable.withImport]
  | global type =>
    refine ⟨_, rfl, ?_⟩
    simp [table, ImportItem.numbered_append, ImportItem.entries_append, hfunctions, htables,
      hmemories, hglobals, hdesc, ImportDesc.kind, ImportDesc.function?, ImportDesc.table?,
      ImportDesc.memory?, ImportDesc.global?, PerKind.set, PerKind.get,
      ModuleTable.withImport, ModuleTable.addGlobal]

private theorem table_addExport {e : Bytes × Export} (valid : e.2.index.toNat < m.size e.2.kind)
    (few : m.size e.2.kind < 2 ^ 32) :
    m.table.built (.addExport e.1 e.2.kind.code e.2.index) =
      .ok { m with exports := m.exports ++ [e] }.table := by
  refine ModuleTable.addExport_eq_ok.2 ⟨e.2.kind, ExternalKind.ofCode?_code _, ?_, ?_⟩
  · rw [UInt32.lt_iff_toNat_lt, ModuleTable.count_eq, length_entries,
      UInt32.toNat_ofNat_of_lt' few]
    exact valid
  · simp [table]

private theorem table_setStart {index : UInt32} (valid : index.toNat < m.size .func) :
    m.table.built (.setStart index) = .ok { m with start := some index }.table :=
  ModuleTable.setStart_eq_ok.2 ⟨by rwa [size_functions], rfl⟩

private theorem table_addElement (s : ElementDesc) :
    m.table.addElement s.segment = { m with elements := m.elements ++ [s] }.table := by
  simp [table, ModuleTable.addElement]

private theorem table_addData (s : DataDesc) :
    m.table.addData s.segment = { m with data := m.data ++ [s] }.table := by
  simp [table, ModuleTable.addData]

end Entries

end ModuleDesc

/-! ## Written form -/

/-- The written form of a frame. -/
def Frame.encode (f : Frame) : Bytes :=
  f.id :: f.payload.sized

/-- The written form of an import. -/
def ImportItem.encode (x : ImportItem) : Bytes :=
  x.module.sized ++ (x.name.sized ++ x.desc.encode)

/-- The written form of a function in the function section. -/
def FunctionDesc.encode (f : FunctionDesc) : Bytes :=
  Bytes.ofUnsigned f.typeIndex.toNat

/-- The written form of a global. -/
def GlobalDesc.encode (g : GlobalDesc) : Bytes :=
  g.type.encode ++ g.init.encode

/-- The written form of an export. -/
def Export.encode (e : Bytes × Export) : Bytes :=
  e.1.sized ++ e.2.kind.code :: Bytes.ofUnsigned e.2.index.toNat

theorem ImportItem.encode_ne_nil (x : ImportItem) : x.encode ≠ [] := by
  simp [encode, Bytes.sized, Bytes.ofUnsigned_ne_nil]

theorem FunctionDesc.encode_ne_nil (f : FunctionDesc) : f.encode ≠ [] :=
  Bytes.ofUnsigned_ne_nil _

theorem GlobalDesc.encode_ne_nil (g : GlobalDesc) : g.encode ≠ [] :=
  List.cons_ne_nil _ _

theorem Export.encode_ne_nil (e : Bytes × Export) : Export.encode e ≠ [] := by
  simp [encode]

/-- A section of entries, which is left out if there are none. -/
def vectorSection (k : SectionKind) (entries : List Bytes) : List Frame :=
  if entries = [] then [] else [⟨k.id, Bytes.vector entries⟩]

/-- A section of one number, which is left out if there is none. -/
def numberSection (k : SectionKind) (n : Option UInt32) : List Frame :=
  n.toList.map fun n => ⟨k.id, Bytes.ofUnsigned n.toNat⟩

namespace ModuleDesc

/-- The sections of a module. -/
def sections (m : ModuleDesc) : List Frame :=
  vectorSection .types (m.types.map FuncType.encode) ++
  (vectorSection .imports (m.imports.map ImportItem.encode) ++
  (vectorSection .functions (m.functions.map FunctionDesc.encode) ++
  (vectorSection .tables (m.tables.map TableType.encode) ++
  (vectorSection .memories (m.memories.map Limits.encode) ++
  (vectorSection .globals (m.globals.map GlobalDesc.encode) ++
  (vectorSection .exports (m.exports.map Export.encode) ++
  (numberSection .start m.start ++
  (vectorSection .elements (m.elements.map ElementDesc.encode) ++
  (numberSection .dataCount m.dataCount ++
  (vectorSection .code (m.functions.map fun f => f.body.sized) ++
  vectorSection .data (m.data.map DataDesc.encode)))))))))))

/-- The written form of a module. -/
def encode (m : ModuleDesc) : Bytes :=
  moduleMagic ++ (moduleVersion ++ (m.sections.map Frame.encode).flatten)

end ModuleDesc

/-- Frames that are written are found again. -/
theorem Framing.split_encode {fs : List Frame} (small : ∀ f ∈ fs, f.payload.length < 2 ^ 32) :
    Framing.split (fs.map Frame.encode).flatten = ⟨fs, true⟩ := by
  induction fs with
  | nil => simp [Framing.split]
  | cons f fs ih =>
    have hsized := Decoder.recovers_sized (small f List.mem_cons_self)
      (fs.map Frame.encode).flatten
    have hrest := ih fun g hg => small g (List.mem_cons_of_mem f hg)
    rw [List.map_cons, List.flatten_cons, Frame.encode, List.cons_append, Framing.split]
    -- The size that is read is the one that was written.
    split
    · next heq =>
      rw [hsized] at heq
      cases heq
    · next payload tail heq =>
      rw [hsized] at heq
      obtain ⟨hpayload, rfl⟩ := Prod.mk.inj heq
      obtain rfl := Except.ok.inj hpayload
      rw [hrest]

/-! ## Loading -/

namespace Loader

/-- The sections `fs` take the loader from `l` to `l'`, whatever sections follow. -/
def Loads (l : Loader) (fs : List Frame) (l' : Loader) : Prop :=
  ∀ rest, l.frames (fs ++ rest) = l'.frames rest

variable {l l' l'' : Loader} {fs gs : List Frame} {k : SectionKind}

private theorem loads_nil (l : Loader) : l.Loads [] l :=
  fun _ => rfl

/-- Sections are loaded one after the other. -/
theorem Loads.append (first : l.Loads fs l') (second : l'.Loads gs l'') :
    l.Loads (fs ++ gs) l'' := by
  intro rest
  rw [List.append_assoc, first, second]

/-- A section whose payload is recovered. -/
private theorem loads_section {payload : Bytes} (hk : k ≠ .custom)
    (rank : l.rank < sectionRank k.id)
    (h : ({ l with rank := sectionRank k.id }.sectionDecoder k).Recovers payload l') :
    l.Loads [⟨k.id, payload⟩] l' := by
  have hid := SectionKind.id_ne_zero hk
  have hranked : l.ranked ⟨k.id, payload⟩ = .ok l' := by
    refine bind_eq_ok.2 ⟨(), require_eq_ok.2 (by simpa using rank), ?_⟩
    rw [SectionKind.ofId?_id]
    exact inContext_eq_ok.2 h.decodeAll
  intro rest
  simp only [List.cons_append, List.nil_append, frames, frame, hid, if_false, hranked]
  rfl

/-- A section of entries that only change the table. -/
theorem loads_vector {γ : Type} {entry : ModuleTable → Decoder ModuleTable} {enc : γ → Bytes}
    {items : List γ} {state : List γ → ModuleTable} (hk : k ≠ .custom)
    (decoder : ∀ l : Loader, l.sectionDecoder k = l.tableSection (.entries entry))
    (rank : l.rank < sectionRank k.id) (first : l.table = state [])
    (nonempty : ∀ x, enc x ≠ []) (small : (items.map enc).flatten.length < 2 ^ 32)
    (h : ∀ before x, before.length < 2 ^ 32 → x ∈ items → (enc x).length < 2 ^ 32 →
      (entry (state before)).Recovers (enc x) (state (before ++ [x]))) :
    ∃ r ≤ sectionRank k.id, l.Loads (vectorSection k (items.map enc))
      { l with table := state items, rank := r } := by
  have hlength := Decoder.length_le_flatten fun x (_ : x ∈ items) => nonempty x
  have few : items.length < 2 ^ 32 := by omega
  -- Each entry is read with the ones before it in the table.
  have hentries : (Decoder.iterate entry items.length (state [])).Recovers (items.map enc).flatten
      (state items) := by
    refine @Decoder.recovers_iterate _ _ entry enc state [] items fun before x after heq => ?_
    rw [List.nil_append] at heq
    have hmem : x ∈ items := by simp [heq]
    have hbefore : before.length ≤ items.length := by simp [heq]
    have hx := @Decoder.length_le_of_mem _ enc _ _ hmem
    exact h before x (by omega) hmem (by omega)
  cases items with
  -- An empty section is left out.
  | nil =>
    refine ⟨l.rank, Nat.le_of_lt rank, ?_⟩
    rw [← first]
    exact loads_nil l
  | cons x xs =>
    refine ⟨sectionRank k.id, Nat.le_refl _, loads_section hk rank ?_⟩
    rw [decoder]
    refine Decoder.Recovers.bind_pure ?_ (Decoder.recovers_pure _)
    show (Decoder.entries entry l.table).Recovers _ _
    rw [Bytes.vector, List.length_map, first]
    refine (Decoder.recovers_count few).bind ?_
    rw [UInt32.toNat_ofNat_of_lt' few]
    exact hentries

/-- A section of one number that only changes the table. -/
private theorem loads_number {entry : ModuleTable → Decoder ModuleTable} {n : Option UInt32}
    {state : Option UInt32 → ModuleTable} (hk : k ≠ .custom)
    (decoder : ∀ l : Loader, l.sectionDecoder k = l.tableSection entry)
    (rank : l.rank < sectionRank k.id) (first : l.table = state none)
    (h : ∀ x ∈ n, (entry (state none)).Recovers (Bytes.ofUnsigned x.toNat) (state (some x))) :
    ∃ r ≤ sectionRank k.id, l.Loads (numberSection k n)
      { l with table := state n, rank := r } := by
  cases n with
  -- Without a number there is no section.
  | none =>
    refine ⟨l.rank, Nat.le_of_lt rank, ?_⟩
    rw [← first]
    exact loads_nil l
  | some x =>
    refine ⟨sectionRank k.id, Nat.le_refl _, loads_section hk rank ?_⟩
    rw [decoder]
    refine Decoder.Recovers.bind_pure ?_ (Decoder.recovers_pure _)
    show (entry l.table).Recovers _ _
    rw [first]
    exact h x rfl

end Loader

/-! ## Entries of a description -/

namespace ModuleDesc

open Decoder

/-- A body lowers without error. Where it stands in a module and which intrinsics are declared
    before it does not matter. -/
def Lowers (m : ModuleDesc) (f : FunctionDesc) : Prop :=
  ∃ type index func intrinsics result, m.types[f.typeIndex.toNat]? = some type ∧
    Lowering.lowerFunction m.types.toArray index func type intrinsics f.body = .ok result

/-- What the decoder checks of a description. -/
structure Valid (m : ModuleDesc) : Prop where
  types : ∀ t ∈ m.types, t.Known
  imports : ∀ x ∈ m.imports, x.desc.Valid m.types.length
  functions : ∀ f ∈ m.functions, f.typeIndex.toNat < m.types.length
  tables : ∀ t ∈ m.tables, t.Valid
  memories : ∀ l ∈ m.memories, l.Valid
  globals : ∀ g ∈ m.globals, g.type.type.isKnown = true
  exports : ∀ e ∈ m.exports, e.2.index.toNat < m.size e.2.kind
  start : ∀ index ∈ m.start, index.toNat < m.size .func
  elements : ∀ s ∈ m.elements, s.Valid (m.size .func)
  dataCount : ∀ count ∈ m.dataCount, count.toNat = m.data.length
  bodies : ∀ f ∈ m.functions, m.Lowers f

section Recovery

variable (m : ModuleDesc)

/-- A type is recovered into the table. -/
private theorem recovers_type {type : FuncType} (known : type.Known)
    (small : type.encode.length < 2 ^ 32) :
    (typeEntry m.table).Recovers type.encode { m with types := m.types ++ [type] }.table := by
  -- Every type takes a byte, so the lists are short enough to have their length written.
  have hlength : ∀ ts : List ValueType, ts.length ≤ (ValueType.encodeAll ts).length := by
    intro ts
    have hitems := length_le_flatten fun (t : ValueType) (_ : t ∈ ts) => List.cons_ne_nil t.code []
    exact hitems.trans (Bytes.length_flatten_le_vector _)
  have hparams := hlength type.params
  have hresults := hlength type.results
  simp only [FuncType.encode, List.length_cons, List.length_append] at small
  refine (recovers_byte funcTypeForm).bind_cons ?_
  refine (recovers_valueTypes (by omega) known.1).bind ?_
  refine (recovers_valueTypes (by omega) known.2).bind_pure ?_
  rw [table_addType]
  exact recovers_pure _

/-- An import is recovered into the table. -/
private theorem recovers_import {x : ImportItem} (none : ∀ k, m.ownCount k = 0)
    (valid : x.desc.Valid m.types.length) (few : m.imports.length < 2 ^ 32)
    (small : x.encode.length < 2 ^ 32) :
    (importEntry m.table).Recovers x.encode { m with imports := m.imports ++ [x] }.table := by
  have hmodule := Bytes.length_sized x.module
  have hname := Bytes.length_sized x.name
  simp only [ImportItem.encode, List.length_append] at small
  refine (recovers_sized (by omega)).bind ?_
  refine (recovers_sized (by omega)).bind ?_
  refine (recovers_importDesc valid).bind_pure ?_
  exact recovers_ofExcept (m.table_addImport none valid few)

private theorem recovers_function {f : FunctionDesc} (valid : f.typeIndex.toNat < m.types.length) :
    (functionEntry m.table).Recovers f.encode { m with functions := m.functions ++ [f] }.table :=
  (recovers_u32 f.typeIndex).bind_pure (recovers_ofExcept (m.table_addFunction valid))

private theorem recovers_table {type : TableType} (valid : type.Valid) :
    (tableEntry m.table).Recovers type.encode { m with tables := m.tables ++ [type] }.table := by
  refine (recovers_tableType valid).bind_pure ?_
  rw [table_addTable]
  exact recovers_pure _

private theorem recovers_memory {limits : Limits} (valid : limits.Valid) :
    (memoryEntry m.table).Recovers limits.encode
      { m with memories := m.memories ++ [limits] }.table :=
  (recovers_memoryLimits valid).bind_pure (recovers_ofExcept (m.table_addMemory valid))

private theorem recovers_global {g : GlobalDesc} (known : g.type.type.isKnown = true) :
    (globalEntry m.table).Recovers g.encode { m with globals := m.globals ++ [g] }.table := by
  refine (recovers_globalType known).bind ?_
  refine (recovers_constExpr g.init).bind_pure ?_
  rw [table_addGlobal]
  exact recovers_pure _

private theorem recovers_export {e : Bytes × Export} (valid : e.2.index.toNat < m.size e.2.kind)
    (few : m.size e.2.kind < 2 ^ 32) (small : (Export.encode e).length < 2 ^ 32) :
    (exportEntry m.table).Recovers (Export.encode e)
      { m with exports := m.exports ++ [e] }.table := by
  have hname := Bytes.length_sized e.1
  simp only [Export.encode, List.length_append] at small
  refine (recovers_sized (by omega)).bind ?_
  refine (recovers_byte e.2.kind.code).bind_cons ?_
  rw [ExternalKind.ofCode?_code]
  exact (recovers_u32 e.2.index).bind_pure (recovers_ofExcept (m.table_addExport valid few))

private theorem recovers_start {index : UInt32} (valid : index.toNat < m.size .func) :
    (startEntry m.table).Recovers (Bytes.ofUnsigned index.toNat)
      { m with start := some index }.table :=
  (recovers_u32 index).bind_pure (recovers_ofExcept (m.table_setStart valid))

private theorem recovers_elementEntry {s : ElementDesc} (valid : s.Valid (m.size .func))
    (small : s.encode.length < 2 ^ 32) :
    (elementEntry m.table).Recovers s.encode { m with elements := m.elements ++ [s] }.table := by
  rw [← table_addElement]
  rw [← size_functions] at valid
  exact recovers_element valid small

private theorem recovers_dataCount (count : UInt32) :
    (dataCountEntry m.table).Recovers (Bytes.ofUnsigned count.toNat)
      { m with dataCount := some count }.table :=
  (recovers_u32 count).bind_pure (recovers_pure _)

private theorem recovers_dataEntry {s : DataDesc} (small : s.encode.length < 2 ^ 32) :
    (dataEntry m.table).Recovers s.encode { m with data := m.data ++ [s] }.table := by
  rw [← table_addData]
  exact recovers_data small

/-- The type of the function whose body comes next. -/
private theorem functionType_body {before after : List FunctionDesc} {f : FunctionDesc}
    {type : FuncType} (all : m.functions = before ++ f :: after) (few : m.size .func < 2 ^ 32)
    (htype : m.types[f.typeIndex.toNat]? = some type) :
    m.table.functionType (m.table.bodyFunction (.ofNat before.length)) = .ok type := by
  have hcount : (m.table.imports.get .func).size = (ImportItem.ofKind m.imports .func).length := by
    rw [get_imports, ImportItem.size_numbered]
  simp only [size, ownCount, all, List.length_append, List.length_cons] at few
  -- The index does not wrap around, since all functions have an index.
  have hindex : (m.table.bodyFunction (.ofNat before.length)).toNat =
      (ImportItem.ofKind m.imports .func).length + before.length := by
    rw [ModuleTable.bodyFunction, ModuleTable.importedCount, hcount, UInt32.toNat_add,
      UInt32.toNat_ofNat_of_lt' (by simp only [UInt32.size]; omega),
      UInt32.toNat_ofNat_of_lt' (by simp only [UInt32.size]; omega), Nat.mod_eq_of_lt (by omega)]
  have hfunction : m.table.functions[(ImportItem.ofKind m.imports .func).length +
      before.length]? = some f.entry := by
    simp [table, all, ← length_imported_functions]
  have htype' : m.table.types[f.entry.typeIndex.toNat]? = some type := by
    simpa [table, FunctionDesc.entry] using htype
  simp only [ModuleTable.functionType, hindex, hfunction, htype']

end Recovery

end ModuleDesc

/-! ## Sections of a description -/

namespace Loader

open Decoder

variable {l : Loader} {m : ModuleDesc}

/-- The type section. -/
private theorem loads_types (rank : l.rank < sectionRank SectionKind.types.id)
    (first : l.table = { m with types := [] }.table) (known : ∀ t ∈ m.types, t.Known)
    (small : (m.types.map FuncType.encode).flatten.length < 2 ^ 32) :
    ∃ r ≤ sectionRank SectionKind.types.id,
      l.Loads (vectorSection .types (m.types.map FuncType.encode))
        { l with table := m.table, rank := r } := by
  refine @loads_vector l .types _ typeEntry FuncType.encode m.types
    (fun before => { m with types := before }.table) nofun (fun _ => rfl) rank first
    FuncType.encode_ne_nil small ?_
  intro before x _ hx hsmall
  exact ModuleDesc.recovers_type { m with types := before } (known x hx) hsmall

/-- The import section. -/
private theorem loads_imports (rank : l.rank < sectionRank SectionKind.imports.id)
    (first : l.table = { m with imports := [] }.table) (none : ∀ k, m.ownCount k = 0)
    (valid : ∀ x ∈ m.imports, x.desc.Valid m.types.length)
    (small : (m.imports.map ImportItem.encode).flatten.length < 2 ^ 32) :
    ∃ r ≤ sectionRank SectionKind.imports.id,
      l.Loads (vectorSection .imports (m.imports.map ImportItem.encode))
        { l with table := m.table, rank := r } := by
  refine @loads_vector l .imports _ importEntry ImportItem.encode m.imports
    (fun before => { m with imports := before }.table) nofun (fun _ => rfl) rank first
    ImportItem.encode_ne_nil small ?_
  intro before x hbefore hx hsmall
  exact ModuleDesc.recovers_import { m with imports := before } none (valid x hx) hbefore hsmall

/-- The table section. -/
private theorem loads_tables (rank : l.rank < sectionRank SectionKind.tables.id)
    (first : l.table = { m with tables := [] }.table) (valid : ∀ t ∈ m.tables, t.Valid)
    (small : (m.tables.map TableType.encode).flatten.length < 2 ^ 32) :
    ∃ r ≤ sectionRank SectionKind.tables.id,
      l.Loads (vectorSection .tables (m.tables.map TableType.encode))
        { l with table := m.table, rank := r } := by
  refine @loads_vector l .tables _ tableEntry TableType.encode m.tables
    (fun before => { m with tables := before }.table) nofun (fun _ => rfl) rank first
    TableType.encode_ne_nil small ?_
  intro before x _ hx _
  exact ModuleDesc.recovers_table { m with tables := before } (valid x hx)

/-- The memory section. -/
private theorem loads_memories (rank : l.rank < sectionRank SectionKind.memories.id)
    (first : l.table = { m with memories := [] }.table) (valid : ∀ x ∈ m.memories, x.Valid)
    (small : (m.memories.map Limits.encode).flatten.length < 2 ^ 32) :
    ∃ r ≤ sectionRank SectionKind.memories.id,
      l.Loads (vectorSection .memories (m.memories.map Limits.encode))
        { l with table := m.table, rank := r } := by
  refine @loads_vector l .memories _ memoryEntry Limits.encode m.memories
    (fun before => { m with memories := before }.table) nofun (fun _ => rfl) rank first
    Limits.encode_ne_nil small ?_
  intro before x _ hx _
  exact ModuleDesc.recovers_memory { m with memories := before } (valid x hx)

/-- The global section. -/
private theorem loads_globals (rank : l.rank < sectionRank SectionKind.globals.id)
    (first : l.table = { m with globals := [] }.table)
    (known : ∀ g ∈ m.globals, g.type.type.isKnown = true)
    (small : (m.globals.map GlobalDesc.encode).flatten.length < 2 ^ 32) :
    ∃ r ≤ sectionRank SectionKind.globals.id,
      l.Loads (vectorSection .globals (m.globals.map GlobalDesc.encode))
        { l with table := m.table, rank := r } := by
  refine @loads_vector l .globals _ globalEntry GlobalDesc.encode m.globals
    (fun before => { m with globals := before }.table) nofun (fun _ => rfl) rank first
    GlobalDesc.encode_ne_nil small ?_
  intro before x _ hx _
  exact ModuleDesc.recovers_global { m with globals := before } (known x hx)

/-- The export section. -/
private theorem loads_exports (rank : l.rank < sectionRank SectionKind.exports.id)
    (first : l.table = { m with exports := [] }.table) (few : ∀ k, m.size k < 2 ^ 32)
    (valid : ∀ e ∈ m.exports, e.2.index.toNat < m.size e.2.kind)
    (small : (m.exports.map Export.encode).flatten.length < 2 ^ 32) :
    ∃ r ≤ sectionRank SectionKind.exports.id,
      l.Loads (vectorSection .exports (m.exports.map Export.encode))
        { l with table := m.table, rank := r } := by
  refine @loads_vector l .exports _ exportEntry Export.encode m.exports
    (fun before => { m with exports := before }.table) nofun (fun _ => rfl) rank first
    Export.encode_ne_nil small ?_
  intro before x _ hx hsmall
  exact ModuleDesc.recovers_export { m with exports := before } (valid x hx) (few x.2.kind) hsmall

/-- The start section. -/
private theorem loads_start (rank : l.rank < sectionRank SectionKind.start.id)
    (first : l.table = { m with start := none }.table)
    (valid : ∀ index ∈ m.start, index.toNat < m.size .func) :
    ∃ r ≤ sectionRank SectionKind.start.id,
      l.Loads (numberSection .start m.start) { l with table := m.table, rank := r } := by
  refine @loads_number l .start startEntry m.start (fun start => { m with start }.table) nofun
    (fun _ => rfl) rank first ?_
  intro x hx
  exact ModuleDesc.recovers_start { m with start := none } (valid x hx)

/-- The element section. -/
private theorem loads_elements (rank : l.rank < sectionRank SectionKind.elements.id)
    (first : l.table = { m with elements := [] }.table)
    (valid : ∀ s ∈ m.elements, s.Valid (m.size .func))
    (small : (m.elements.map ElementDesc.encode).flatten.length < 2 ^ 32) :
    ∃ r ≤ sectionRank SectionKind.elements.id,
      l.Loads (vectorSection .elements (m.elements.map ElementDesc.encode))
        { l with table := m.table, rank := r } := by
  refine @loads_vector l .elements _ elementEntry ElementDesc.encode m.elements
    (fun before => { m with elements := before }.table) nofun (fun _ => rfl) rank first
    ElementDesc.encode_ne_nil small ?_
  intro before x _ hx hsmall
  exact ModuleDesc.recovers_elementEntry { m with elements := before } (valid x hx) hsmall

/-- The data count section. -/
private theorem loads_dataCount (rank : l.rank < sectionRank SectionKind.dataCount.id)
    (first : l.table = { m with dataCount := none }.table) :
    ∃ r ≤ sectionRank SectionKind.dataCount.id,
      l.Loads (numberSection .dataCount m.dataCount) { l with table := m.table, rank := r } := by
  refine @loads_number l .dataCount dataCountEntry m.dataCount
    (fun dataCount => { m with dataCount }.table) nofun
    (fun _ => rfl) rank first ?_
  intro x _
  exact ModuleDesc.recovers_dataCount { m with dataCount := none } x

/-- The function section. -/
theorem loads_functions (rank : l.rank < sectionRank SectionKind.functions.id)
    (first : l.table = { m with functions := [] }.table) (declared : l.declared = 0)
    (valid : ∀ f ∈ m.functions, f.typeIndex.toNat < m.types.length)
    (few : m.functions.length < 2 ^ 32) :
    ∃ r ≤ sectionRank SectionKind.functions.id,
      l.Loads (vectorSection .functions (m.functions.map FunctionDesc.encode))
        { l with table := m.table, declared := m.functions.length, rank := r } := by
  let state : List FunctionDesc → ModuleTable := fun before => { m with functions := before }.table
  have hentries : (iterate functionEntry m.functions.length (state [])).Recovers
      (m.functions.map FunctionDesc.encode).flatten (state m.functions) := by
    refine @recovers_iterate _ _ functionEntry FunctionDesc.encode state [] m.functions ?_
    intro before x after heq
    refine ModuleDesc.recovers_function { m with functions := before } (valid x ?_)
    rw [List.nil_append] at heq
    simp [heq]
  by_cases hnil : m.functions = []
  · refine ⟨l.rank, Nat.le_of_lt rank, ?_⟩
    have hsame : m.table = l.table := by
      rw [first, ← hnil]
    rw [hsame, hnil, List.length_nil, ← declared]
    exact loads_nil l
  · rw [vectorSection, if_neg (by simpa using hnil)]
    refine ⟨_, Nat.le_refl _, loads_section nofun rank ?_⟩
    rw [Bytes.vector, List.length_map]
    refine (recovers_count few).bind ?_
    rw [UInt32.toNat_ofNat_of_lt' few]
    refine Recovers.bind_pure ?_ (recovers_pure _)
    show (iterate functionEntry m.functions.length l.table).Recovers _ _
    rw [first]
    exact hentries

/-- The bodies of the functions from `before` on. -/
private theorem recovers_bodies {before items : List FunctionDesc} (htable : l.table = m.table)
    (all : m.functions = before ++ items) (count : l.functions.size = before.length)
    (few : m.size .func < 2 ^ 32) (small : ∀ f ∈ items, f.body.length < 2 ^ 32)
    (lowers : ∀ f ∈ items, m.Lowers f) (off : l.verifier = .off) :
    ∃ functions intrinsics, (iterate bodyEntry items.length l).Recovers
      (items.map fun f => f.body.sized).flatten { l with functions, intrinsics } := by
  induction items generalizing before l with
  | nil => exact ⟨l.functions, l.intrinsics, recovers_pure l⟩
  | cons f items ih =>
    obtain ⟨type, index, func, intrinsics, ⟨g, after⟩, htype, hlower⟩ :=
      lowers f List.mem_cons_self
    -- The body lowers with the intrinsics of the bodies before it, too.
    let body := l.functions.size
    let place := l.table.bodyFunction (.ofNat body)
    obtain ⟨after', hlower'⟩ := Lowering.lowerFunction_independent hlower body place l.intrinsics
    have hfunction : l.table.functionType place = .ok type := by
      simp only [place, body, htable, count]
      exact m.functionType_body all few htype
    have htypes : l.table.types = m.types.toArray := congrArg ModuleTable.types htable
    rw [← htypes] at hlower'
    let next : Loader :=
      { l with functions := l.functions.push { g with body }, intrinsics := after' }
    have hbody : (bodyEntry l).Recovers f.body.sized next := by
      refine (recovers_sized (small f List.mem_cons_self)).bind_pure ?_
      refine (recovers_ofExcept hfunction).bind_nil ?_
      refine (recovers_ofExcept hlower').bind_nil ?_
      have hpass : l.verifier.check { g with body } = .ok () := by
        rw [off]
        rfl
      exact (recovers_ofExcept hpass).bind_nil (recovers_pure next)
    obtain ⟨functions, intrinsics, hrest⟩ := @ih next (before ++ [f]) htable
      (by simp [all]) (by simp [next, count]) (fun x hx => small x (List.mem_cons_of_mem f hx))
      (fun x hx => lowers x (List.mem_cons_of_mem f hx)) off
    exact ⟨functions, intrinsics, hbody.bind hrest⟩

/-- The code section. -/
theorem loads_code (rank : l.rank < sectionRank SectionKind.code.id) (htable : l.table = m.table)
    (declared : l.declared = m.functions.length) (bodies : l.bodies = 0)
    (functions : l.functions = #[]) (few : m.size .func < 2 ^ 32)
    (small : ∀ f ∈ m.functions, f.body.length < 2 ^ 32) (lowers : ∀ f ∈ m.functions, m.Lowers f)
    (off : l.verifier = .off) :
    ∃ r ≤ sectionRank SectionKind.code.id, ∃ functions intrinsics,
      l.Loads (vectorSection .code (m.functions.map fun f => f.body.sized))
        { l with bodies := m.functions.length, functions, intrinsics, rank := r } := by
  have hfew : m.functions.length < 2 ^ 32 := by
    simp only [ModuleDesc.size, ModuleDesc.ownCount] at few
    omega
  by_cases hnil : m.functions = []
  · refine ⟨l.rank, Nat.le_of_lt rank, l.functions, l.intrinsics, ?_⟩
    rw [hnil, List.length_nil, ← bodies]
    exact loads_nil l
  · obtain ⟨functions, intrinsics, h⟩ :=
      @recovers_bodies { l with rank := sectionRank SectionKind.code.id } m [] m.functions htable
        rfl (by simp [functions]) few small lowers off
    refine ⟨_, Nat.le_refl _, functions, intrinsics, ?_⟩
    rw [vectorSection, if_neg (by simpa using hnil)]
    refine loads_section nofun rank ?_
    rw [Bytes.vector, List.length_map]
    refine (recovers_count hfew).bind ?_
    rw [UInt32.toNat_ofNat_of_lt' hfew]
    refine (recovers_check (by simp [declared])).bind_nil ?_
    exact h.bind_pure (recovers_pure _)

/-- The data section. -/
theorem loads_data (rank : l.rank < sectionRank SectionKind.data.id)
    (first : l.table = { m with data := [] }.table)
    (count : ∀ n ∈ m.dataCount, n.toNat = m.data.length) (few : m.data.length < 2 ^ 32)
    (small : ∀ s ∈ m.data, s.encode.length < 2 ^ 32) :
    ∃ r ≤ sectionRank SectionKind.data.id,
      l.Loads (vectorSection .data (m.data.map DataDesc.encode))
        { l with table := m.table, rank := r } := by
  let state : List DataDesc → ModuleTable := fun before => { m with data := before }.table
  have hentries : (iterate dataEntry m.data.length (state [])).Recovers
      (m.data.map DataDesc.encode).flatten (state m.data) := by
    refine @recovers_iterate _ _ dataEntry DataDesc.encode state [] m.data ?_
    intro before x after heq
    refine ModuleDesc.recovers_dataEntry { m with data := before } (small x ?_)
    rw [List.nil_append] at heq
    simp [heq]
  by_cases hnil : m.data = []
  · refine ⟨l.rank, Nat.le_of_lt rank, ?_⟩
    have hsame : m.table = l.table := by
      rw [first, ← hnil]
    rw [hsame, hnil]
    exact loads_nil l
  · rw [vectorSection, if_neg (by simpa using hnil)]
    refine ⟨_, Nat.le_refl _, loads_section nofun rank ?_⟩
    refine Recovers.bind_pure ?_ (recovers_pure _)
    show (dataSection l.table).Recovers _ _
    rw [Bytes.vector, List.length_map, first]
    refine (recovers_count few).bind ?_
    -- The announced count is the number of segments.
    have hcount : m.dataCount.all (· == UInt32.ofNat m.data.length) = true := by
      rw [Option.all_eq_true]
      intro n hn
      rw [beq_iff_eq, ← count n hn, UInt32.ofNat_toNat]
    refine (recovers_check hcount).bind_nil ?_
    rw [UInt32.toNat_ofNat_of_lt' few]
    exact hentries

end Loader

/-! ## Exports of a description -/

/-- Adding an export keeps the names in increasing order. -/
theorem ExportMap.pairwise_insert {map : ExportMap} (name : Bytes) (e : Export)
    (h : (map.map Prod.fst).Pairwise (· < ·)) :
    ((map.insert name e).map Prod.fst).Pairwise (· < ·) := by
  induction map with
  | nil => simp [ExportMap.insert]
  | cons head rest ih =>
    obtain ⟨other, x⟩ := head
    rw [List.map_cons, List.pairwise_cons] at h
    simp only [ExportMap.insert]
    split
    · next heq =>
      rw [List.map_cons, List.pairwise_cons, heq]
      exact h
    · next hne =>
      -- It comes before the first one, or somewhere behind it.
      split
      · next hlt =>
        rw [List.map_cons, List.map_cons, List.pairwise_cons, List.pairwise_cons]
        refine ⟨fun y hy => ?_, h⟩
        obtain rfl | hy := List.mem_cons.1 hy
        · exact hlt
        · exact List.lt_trans hlt (h.1 y hy)
      · next hle =>
        have hlt : other < name :=
          List.not_le.1 fun hge => hne (List.le_antisymm hge (List.not_lt.1 hle))
        rw [List.map_cons, List.pairwise_cons]
        refine ⟨fun y hy => ?_, ih h.2⟩
        obtain ⟨p, hp, rfl⟩ := List.mem_map.1 hy
        obtain rfl | hp := ModuleTable.mem_insert hp
        · exact hlt
        · exact h.1 _ (List.mem_map_of_mem hp)

namespace ModuleDesc

section Exports

variable (m : ModuleDesc)

/-- The names of the exports are in increasing order, so that each name stands once. -/
private theorem pairwise_exports : (m.table.exports.map Prod.fst).Pairwise (· < ·) := by
  have hfold : ∀ (es : List (Bytes × Export)) (map : ExportMap),
      (map.map Prod.fst).Pairwise (· < ·) →
      ((es.foldl (fun map e => map.insert e.1 e.2) map).map Prod.fst).Pairwise (· < ·) := by
    intro es
    induction es with
    | nil => exact fun map h => h
    | cons e es ih => exact fun map h => ih _ (ExportMap.pairwise_insert e.1 e.2 h)
  exact hfold m.exports [] .nil

/-- The last export of a name is the one that is found. -/
private theorem findExport_table (name : Bytes) :
    m.table.findExport name = (m.exports.filter (·.1 = name)).getLast?.map Prod.snd := by
  show (m.exports.foldl (fun map e => ExportMap.insert e.1 e.2 map) []).lookup name = _
  induction m.exports using List.reverseRecOn with
  | nil => rfl
  | append_singleton es e ih =>
    rw [List.foldl_append, List.filter_append]
    by_cases hname : e.1 = name
    · subst hname
      simp [ModuleTable.lookup_insert_self]
    · simp [ModuleTable.lookup_insert_of_ne (Ne.symm hname), ih, hname]

end Exports

/-! ## Sizes -/

section Sizes

/-- The bytes that the entries of a section take. -/
private theorem length_vectorSection (k : SectionKind) (entries : List Bytes) :
    entries.flatten.length ≤ ((vectorSection k entries).map Frame.encode).flatten.length := by
  unfold vectorSection
  split
  · next h => simp [h]
  · have hvector := Bytes.length_flatten_le_vector entries
    have hsized := Bytes.length_sized (Bytes.vector entries)
    simp only [Frame.encode, List.map_cons, List.map_nil, List.flatten_cons, List.flatten_nil,
      List.append_nil, List.length_cons]
    omega

/-- The entries of all sections take no more bytes than the module. -/
private theorem length_encode (m : ModuleDesc) :
    (m.types.map FuncType.encode).flatten.length +
      (m.imports.map ImportItem.encode).flatten.length +
      (m.functions.map FunctionDesc.encode).flatten.length +
      (m.tables.map TableType.encode).flatten.length +
      (m.memories.map Limits.encode).flatten.length +
      (m.globals.map GlobalDesc.encode).flatten.length +
      (m.exports.map Export.encode).flatten.length +
      (m.elements.map ElementDesc.encode).flatten.length +
      (m.functions.map fun f => f.body.sized).flatten.length +
      (m.data.map DataDesc.encode).flatten.length ≤ m.encode.length := by
  have htypes := length_vectorSection .types (m.types.map FuncType.encode)
  have himports := length_vectorSection .imports (m.imports.map ImportItem.encode)
  have hfunctions := length_vectorSection .functions (m.functions.map FunctionDesc.encode)
  have htables := length_vectorSection .tables (m.tables.map TableType.encode)
  have hmemories := length_vectorSection .memories (m.memories.map Limits.encode)
  have hglobals := length_vectorSection .globals (m.globals.map GlobalDesc.encode)
  have hexports := length_vectorSection .exports (m.exports.map Export.encode)
  have helements := length_vectorSection .elements (m.elements.map ElementDesc.encode)
  have hbodies := length_vectorSection .code (m.functions.map fun f => f.body.sized)
  have hdata := length_vectorSection .data (m.data.map DataDesc.encode)
  -- The header and the sections of one number only add bytes.
  simp only [encode, sections, List.map_append, List.flatten_append, List.length_append]
  omega

/-- The size of an index space is at most the number of bytes of its entries. -/
private theorem size_le (m : ModuleDesc) (k : ExternalKind) :
    m.size k ≤ (m.imports.map ImportItem.encode).flatten.length +
      (m.functions.map FunctionDesc.encode).flatten.length +
      (m.tables.map TableType.encode).flatten.length +
      (m.memories.map Limits.encode).flatten.length +
      (m.globals.map GlobalDesc.encode).flatten.length := by
  have himported := ImportItem.length_ofKind_le m.imports k
  have himports := Decoder.length_le_flatten fun x (_ : x ∈ m.imports) => x.encode_ne_nil
  have hfunctions := Decoder.length_le_flatten fun f (_ : f ∈ m.functions) => f.encode_ne_nil
  have htables := Decoder.length_le_flatten fun t (_ : t ∈ m.tables) => t.encode_ne_nil
  have hmemories := Decoder.length_le_flatten fun l (_ : l ∈ m.memories) => l.encode_ne_nil
  have hglobals := Decoder.length_le_flatten fun g (_ : g ∈ m.globals) => g.encode_ne_nil
  unfold size
  cases k <;> simp only [ownCount] <;> omega

end Sizes

/-! ## Compiling -/

/-- The sections of a description take the empty loader to its table. -/
private theorem loads_sections {m : ModuleDesc} (valid : m.Valid)
    (small : m.encode.length < 2 ^ 32) :
    ∃ l : Loader, ({} : Loader).Loads m.sections l ∧ l.table = m.table ∧
      l.bodies = l.declared := by
  have hlength := m.length_encode
  have hfunctions := Decoder.length_le_flatten fun f (_ : f ∈ m.functions) => f.encode_ne_nil
  have hdata := Decoder.length_le_flatten fun s (_ : s ∈ m.data) => s.encode_ne_nil
  -- All entries take a byte each, so their numbers fit into 32 bits.
  have few : ∀ k, m.size k < 2 ^ 32 := by
    intro k
    have := m.size_le k
    omega
  have hbodies : ∀ f ∈ m.functions, f.body.length < 2 ^ 32 := by
    intro f hf
    have hbody := @Decoder.length_le_of_mem _ (fun f : FunctionDesc => f.body.sized) _ _ hf
    have hsized := Bytes.length_sized f.body
    omega
  have hsegments : ∀ s ∈ m.data, s.encode.length < 2 ^ 32 := by
    intro s hs
    have := @Decoder.length_le_of_mem _ DataDesc.encode _ _ hs
    omega
  -- The part of the description that has been read grows by one field with each section.
  let d₁ : ModuleDesc := { types := m.types }
  let d₂ : ModuleDesc := { d₁ with imports := m.imports }
  let d₃ : ModuleDesc := { d₂ with functions := m.functions }
  let d₄ : ModuleDesc := { d₃ with tables := m.tables }
  let d₅ : ModuleDesc := { d₄ with memories := m.memories }
  let d₆ : ModuleDesc := { d₅ with globals := m.globals }
  let d₇ : ModuleDesc := { d₆ with exports := m.exports }
  let d₈ : ModuleDesc := { d₇ with start := m.start }
  let d₉ : ModuleDesc := { d₈ with elements := m.elements }
  let d₁₀ : ModuleDesc := { d₉ with dataCount := m.dataCount }
  obtain ⟨r₁, hr₁, h₁⟩ := @Loader.loads_types {} d₁ (by decide) rfl valid.types
    (show (m.types.map FuncType.encode).flatten.length < 2 ^ 32 by omega)
  obtain ⟨r₂, hr₂, h₂⟩ := @Loader.loads_imports { table := d₁.table, rank := r₁ } d₂
    (Nat.lt_of_le_of_lt hr₁ (by decide)) rfl (fun k => by cases k <;> rfl) valid.imports
    (show (m.imports.map ImportItem.encode).flatten.length < 2 ^ 32 by omega)
  obtain ⟨r₃, hr₃, h₃⟩ := @Loader.loads_functions { table := d₂.table, rank := r₂ } d₃
    (Nat.lt_of_le_of_lt hr₂ (by decide)) rfl rfl valid.functions
    (show m.functions.length < 2 ^ 32 by omega)
  obtain ⟨r₄, hr₄, h₄⟩ := @Loader.loads_tables
    { table := d₃.table, rank := r₃, declared := m.functions.length } d₄
    (Nat.lt_of_le_of_lt hr₃ (by decide)) rfl valid.tables
    (show (m.tables.map TableType.encode).flatten.length < 2 ^ 32 by omega)
  obtain ⟨r₅, hr₅, h₅⟩ := @Loader.loads_memories
    { table := d₄.table, rank := r₄, declared := m.functions.length } d₅
    (Nat.lt_of_le_of_lt hr₄ (by decide)) rfl valid.memories
    (show (m.memories.map Limits.encode).flatten.length < 2 ^ 32 by omega)
  obtain ⟨r₆, hr₆, h₆⟩ := @Loader.loads_globals
    { table := d₅.table, rank := r₅, declared := m.functions.length } d₆
    (Nat.lt_of_le_of_lt hr₅ (by decide)) rfl valid.globals
    (show (m.globals.map GlobalDesc.encode).flatten.length < 2 ^ 32 by omega)
  obtain ⟨r₇, hr₇, h₇⟩ := @Loader.loads_exports
    { table := d₆.table, rank := r₆, declared := m.functions.length } d₇
    (Nat.lt_of_le_of_lt hr₆ (by decide)) rfl few valid.exports
    (show (m.exports.map Export.encode).flatten.length < 2 ^ 32 by omega)
  obtain ⟨r₈, hr₈, h₈⟩ := @Loader.loads_start
    { table := d₇.table, rank := r₇, declared := m.functions.length } d₈
    (Nat.lt_of_le_of_lt hr₇ (by decide)) rfl valid.start
  obtain ⟨r₉, hr₉, h₉⟩ := @Loader.loads_elements
    { table := d₈.table, rank := r₈, declared := m.functions.length } d₉
    (Nat.lt_of_le_of_lt hr₈ (by decide)) rfl valid.elements
    (show (m.elements.map ElementDesc.encode).flatten.length < 2 ^ 32 by omega)
  obtain ⟨r₁₀, hr₁₀, h₁₀⟩ := @Loader.loads_dataCount
    { table := d₉.table, rank := r₉, declared := m.functions.length } d₁₀
    (Nat.lt_of_le_of_lt hr₉ (by decide)) rfl
  obtain ⟨r₁₁, hr₁₁, functions, intrinsics, h₁₁⟩ := @Loader.loads_code
    { table := d₁₀.table, rank := r₁₀, declared := m.functions.length } d₁₀
    (Nat.lt_of_le_of_lt hr₁₀ (by decide)) rfl rfl rfl rfl (few .func) hbodies valid.bodies rfl
  obtain ⟨r₁₂, hr₁₂, h₁₂⟩ := @Loader.loads_data
    { table := d₁₀.table, rank := r₁₁, declared := m.functions.length
      bodies := m.functions.length, functions, intrinsics } m
    (Nat.lt_of_le_of_lt hr₁₁ (by decide)) rfl valid.dataCount (by omega) hsegments
  exact ⟨_, h₁.append (h₂.append (h₃.append (h₄.append (h₅.append (h₆.append (h₇.append
    (h₈.append (h₉.append (h₁₀.append (h₁₁.append h₁₂)))))))))), rfl, rfl⟩

/-- A description that is written and compiled is found in the table of the module: the entries of
    every kind stand in the order of their description, with the imports first, and a name stands
    for the last export that was given it. -/
theorem compile_encode (m : ModuleDesc) (name : Bytes) (valid : m.Valid)
    (small : m.encode.length < 2 ^ 32) :
    ∃ module, (compile name m.encode).outcome = .ok module ∧ module.table = m.table ∧
      (module.table.exports.map Prod.fst).Pairwise (· < ·) ∧
      ∀ exported, module.table.findExport exported =
        (m.exports.filter (·.1 = exported)).getLast?.map Prod.snd := by
  obtain ⟨l, hloads, htable, hbodies⟩ := loads_sections valid small
  -- No section is too large for its size to be written.
  have hframes : Framing.split (m.sections.map Frame.encode).flatten = ⟨m.sections, true⟩ := by
    refine Framing.split_encode fun f hf => ?_
    have hframe := @Decoder.length_le_of_mem _ Frame.encode _ _ hf
    have hsized := Bytes.length_sized f.payload
    simp only [encode, List.length_append] at small
    simp only [Frame.encode, List.length_cons] at hframe
    omega
  have hload : loadModule m.encode = .ok l := by
    have hheader : Decoder.moduleHeader.run m.encode =
        (.ok (), (m.sections.map Frame.encode).flatten) := rfl
    have hall := hloads []
    rw [List.append_nil] at hall
    unfold loadModule
    rw [hheader]
    simp only [hframes, Loader.framing, hall, Loader.frames]
    simp [bind, Except.bind, pure, Except.pure, hbodies]
  let lowered : Ssa.Module := { name, functions := l.functions, intrinsics := l.intrinsics }
  have hcompile : (compile name m.encode).outcome = .ok { table := l.table, lowered } := by
    unfold compile
    rw [hload]
  refine ⟨_, hcompile, htable, ?_, ?_⟩
  · show (l.table.exports.map Prod.fst).Pairwise (· < ·)
    rw [htable]
    exact m.pairwise_exports
  · intro exported
    show l.table.findExport exported = _
    rw [htable]
    exact m.findExport_table exported

/-- A module with imports of every kind, a replaced export, and segments in every encoding. -/
def mixed : ModuleDesc where
  types := [{ params := [.i32], results := [.i32] }, {}]
  imports := [⟨[109], [102], .func 1⟩, ⟨[109], [116], .table { limits := { min := 1 } }⟩,
    ⟨[109], [109], .memory { min := 1, max := some 300 }⟩,
    ⟨[109], [103], .global { type := .f64, mutable := true }⟩]
  functions := [⟨0, [0x00, 0x20, 0x00, 0x0B]⟩]
  tables := [{ element := .externref, limits := { max := some 10 } }]
  memories := [{ min := 1, max := some 1, shared := true }]
  globals := [⟨{ type := .i32 }, .i32Const 0xFFFFFF00⟩, ⟨{ type := .f64 }, .f64Const 1⟩,
    ⟨{ type := .funcref, mutable := true }, .refFunc 0⟩]
  exports := [([102], ⟨.func, 0⟩), ([97], ⟨.global, 3⟩), ([102], ⟨.func, 1⟩)]
  start := some 0
  elements := [⟨.active (.i32Const 0), .functions [0, 1]⟩, ⟨.passive, .functions [1]⟩,
    ⟨.activeIn 1 (.globalGet 0), .functions []⟩, ⟨.declarative, .functions [0]⟩,
    ⟨.active (.i32Const 200), .references .funcref [.refFunc 1]⟩,
    ⟨.passive, .references .externref [.refNull 0x6F]⟩,
    ⟨.activeIn 1 (.i32Const 0), .references .externref [.globalGet 0]⟩,
    ⟨.declarative, .references .funcref []⟩]
  dataCount := some 3
  data := [⟨.active (.i32Const 0), [1, 2]⟩, ⟨.passive, []⟩, ⟨.activeIn 1 (.i64Const 7), [3]⟩]

/-- The table of the example, and the export that takes the name of another one. -/
theorem compile_encode_mixed :
    mixed.Valid ∧ mixed.encode.length < 2 ^ 32 ∧ ∃ module,
      (compile [110] mixed.encode).outcome = .ok module ∧ module.table = mixed.table ∧
      module.table.findExport [102] = some ⟨.func, 1⟩ := by
  -- The only body returns its parameter.
  have bodies : ∀ f ∈ mixed.functions, mixed.Lowers f := by
    intro f hf
    obtain rfl : f = ⟨0, [0x00, 0x20, 0x00, 0x0B]⟩ := by simpa [mixed] using hf
    obtain ⟨result, hresult⟩ := @exists_ok_of_isSome _ (Lowering.lowerFunction
      mixed.types.toArray 0 0 { params := [.i32], results := [.i32] } {} [0x00, 0x20, 0x00, 0x0B])
      (by decide +kernel)
    exact ⟨_, 0, 0, {}, result, rfl, hresult⟩
  have valid : mixed.Valid := {
    types := by decide
    imports := by decide +kernel
    functions := by decide
    tables := by decide +kernel
    memories := by decide +kernel
    globals := by decide
    exports := by decide
    start := by
      intro index h
      obtain rfl := Option.some.inj h
      decide
    elements := by decide +kernel
    dataCount := by
      intro count h
      obtain rfl := Option.some.inj h
      decide
    bodies }
  have small : mixed.encode.length < 2 ^ 32 := by decide +kernel
  obtain ⟨module, hmodule, htable, -, hexports⟩ := compile_encode mixed [110] valid small
  exact ⟨valid, small, module, hmodule, htable, (hexports [102]).trans (by decide)⟩

end ModuleDesc

end WasmLowering
