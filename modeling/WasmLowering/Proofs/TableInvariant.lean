import WasmLowering.Proofs.Outcome
import WasmLowering.Module.Table

/-!
# The invariant of the module table

A module table is built in place by edits, each of which is accepted or refused. `edit_isOk_iff`
says which edits are accepted, and `perform_error` that a refused one has written nothing: every
check of an edit stands before its first write. The accepted edits are the log of the table, and
every part of the table can be read off it: an index space has the imports of its kind first and
then the entries of the module itself, and the export of a name is the one that was added last. What
was checked when an entry was added still holds after all later edits, since no edit removes a type
or an entry.
-/

namespace WasmLowering

/-- An edit of a module table. -/
inductive TableEdit where
  | addType (type : FuncType)
  | addImport (module name : Bytes) (desc : ImportDesc)
  | addFunction (typeIndex : UInt32)
  | addTable (type : TableType)
  | addMemory (limits : Limits)
  | addGlobal (type : GlobalType) (init : ConstExpr)
  | addExport (name : Bytes) (code : UInt8) (index : UInt32)
  | addElement (segment : ElementSegment)
  | addData (segment : DataSegment)
  | setStart (index : UInt32)
  | setDataCount (count : UInt32)
  | setFunctionName (index : UInt32) (name : Bytes)

/-- An entry of an index space, without the debug name of a function. -/
inductive IndexEntry where
  | func (typeIndex : UInt32)
  | table (type : TableType)
  | memory (limits : Limits)
  | global (type : GlobalType) (init : ConstExpr)
  deriving DecidableEq

/-- The entry that an import adds to the index space of its kind. -/
def ImportDesc.entry : ImportDesc → IndexEntry
  | func typeIndex => .func typeIndex
  | table type => .table type
  | memory limits => .memory limits
  | global type => .global type .absent

/-- An entry refers to one of the types, and it is no memory with 64-bit addresses. -/
def IndexEntry.Valid (types : Nat) : IndexEntry → Prop
  | func typeIndex => typeIndex.toNat < types
  | memory limits => limits.is64 = false
  | table _ | global .. => True

/-- An entry that is valid with some types is valid with more of them. -/
theorem IndexEntry.Valid.mono {x : IndexEntry} {m n : Nat} (hx : x.Valid m) (h : m ≤ n) :
    x.Valid n := by
  cases x with
  | func typeIndex => exact Nat.lt_of_lt_of_le hx h
  | memory limits => exact hx
  | table type => trivial
  | global type init => trivial

namespace TableEdit

/-- The imports of a kind that an edit adds. -/
def imports (k : ExternalKind) : TableEdit → List (Bytes × Bytes × ImportDesc)
  | addImport module name desc => if desc.kind = k then [(module, name, desc)] else []
  | _ => []

/-- The entries of a kind that an edit adds for the module itself. -/
def own (k : ExternalKind) : TableEdit → List IndexEntry
  | addFunction typeIndex => if k = .func then [.func typeIndex] else []
  | addTable type => if k = .table then [.table type] else []
  | addMemory limits => if k = .memory then [.memory limits] else []
  | addGlobal type init => if k = .global then [.global type init] else []
  | _ => []

/-- The exports of a name that an edit adds. -/
def exports (name : Bytes) : TableEdit → List Export
  | addExport other code index =>
    if other = name then (ExternalKind.ofCode? code).toList.map ({ kind := ·, index }) else []
  | _ => []

/-- The exports after an edit. -/
def exported (e : TableEdit) (m : ExportMap) : ExportMap :=
  match e with
  | addExport name code index =>
    match ExternalKind.ofCode? code with
    | some kind => m.insert name { kind, index }
    | none => m
  | _ => m

/-- The start function after an edit. -/
def started (e : TableEdit) (start : Option UInt32) : Option UInt32 :=
  match e with
  | setStart index => some index
  | _ => start

/-- Makes an edit in place. -/
def perform : TableEdit → TableBuilder Unit
  | addType type => modify (·.addType type)
  | addImport module name desc => .addImport module name desc
  | addFunction typeIndex => .addFunction typeIndex
  | addTable type => modify (·.addTable type)
  | addMemory limits => .addMemory limits
  | addGlobal type init => modify (·.addGlobal type init)
  | addExport name code index => .addExport name code index
  | addElement segment => modify (·.addElement segment)
  | addData segment => modify (·.addData segment)
  | setStart index => .setStart index
  | setDataCount count => modify (·.setDataCount count)
  | setFunctionName index name => .setFunctionName index name

end TableEdit

/-! ## Single operations -/

namespace TableBuilder

variable {t u : ModuleTable} {fault : Fault}

/-- A test leaves the table as it is, passed or not. -/
private theorem run_test (condition : ModuleTable → Bool) (t : ModuleTable) :
    (test condition).run t = if condition t then .ok () t else .error .malformed t := by
  simp only [test, EStateM.run_bind, EStateM.run_get]
  split <;> rfl

/-- An operation that begins with a test is refused by it, or goes on with the same table. -/
private theorem run_test_bind (condition : ModuleTable → Bool) (c : TableBuilder Unit)
    (t : ModuleTable) : (test condition >>= fun _ => c).run t =
      if condition t then c.run t else .error .malformed t := by
  rw [EStateM.run_bind, run_test]
  by_cases h : condition t
  · rw [if_pos h, if_pos h]
  · rw [if_neg h, if_neg h]

private theorem run_modify_ne_error {f : ModuleTable → ModuleTable} :
    (modify f : TableBuilder Unit).run t ≠ .error fault u :=
  fun h => by cases h

/-- A test and a write: the table is written only if the test was passed. -/
theorem eq_of_test_modify {condition : ModuleTable → Bool} {f : ModuleTable → ModuleTable}
    (h : (test condition >>= fun _ => modify f : TableBuilder Unit).run t = .error fault u) :
    u = t := by
  rw [run_test_bind] at h
  split at h
  · exact absurd h run_modify_ne_error
  · exact (EStateM.Result.error.inj h).2.symm

private theorem addFunction_error {typeIndex : UInt32}
    (h : (addFunction typeIndex).run t = .error fault u) : u = t :=
  eq_of_test_modify h

private theorem pushMemory_error {refusal : Cause} {limits : Limits}
    (h : (pushMemory refusal limits).run t = .error fault u) : u = t := by
  unfold pushMemory at h
  split at h
  · exact (EStateM.Result.error.inj h).2.symm
  · exact absurd h run_modify_ne_error

private theorem addImported_error {desc : ImportDesc}
    (h : (addImported desc).run t = .error fault u) :
    u = t := by
  cases desc with
  | func typeIndex => exact addFunction_error h
  | memory limits => exact pushMemory_error h
  | table type => exact absurd h run_modify_ne_error
  | global type => exact absurd h run_modify_ne_error

/-- An import is refused by its own test or by that of its entry, and the imports of its kind are
    written after both. -/
private theorem addImport_error {module name : Bytes} {desc : ImportDesc}
    (h : (addImport module name desc).run t = .error fault u) : u = t := by
  unfold addImport at h
  rw [run_test_bind] at h
  split at h
  · rw [EStateM.run_bind, EStateM.run_get] at h
    simp only [EStateM.run_bind] at h
    -- The entry is added after the test, and the import after the entry.
    split at h
    · exact absurd h run_modify_ne_error
    · next entry =>
      obtain ⟨rfl, rfl⟩ := EStateM.Result.error.inj h
      exact addImported_error entry
  · exact (EStateM.Result.error.inj h).2.symm

/-- A refused export has not been added. -/
private theorem addExport_error {name : Bytes} {code : UInt8} {index : UInt32}
    (h : (addExport name code index).run t = .error fault u) : u = t := by
  unfold addExport at h
  rw [run_test_bind] at h
  split at h
  -- The kind is looked up once more, after the test.
  · split at h
    · exact (EStateM.Result.error.inj h).2.symm
    · exact absurd h run_modify_ne_error
  · exact (EStateM.Result.error.inj h).2.symm

end TableBuilder

/-- A refused edit leaves the table as it was. -/
theorem TableEdit.perform_error {t u : ModuleTable} {e : TableEdit} {fault : Fault}
    (h : e.perform.run t = .error fault u) : u = t := by
  cases e with
  | addImport module name desc => exact TableBuilder.addImport_error h
  | addFunction typeIndex => exact TableBuilder.addFunction_error h
  | addMemory limits => exact TableBuilder.pushMemory_error h
  | addExport name code index => exact TableBuilder.addExport_error h
  | setStart index => exact TableBuilder.eq_of_test_modify h
  | setFunctionName index name => exact TableBuilder.eq_of_test_modify h
  | _ => exact absurd h TableBuilder.run_modify_ne_error

namespace ModuleTable

/-- The index space of a kind. -/
def entries (t : ModuleTable) : ExternalKind → List IndexEntry
  | .func => t.functions.toList.map fun f => .func f.typeIndex
  | .table => t.tables.toList.map .table
  | .memory => t.memories.toList.map .memory
  | .global => t.globals.toList.map fun g => .global g.type g.init

/-- The table after an edit that is accepted. -/
def edit (t : ModuleTable) (e : TableEdit) : Except Fault ModuleTable :=
  t.built e.perform

/-- The condition under which an edit is accepted. -/
def Permits (t : ModuleTable) : TableEdit → Prop
  | .addImport _ _ desc =>
    (t.entries desc.kind).length = (t.imports.get desc.kind).size ∧ desc.entry.Valid t.types.size
  | .addFunction typeIndex => typeIndex.toNat < t.types.size
  | .addMemory limits => limits.is64 = false
  | .addExport _ code index =>
    ∃ kind, ExternalKind.ofCode? code = some kind ∧ index.toNat < (t.entries kind).length
  | .setStart index | .setFunctionName index _ => index.toNat < (t.entries .func).length
  | _ => True

/-- The indices of every kind fit into 32 bits. -/
def Small (t : ModuleTable) : Prop :=
  ∀ k, (t.entries k).length < 2 ^ 32

/-- A count of 32 bits is exact in a table that is small enough. -/
theorem toNat_count (t : ModuleTable) (k : ExternalKind) (small : t.Small) :
    (t.count k).toNat = (t.entries k).length := by
  have := small k
  cases k <;> simp_all [count, entries]

/-! ## Accepted edits -/

/-- What is built is what an operation without a fault leaves. -/
theorem built_eq_ok {t u : ModuleTable} {c : TableBuilder Unit} :
    t.built c = .ok u ↔ c.run t = .ok () u := by
  unfold built
  split <;> simp_all

/-- What an operation with a test gives. -/
theorem built_test (t : ModuleTable) (condition : ModuleTable → Bool) (c : TableBuilder Unit) :
    t.built (TableBuilder.test condition >>= fun _ => c) =
      if condition t then t.built c else .error .malformed := by
  unfold built
  rw [TableBuilder.run_test_bind]
  by_cases h : condition t
  · rw [if_pos h, if_pos h]
  · rw [if_neg h, if_neg h]

private theorem built_test_eq_ok {t u : ModuleTable} {condition : ModuleTable → Bool}
    {c : TableBuilder Unit} :
    t.built (TableBuilder.test condition >>= fun _ => c) = .ok u ↔
      condition t = true ∧ t.built c = .ok u := by
  rw [built_test]
  split <;> simp_all

theorem built_modify (t : ModuleTable) (f : ModuleTable → ModuleTable) :
    t.built (modify f) = .ok (f t) := rfl

theorem addFunction_eq_ok {t u : ModuleTable} {typeIndex : UInt32} :
    t.built (.addFunction typeIndex) = .ok u ↔
      typeIndex.toNat < t.types.size ∧
        u = { t with functions := t.functions.push { typeIndex } } := by
  rw [TableBuilder.addFunction, built_test_eq_ok]
  simp [built_modify, eq_comm (b := u)]

/-- A memory is added if its addresses have 32 bits. -/
theorem pushMemory_eq_ok {t u : ModuleTable} {refusal : Cause} {limits : Limits} :
    t.built (.pushMemory refusal limits) = .ok u ↔
      limits.is64 = false ∧ u = { t with memories := t.memories.push limits } := by
  cases h : limits.is64 with
  | false => simp [TableBuilder.pushMemory, h, built_modify, eq_comm (b := u)]
  | true => simp [TableBuilder.pushMemory, h, built]

/-- Adds an import to the imports of a kind. -/
def withImport (t : ModuleTable) (k : ExternalKind) (x : Import) : ModuleTable :=
  { t with imports := t.imports.set k ((t.imports.get k).push x) }

/-- An import that passes its test is added after its entry, with the number of entries before. -/
theorem built_addImport (t : ModuleTable) (module name : Bytes) (desc : ImportDesc) :
    t.built (.addImport module name desc) =
      if (t.count desc.kind).toNat == (t.imports.get desc.kind).size then
        (·.withImport desc.kind { module, name, index := t.count desc.kind }) <$>
          t.built (.addImported desc)
      else .error .malformed := by
  rw [TableBuilder.addImport, built_test]
  simp only [built, EStateM.run_bind, EStateM.run_get]
  cases (TableBuilder.addImported desc).run t <;> rfl

/-- An import is added if there are only imports of its kind so far, and its entry can be added. -/
theorem addImport_eq_ok {t u : ModuleTable} {module name : Bytes} {desc : ImportDesc} :
    t.built (.addImport module name desc) = .ok u ↔
      (t.count desc.kind).toNat = (t.imports.get desc.kind).size ∧
      ∃ v, t.built (.addImported desc) = .ok v ∧
        u = v.withImport desc.kind { module, name, index := t.count desc.kind } := by
  rw [built_addImport]
  by_cases h : (t.count desc.kind).toNat = (t.imports.get desc.kind).size
  · cases t.built (.addImported desc) <;> simp [h, eq_comm (b := u)]
  · simp [h]

/-- An export is added if its kind is known and its index exists. -/
theorem addExport_eq_ok {t u : ModuleTable} {name : Bytes} {code : UInt8} {index : UInt32} :
    t.built (.addExport name code index) = .ok u ↔
      ∃ kind, ExternalKind.ofCode? code = some kind ∧ index < t.count kind ∧
        u = { t with exports := t.exports.insert name { kind, index } } := by
  rw [TableBuilder.addExport, built_test_eq_ok]
  cases h : ExternalKind.ofCode? code with
  | none => simp [countOfCode, h]
  | some kind => simp [countOfCode, h, built_modify, eq_comm (b := u)]

theorem setStart_eq_ok {t u : ModuleTable} {index : UInt32} :
    t.built (.setStart index) = .ok u ↔
      index.toNat < t.functions.size ∧ u = { t with start := some index } := by
  rw [TableBuilder.setStart, built_test_eq_ok]
  simp [built_modify, eq_comm (b := u)]

theorem setFunctionName_eq_ok {t u : ModuleTable} {index : UInt32} {name : Bytes} :
    t.built (.setFunctionName index name) = .ok u ↔
      index.toNat < t.functions.size ∧
        u = { t with functions := t.functions.modify index.toNat fun f => { f with name } } := by
  rw [TableBuilder.setFunctionName, built_test_eq_ok]
  simp [built_modify, eq_comm (b := u)]

/-- The entry of an import is added if it is valid. -/
theorem addImported_isOk_iff (t : ModuleTable) (desc : ImportDesc) :
    (∃ u, t.built (.addImported desc) = .ok u) ↔ desc.entry.Valid t.types.size := by
  cases desc with
  | func typeIndex =>
    simp [TableBuilder.addImported, addFunction_eq_ok, ImportDesc.entry, IndexEntry.Valid]
  | memory limits =>
    simp [TableBuilder.addImported, pushMemory_eq_ok, ImportDesc.entry, IndexEntry.Valid]
  | table type => simp [TableBuilder.addImported, built, ImportDesc.entry, IndexEntry.Valid]
  | global type => simp [TableBuilder.addImported, built, ImportDesc.entry, IndexEntry.Valid]

/-- The edits that are accepted. -/
theorem edit_isOk_iff (t : ModuleTable) (small : t.Small) (e : TableEdit) :
    (∃ u, t.edit e = .ok u) ↔ t.Permits e := by
  cases e with
  | addImport module name desc =>
    have imported := addImported_isOk_iff t desc
    simp only [edit, TableEdit.perform, addImport_eq_ok, Permits, toNat_count t _ small, ← imported]
    simp
  | addFunction typeIndex => simp [edit, TableEdit.perform, addFunction_eq_ok, Permits]
  | addMemory limits =>
    simp [edit, TableEdit.perform, TableBuilder.addMemory, pushMemory_eq_ok, Permits]
  | addExport name code index =>
    simp [edit, TableEdit.perform, addExport_eq_ok, Permits, UInt32.lt_iff_toNat_lt,
      toNat_count t _ small]
  | setStart index => simp [edit, TableEdit.perform, setStart_eq_ok, Permits, entries]
  | setFunctionName index name =>
    simp [edit, TableEdit.perform, setFunctionName_eq_ok, Permits, entries]
  | _ => simp [edit, TableEdit.perform, built, Permits]

/-! ## What an edit changes -/

@[simp] theorem entries_modify_name (t : ModuleTable) (i : Nat) (name : Bytes) (k : ExternalKind) :
    entries { t with functions := t.functions.modify i fun f => { f with name } } k =
      t.entries k := by
  cases k with
  | func =>
    simp only [entries, Array.toList_modify]
    apply List.ext_getElem? fun j => ?_
    simp only [List.getElem?_map, List.getElem?_modify]
    cases t.functions.toList[j]? <;> simp
    split <;> rfl
  | table => rfl
  | memory => rfl
  | global => rfl

/-- An import adds its entry to the index space of its kind, and no other part changes. -/
theorem addImported_effect {t u : ModuleTable} {desc : ImportDesc}
    (h : t.built (.addImported desc) = .ok u) :
    (∀ k, u.entries k = t.entries k ++ if desc.kind = k then [desc.entry] else []) ∧
      u.types = t.types ∧ u.imports = t.imports ∧ u.exports = t.exports ∧ u.start = t.start := by
  cases desc with
  | func typeIndex =>
    obtain ⟨-, rfl⟩ := addFunction_eq_ok.1 h
    exact ⟨by rintro (_ | _) <;> simp [entries, ImportDesc.kind, ImportDesc.entry], by simp⟩
  | table type =>
    obtain rfl := Except.ok.inj h
    exact ⟨by rintro (_ | _) <;> simp [entries, addTable, ImportDesc.kind, ImportDesc.entry],
      by simp [addTable]⟩
  | memory limits =>
    obtain ⟨-, rfl⟩ := pushMemory_eq_ok.1 h
    exact ⟨by rintro (_ | _) <;> simp [entries, ImportDesc.kind, ImportDesc.entry], by simp⟩
  | global type =>
    obtain rfl := Except.ok.inj h
    exact ⟨by rintro (_ | _) <;> simp [entries, addGlobal, ImportDesc.kind, ImportDesc.entry],
      by simp [addGlobal]⟩

/-- What an accepted edit changes: index spaces and imports grow at their ends, and at most one
    export and the start function are replaced. -/
structure Effect (t : ModuleTable) (e : TableEdit) (u : ModuleTable) : Prop where
  types : t.types.size ≤ u.types.size
  entries : ∀ k, u.entries k = t.entries k ++ (e.imports k).map (·.2.2.entry) ++ e.own k
  imports : ∀ k, (u.imports.get k).toList = (t.imports.get k).toList ++
    (e.imports k).map fun (module, name, _) => { module, name, index := t.count k }
  exports : u.exports = e.exported t.exports
  start : u.start = e.started t.start

/-- The effect of an import, on the index space and on the imports of its kind. -/
private theorem addImport_effect {t u : ModuleTable} {module name : Bytes} {desc : ImportDesc}
    (h : t.built (.addImport module name desc) = .ok u) :
    Effect t (.addImport module name desc) u := by
  obtain ⟨-, v, hv, rfl⟩ := addImport_eq_ok.1 h
  obtain ⟨entries_eq, types_eq, imports_eq, exports_eq, start_eq⟩ := addImported_effect hv
  refine ⟨by simp [withImport, types_eq], fun k => ?_, fun k => ?_, exports_eq, start_eq⟩
  · -- The import list is no part of an index space.
    have same : ∀ x, (v.withImport desc.kind x).entries k = v.entries k := by
      cases k <;> simp [ModuleTable.entries, withImport]
    simp only [same, entries_eq, TableEdit.imports, TableEdit.own, List.append_nil]
    split <;> rfl
  · simp only [withImport, imports_eq, PerKind.get_set, TableEdit.imports, eq_comm (a := k)]
    by_cases hk : desc.kind = k
    · subst hk; simp
    · simp [hk]

private theorem effect_of_own {t u : ModuleTable} {e : TableEdit} (none : ∀ k, e.imports k = [])
    (types : t.types.size ≤ u.types.size) (entries : ∀ k, u.entries k = t.entries k ++ e.own k)
    (imports : u.imports = t.imports) (exports : u.exports = e.exported t.exports)
    (start : u.start = e.started t.start) : Effect t e u :=
  ⟨types, fun k => by simp [none, entries], fun k => by simp [none, imports], exports, start⟩

/-- Every accepted edit has its effect. -/
theorem edit_effect {t u : ModuleTable} {e : TableEdit} (h : t.edit e = .ok u) : Effect t e u := by
  -- Only an import adds imports; the others add entries of the module itself, or none.
  cases e with
  | addImport module name desc => exact addImport_effect h
  | addFunction typeIndex =>
    obtain ⟨-, rfl⟩ := addFunction_eq_ok.1 h
    refine effect_of_own (fun _ => rfl) (by simp) (fun k => ?_) rfl rfl rfl
    cases k <;> simp [ModuleTable.entries, TableEdit.own]
  | addMemory limits =>
    obtain ⟨-, rfl⟩ := pushMemory_eq_ok.1 h
    refine effect_of_own (fun _ => rfl) (by simp) (fun k => ?_) rfl rfl rfl
    cases k <;> simp [ModuleTable.entries, TableEdit.own]
  | addExport name code index =>
    obtain ⟨kind, hk, -, rfl⟩ := addExport_eq_ok.1 h
    refine effect_of_own (fun _ => rfl) (by simp) (fun k => ?_) rfl
      (by simp [TableEdit.exported, hk]) rfl
    cases k <;> simp [ModuleTable.entries, TableEdit.own]
  | setStart index =>
    obtain ⟨-, rfl⟩ := setStart_eq_ok.1 h
    refine effect_of_own (fun _ => rfl) (by simp) (fun k => ?_) rfl rfl rfl
    cases k <;> simp [ModuleTable.entries, TableEdit.own]
  | setFunctionName index name =>
    obtain ⟨-, rfl⟩ := setFunctionName_eq_ok.1 h
    exact effect_of_own (fun _ => rfl) (by simp) (fun k => by simp [TableEdit.own]) rfl rfl rfl
  | addType | addTable | addGlobal | addElement | addData | setDataCount =>
    obtain rfl := Except.ok.inj h
    refine effect_of_own (fun _ => rfl) ?_ (fun k => ?_) rfl rfl rfl
    · simp [addType, addTable, addGlobal, addElement, addData, setDataCount]
    · cases k <;> simp [ModuleTable.entries, TableEdit.own, addType, addTable, addGlobal,
        addElement, addData, setDataCount]

/-! ## Runs -/

/-- The table after an edit, as the edit has left it: it may have been refused. -/
def attempt (t : ModuleTable) (e : TableEdit) : ModuleTable :=
  match e.perform.run t with
  | .ok _ u => u
  | .error _ u => u

/-- The table after a run of edits that may be refused. -/
def attempts (t : ModuleTable) (edits : List TableEdit) : ModuleTable :=
  edits.foldl attempt t

/-- The edits of a run that are accepted. -/
def accepted (t : ModuleTable) : List TableEdit → List TableEdit
  | [] => []
  | e :: rest =>
    match e.perform.run t with
    | .ok _ u => e :: accepted u rest
    | .error _ u => accepted u rest

/-- An accepted edit gives the next table, and a refused one the same. -/
private theorem attempt_eq (t : ModuleTable) (e : TableEdit) :
    t.edit e = .ok (t.attempt e) ∨ (∃ fault, t.edit e = .error fault) ∧ t.attempt e = t := by
  unfold edit built attempt
  cases h : e.perform.run t with
  | ok _ u => exact .inl rfl
  | error fault u => exact .inr ⟨⟨fault, rfl⟩, TableEdit.perform_error h⟩

/-- The first edit of a run is among the accepted ones if it is accepted. -/
private theorem accepted_cons (t : ModuleTable) (e : TableEdit) (rest : List TableEdit) :
    t.accepted (e :: rest) =
      if (t.edit e).isOk then e :: (t.attempt e).accepted rest
      else (t.attempt e).accepted rest := by
  unfold edit built attempt
  rw [accepted]
  cases e.perform.run t <;> rfl

private theorem attempts_snoc (t : ModuleTable) (edits : List TableEdit) (e : TableEdit) :
    t.attempts (edits ++ [e]) = (t.attempts edits).attempt e := by
  simp [attempts]

/-- The last edit of a run is accepted or not. -/
private theorem accepted_snoc (t : ModuleTable) (edits : List TableEdit) (e : TableEdit) :
    t.accepted (edits ++ [e]) =
      t.accepted edits ++ if ((t.attempts edits).edit e).isOk then [e] else [] := by
  induction edits generalizing t with
  | nil =>
    rw [List.nil_append, accepted_cons]
    rfl
  | cons d rest ih =>
    have hrest : t.attempts (d :: rest) = (t.attempt d).attempts rest := rfl
    rw [List.cons_append, accepted_cons, accepted_cons, ih, hrest]
    split <;> rfl

/-! ## Exports -/

/-- The export of a name is the one that was inserted. -/
theorem lookup_insert_self (name : Bytes) (x : Export) (m : ExportMap) :
    (ExportMap.insert name x m).lookup name = some x := by
  induction m with
  | nil => simp [ExportMap.insert]
  | cons head rest ih =>
    obtain ⟨other, y⟩ := head
    simp only [ExportMap.insert]
    -- The name is found, or the export goes before a larger name or further on.
    split
    · simp
    · split
      · simp
      · have : (name == other) = false := by simpa using ‹¬name = other›
        simp [List.lookup_cons, this, ih]

/-- The exports of other names stay. -/
theorem lookup_insert_of_ne {name other : Bytes} (h : other ≠ name) (x : Export) (m : ExportMap) :
    (ExportMap.insert name x m).lookup other = List.lookup other m := by
  have hne : (other == name) = false := by simpa using h
  induction m with
  | nil => simp [ExportMap.insert, List.lookup_cons, hne]
  | cons head rest ih =>
    obtain ⟨first, y⟩ := head
    simp only [ExportMap.insert]
    split
    · next heq => simp [List.lookup_cons, ← heq, hne]
    · split <;> simp [List.lookup_cons, hne, ih]

/-- What is in the map after an insertion was there before or is new. -/
theorem mem_insert {name : Bytes} {x : Export} {m : ExportMap} {p : Bytes × Export}
    (h : p ∈ ExportMap.insert name x m) : p = (name, x) ∨ p ∈ m := by
  induction m with
  | nil => simpa [ExportMap.insert] using h
  | cons head rest ih =>
    obtain ⟨first, y⟩ := head
    simp only [ExportMap.insert] at h
    split at h <;> grind

/-! ## The invariant -/

/-- The table holds what the log of accepted edits says, and every reference in it is to an entry
    that exists. -/
structure Recorded (t : ModuleTable) (log : List TableEdit) : Prop where
  /-- Functions have types, and no memory has 64-bit addresses. -/
  valid : ∀ k, ∀ x ∈ t.entries k, x.Valid t.types.size
  /-- Imports come first in every index space. -/
  entries : ∀ k, t.entries k =
    (log.flatMap (·.imports k)).map (·.2.2.entry) ++ log.flatMap (·.own k)
  /-- The imports of a kind are numbered from zero. -/
  imports : ∀ k, (t.imports.get k).toList = (log.flatMap (·.imports k)).mapIdx
    fun i (module, name, _) => { module, name, index := .ofNat i }
  exports : ∀ name x, (name, x) ∈ t.exports → x.index.toNat < (t.entries x.kind).length
  /-- The last export of a name is the one that is found. -/
  found : ∀ name, t.findExport name = (log.flatMap (·.exports name)).getLast?
  start : ∀ index, t.start = some index → index.toNat < (t.entries .func).length

/-- An empty table has an empty log. -/
theorem recorded_empty : Recorded {} [] where
  valid k x hx := by cases k <;> simp [ModuleTable.entries] at hx
  entries k := by cases k <;> rfl
  imports k := by cases k <;> rfl
  exports name x hx := by simp at hx
  found name := rfl
  start index h := by simp at h

/-- An index space does not shrink. -/
theorem Effect.length_le {t u : ModuleTable} {e : TableEdit} (effect : Effect t e u)
    (k : ExternalKind) : (t.entries k).length ≤ (u.entries k).length := by
  rw [effect.entries k]
  simp only [List.length_append]
  omega

theorem Effect.small {t u : ModuleTable} {e : TableEdit} (effect : Effect t e u) (small : u.Small) :
    t.Small :=
  fun k => Nat.lt_of_le_of_lt (effect.length_le k) (small k)

/-- The entries that a permitted edit adds are valid. -/
theorem Permits.valid {t : ModuleTable} {e : TableEdit} (permits : t.Permits e) {k : ExternalKind}
    {x : IndexEntry} (hx : x ∈ (e.imports k).map (·.2.2.entry) ++ e.own k) :
    x.Valid t.types.size := by
  cases e with
  | addImport module name desc =>
    simp only [TableEdit.imports, TableEdit.own, List.append_nil] at hx
    -- An import is an entry of one index space only.
    split at hx
    · obtain rfl : x = desc.entry := by simpa using hx
      exact permits.2
    · simp at hx
  | addFunction typeIndex =>
    obtain ⟨-, rfl⟩ : k = .func ∧ x = .func typeIndex := by
      simpa [TableEdit.imports, TableEdit.own] using hx
    exact permits
  | addMemory limits =>
    obtain ⟨-, rfl⟩ : k = .memory ∧ x = .memory limits := by
      simpa [TableEdit.imports, TableEdit.own] using hx
    exact permits
  | addTable type =>
    obtain ⟨-, rfl⟩ : k = .table ∧ x = .table type := by
      simpa [TableEdit.imports, TableEdit.own] using hx
    trivial
  | addGlobal type init =>
    obtain ⟨-, rfl⟩ : k = .global ∧ x = .global type init := by
      simpa [TableEdit.imports, TableEdit.own] using hx
    trivial
  | _ => simp [TableEdit.imports, TableEdit.own] at hx

/-- A permitted import of a kind stands behind imports only. -/
theorem Permits.only_imports {t : ModuleTable} {e : TableEdit} {k : ExternalKind}
    (permits : t.Permits e) (h : e.imports k ≠ []) :
    (t.entries k).length = (t.imports.get k).size := by
  cases e with
  | addImport module name desc =>
    obtain rfl : desc.kind = k := by
      by_contra hne
      simp [TableEdit.imports, hne] at h
    exact permits.1
  | _ => simp [TableEdit.imports] at h

theorem count_eq (t : ModuleTable) (k : ExternalKind) :
    t.count k = .ofNat (t.entries k).length := by
  cases k <;> simp [count, ModuleTable.entries]

/-- An edit that imports imports one entry. -/
private theorem imports_eq_or (e : TableEdit) (k : ExternalKind) :
    e.imports k = [] ∨ e.own k = [] ∧ ∃ x, e.imports k = [x] := by
  cases e with
  | addImport module name desc =>
    by_cases h : desc.kind = k <;> simp [TableEdit.imports, TableEdit.own, h]
  | _ => simp [TableEdit.imports]

/-- An export was there before, or it is to an entry that exists. -/
private theorem exports_exported {e : TableEdit} {t : ModuleTable} (permits : t.Permits e)
    {name : Bytes} {x : Export} (h : (name, x) ∈ e.exported t.exports) :
    (name, x) ∈ t.exports ∨ x.index.toNat < (t.entries x.kind).length := by
  cases e with
  | addExport other code index =>
    obtain ⟨kind, hk, hindex⟩ := permits
    simp only [TableEdit.exported, hk] at h
    obtain heq | hmem := mem_insert h
    · obtain ⟨rfl, rfl⟩ := Prod.mk.inj heq
      exact .inr hindex
    · exact .inl hmem
  | _ => exact .inl h

/-- The export of a name after an edit is the one that the edit adds, if it adds one. -/
theorem lookup_exported (e : TableEdit) (m : ExportMap) (name : Bytes) :
    (e.exported m).lookup name = ((e.exports name).getLast?).or (m.lookup name) := by
  cases e with
  | addExport other code index =>
    simp only [TableEdit.exported, TableEdit.exports]
    cases ExternalKind.ofCode? code with
    -- An edit of an unknown kind exports nothing.
    | none => simp
    | some kind =>
      by_cases h : other = name
      · subst h
        simp [lookup_insert_self]
      · simp [lookup_insert_of_ne (Ne.symm h), h]
  | _ => simp [TableEdit.exported, TableEdit.exports]

/-- An accepted edit keeps the invariant. -/
theorem Recorded.edit {t u : ModuleTable} {log : List TableEdit} {e : TableEdit}
    (recorded : t.Recorded log) (small : u.Small) (h : t.edit e = .ok u) :
    u.Recorded (log ++ [e]) := by
  have effect := edit_effect h
  have permits := (edit_isOk_iff t (effect.small small) e).1 ⟨u, h⟩
  have length_imports (k) : (t.imports.get k).size = (log.flatMap (·.imports k)).length := by
    simpa using congrArg List.length (recorded.imports k)
  -- Where the edit imports, there is no entry of the module itself yet.
  have no_own (k) (hi : e.imports k ≠ []) : log.flatMap (·.own k) = [] := by
    have only := permits.only_imports hi
    rw [recorded.entries k, length_imports k, List.length_append, List.length_map] at only
    exact List.length_eq_zero_iff.1 (by omega)
  constructor
  case valid =>
    intro k x hx
    rw [effect.entries k, List.append_assoc, List.mem_append] at hx
    obtain hx | hx := hx
    · exact (recorded.valid k x hx).mono effect.types
    · exact (permits.valid hx).mono effect.types
  case entries =>
    intro k
    rw [effect.entries k, recorded.entries k]
    -- Imports go behind imports, and other entries behind everything.
    by_cases hi : e.imports k = []
    · simp [hi]
    · simp [no_own k hi]
  case imports =>
    intro k
    rw [effect.imports k, recorded.imports k]
    obtain hi | ⟨-, x, hi⟩ := imports_eq_or e k
    · simp [hi]
    · have only := permits.only_imports (k := k) (by simp [hi])
      simp [hi, count_eq, only, length_imports, List.mapIdx_append]
  case exports =>
    intro name x hx
    rw [effect.exports] at hx
    refine Nat.lt_of_lt_of_le ?_ (effect.length_le x.kind)
    obtain hx | hx := exports_exported permits hx
    · exact recorded.exports name x hx
    · exact hx
  case found =>
    intro name
    have before := recorded.found name
    simp only [findExport] at before ⊢
    rw [effect.exports, lookup_exported, before]
    simp [List.getLast?_append]
  case start =>
    intro index hs
    refine Nat.lt_of_lt_of_le ?_ (effect.length_le .func)
    rw [effect.start] at hs
    -- Only one edit sets the start function.
    cases e with
    | setStart i =>
      obtain rfl := Option.some.inj hs
      exact permits
    | _ => exact recorded.start index hs

/-- A run keeps the invariant. -/
private theorem recorded_attempts (edits : List TableEdit) :
    (attempts {} edits).Small → (attempts {} edits).Recorded (accepted {} edits) := by
  induction edits using List.reverseRecOn with
  | nil => exact fun _ => recorded_empty
  | append_singleton edits e ih =>
    rw [attempts_snoc, accepted_snoc]
    intro small
    obtain h | ⟨⟨fault, h⟩, same⟩ := attempt_eq (attempts {} edits) e
    · rw [h]
      exact (ih ((edit_effect h).small small)).edit small h
    · -- A refused edit is not in the log, and has not changed the table.
      rw [h, same]
      rw [same] at small
      show Recorded _ (accepted {} edits ++ [])
      rw [List.append_nil]
      exact ih small

/-- The accepted edits alone build the same table. -/
private theorem foldlM_accepted (t : ModuleTable) (edits : List TableEdit) :
    (t.accepted edits).foldlM ModuleTable.edit t = .ok (t.attempts edits) := by
  induction edits generalizing t with
  | nil => rfl
  | cons e rest ih =>
    rw [accepted_cons]
    have hrest := ih (t.attempt e)
    obtain h | ⟨⟨fault, h⟩, same⟩ := attempt_eq t e
    · rw [h]
      simp only [Except.isOk, Except.toBool, if_true, List.foldlM_cons, h]
      exact hrest
    -- A refused edit leaves the table as it was.
    · rw [h]
      rw [same] at hrest ⊢
      have hskip : t.attempts (e :: rest) = (t.attempt e).attempts rest := rfl
      rw [hskip, same]
      exact hrest

/-- Every function that exists has a type. -/
theorem Recorded.functionType {t : ModuleTable} {log : List TableEdit} (recorded : t.Recorded log)
    {index : UInt32} (h : index.toNat < (t.entries .func).length) :
    ∃ type, t.functionType index = .ok type := by
  have bound : index.toNat < t.functions.size := by simpa [ModuleTable.entries] using h
  have mem : IndexEntry.func t.functions[index.toNat].typeIndex ∈ t.entries .func :=
    List.mem_map.2 ⟨t.functions[index.toNat], by simp, rfl⟩
  have typed : t.functions[index.toNat].typeIndex.toNat < t.types.size := recorded.valid _ _ mem
  simp [ModuleTable.functionType, bound, typed]

/-- Every run of edits leaves a table that holds exactly what was accepted, in the order in which it
    was accepted, and in which every reference is to an entry that exists. An edit is accepted
    exactly if it is permitted, and a refused one has written nothing, whatever the table. -/
theorem attempts_keep_references (edits : List TableEdit) (small : (attempts {} edits).Small) :
    (attempts {} edits).Recorded (accepted {} edits) ∧
    (∀ index, index < (attempts {} edits).count .func →
      ∃ type, (attempts {} edits).functionType index = .ok type) ∧
    (∀ k (i : Nat) (x : Import), ((attempts {} edits).imports.get k)[i]? = some x →
      x.index.toNat = i) ∧
    (∀ e, (∃ u, e.perform.run (attempts {} edits) = .ok () u) ↔ (attempts {} edits).Permits e) ∧
    (∀ (t u : ModuleTable) (e : TableEdit) (fault : Fault),
      e.perform.run t = .error fault u → u = t) ∧
    (accepted {} edits).foldlM ModuleTable.edit {} = .ok (attempts {} edits) := by
  have recorded := recorded_attempts edits small
  refine ⟨recorded, ?_, ?_, ?_, fun t u e fault => TableEdit.perform_error,
    foldlM_accepted {} edits⟩
  · intro index h
    rw [UInt32.lt_iff_toNat_lt, toNat_count _ _ small] at h
    exact recorded.functionType h
  · intro k i x hx
    -- The number of imports fits into 32 bits, so their indices are not cut off.
    have bound := small k
    rw [recorded.entries k] at bound
    rw [← Array.getElem?_toList, recorded.imports k, List.getElem?_mapIdx] at hx
    obtain ⟨y, hy, rfl⟩ := Option.map_eq_some_iff.1 hx
    obtain ⟨hi, -⟩ := List.getElem?_eq_some_iff.1 hy
    simp only [List.length_append, List.length_map] at bound
    exact UInt32.toNat_ofNat_of_lt' (by simp only [UInt32.size]; omega)
  · intro e
    rw [← edit_isOk_iff _ small e]
    exact exists_congr fun u => built_eq_ok.symm

/-- A run in which a function of no type, a late import, a 64-bit memory and an export of an unknown
    kind are refused, and an export is replaced. -/
def mixedEdits : List TableEdit :=
  [.addFunction 0, .addType {}, .addImport [1] [2] (.func 0), .addFunction 0,
    .addImport [1] [3] (.func 0), .addMemory { is64 := true }, .addExport [7] 0 0,
    .addExport [7] 9 0, .addExport [7] 0 1, .setStart 1, .setStart 2]

/-- The refused edits have left nothing, and the second export of the name is the one that is
    found. -/
theorem attempts_keep_references_mixed :
    (attempts {} mixedEdits).Small ∧
      (attempts {} mixedEdits).findExport [7] = some { kind := .func, index := 1 } ∧
      (attempts {} mixedEdits).entries .func = [.func 0, .func 0] := by
  have small : (attempts {} mixedEdits).Small := fun k => by cases k <;> decide
  have recorded := (attempts_keep_references mixedEdits small).1
  exact ⟨small, (recorded.found [7]).trans (by decide), (recorded.entries .func).trans (by decide)⟩

end ModuleTable

end WasmLowering
