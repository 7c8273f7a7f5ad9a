import WasmLowering.Module.Entry

/-!
# The module table

A module table collects what the sections of a module declare. It is built in place: an operation
checks what an entry refers to and writes the entry, one check and one write after the other, and
whoever called it has the table as it was left, also if the operation failed. Imports come before
the module's own entries of their kind, so the imports of a kind are the first entries of its index
space.
-/

namespace WasmLowering

/-- Exports by name, in increasing order of the names, each name once. -/
abbrev ExportMap := List (Bytes × Export)

/-- Adds an export, in place of one of the same name. -/
def ExportMap.insert (name : Bytes) (e : Export) : ExportMap → ExportMap
  | [] => [(name, e)]
  | (other, x) :: rest =>
    if name = other then (name, e) :: rest
    else if name < other then (name, e) :: (other, x) :: rest
    else (other, x) :: insert name e rest

/-- The declarations of a module. -/
structure ModuleTable where
  types : Array FuncType := #[]
  imports : PerKind (Array Import) := .const #[]
  functions : Array FunctionEntry := #[]
  tables : Array TableType := #[]
  memories : Array Limits := #[]
  globals : Array Global := #[]
  exports : ExportMap := []
  elements : Array ElementSegment := #[]
  data : Array DataSegment := #[]
  start : Option UInt32 := none
  dataCount : Option UInt32 := none
  deriving Repr, DecidableEq

namespace ModuleTable

/-! ## Index spaces -/

/-- The number of entries in the index space of a kind. -/
def count (t : ModuleTable) : ExternalKind → UInt32
  | .func => UInt32.ofNat t.functions.size
  | .table => UInt32.ofNat t.tables.size
  | .memory => UInt32.ofNat t.memories.size
  | .global => UInt32.ofNat t.globals.size

/-- The number of entries of the kind with a given code; none if there is no such kind. -/
def countOfCode (t : ModuleTable) (code : UInt8) : UInt32 :=
  match ExternalKind.ofCode? code with
  | none => 0
  | some kind => t.count kind

/-- The number of imported entries of a kind. -/
def importedCount (t : ModuleTable) (k : ExternalKind) : UInt32 :=
  UInt32.ofNat (t.imports.get k).size

/-- The number of functions that the module defines itself. -/
def localFunctionCount (t : ModuleTable) : UInt32 :=
  t.count .func - t.importedCount .func

/-- The index of the function whose body has a given index. -/
def bodyFunction (t : ModuleTable) (body : UInt32) : UInt32 :=
  t.importedCount .func + body

/-- The type of a function. -/
def functionType (t : ModuleTable) (index : UInt32) : Except Fault FuncType :=
  match t.functions[index.toNat]? with
  | none => .error .malformed
  | some f =>
    match t.types[f.typeIndex.toNat]? with
    | none => .error .malformed
    | some type => .ok type

/-- The export with a given name. -/
def findExport (t : ModuleTable) (name : Bytes) : Option Export :=
  t.exports.lookup name

/-! ## Entries that are always taken -/

/-- Adds a function type. -/
def addType (t : ModuleTable) (type : FuncType) : ModuleTable :=
  { t with types := t.types.push type }

/-- Adds a table. -/
def addTable (t : ModuleTable) (type : TableType) : ModuleTable :=
  { t with tables := t.tables.push type }

/-- Adds a global. -/
def addGlobal (t : ModuleTable) (type : GlobalType) (init : ConstExpr) : ModuleTable :=
  { t with globals := t.globals.push { type, init } }

/-- Adds an element segment. -/
def addElement (t : ModuleTable) (segment : ElementSegment) : ModuleTable :=
  { t with elements := t.elements.push segment }

/-- Adds a data segment. -/
def addData (t : ModuleTable) (segment : DataSegment) : ModuleTable :=
  { t with data := t.data.push segment }

/-- Announces the number of data segments. -/
def setDataCount (t : ModuleTable) (count : UInt32) : ModuleTable :=
  { t with dataCount := some count }

end ModuleTable

/-! ## Entries that are checked -/

/-- A computation that builds a module table in place. There is a table after it in any case: if it
    failed, the table that it had written by then. -/
abbrev TableBuilder := EStateM Fault ModuleTable

namespace TableBuilder

/-- Fails as malformed unless the table meets a condition. -/
def test (condition : ModuleTable → Bool) : TableBuilder Unit := do
  if condition (← get) then pure () else throw .malformed

/-- Adds a function of a type that exists. -/
def addFunction (typeIndex : UInt32) : TableBuilder Unit := do
  test fun t => typeIndex.toNat < t.types.size
  modify fun t => { t with functions := t.functions.push { typeIndex } }

/-- Adds a memory, unless it has 64-bit addresses. -/
def pushMemory (refusal : Cause) (limits : Limits) : TableBuilder Unit := do
  if limits.is64 then throw (.of refusal)
  else modify fun t => { t with memories := t.memories.push limits }

/-- Adds a memory of the module itself. -/
def addMemory : Limits → TableBuilder Unit :=
  pushMemory .memory64

/-- Adds an imported entry to the index space of its kind. -/
def addImported : ImportDesc → TableBuilder Unit
  | .func typeIndex => addFunction typeIndex
  | .table type => modify (·.addTable type)
  | .memory limits => pushMemory .importedMemory64 limits
  | .global type => modify (·.addGlobal type .absent)

/-- Adds an import. All entries of its kind so far have to be imports. The entry goes to its index
    space first, and only then the import to the imports of its kind. -/
def addImport (module name : Bytes) (desc : ImportDesc) : TableBuilder Unit := do
  test fun t => (t.count desc.kind).toNat == (t.imports.get desc.kind).size
  let index := (← get).count desc.kind
  addImported desc
  modify fun t => { t with
    imports := t.imports.set desc.kind ((t.imports.get desc.kind).push { module, name, index }) }

/-- Adds an export of an entry that exists, in place of one of the same name. The kind is given by
    its code; there are no entries of an unknown kind. -/
def addExport (name : Bytes) (code : UInt8) (index : UInt32) : TableBuilder Unit := do
  test fun t => index < t.countOfCode code
  match ExternalKind.ofCode? code with
  | none => throw .malformed
  | some kind => modify fun t => { t with exports := t.exports.insert name { kind, index } }

/-- Makes a function that exists the start function. -/
def setStart (index : UInt32) : TableBuilder Unit := do
  test fun t => index.toNat < t.functions.size
  modify fun t => { t with start := some index }

/-- Gives a function that exists a debug name. -/
def setFunctionName (index : UInt32) (name : Bytes) : TableBuilder Unit := do
  test fun t => index.toNat < t.functions.size
  modify fun t => { t with
    functions := t.functions.modify index.toNat fun f => { f with name } }

end TableBuilder

/-- The table that a computation has built, unless it failed. -/
def ModuleTable.built (t : ModuleTable) (c : TableBuilder Unit) : Except Fault ModuleTable :=
  match c.run t with
  | .ok _ u => .ok u
  | .error fault _ => .error fault

end WasmLowering
