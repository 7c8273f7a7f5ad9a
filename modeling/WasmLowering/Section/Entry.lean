import WasmLowering.Module.Table

/-!
# Section entries

Decoders for the entries of the sections. A section is its number of entries followed by the
entries; each entry is checked against the module table and added to it before the next one is read.
-/

namespace WasmLowering.Decoder

variable {σ : Type}

/-- Entries behind their number, each of which changes a state. -/
def entries (entry : σ → Decoder σ) (s : σ) : Decoder σ := do
  iterate entry (← u32).toNat s

/-! ## Types and limits -/

/-- The form byte of a function type. -/
def funcTypeForm : UInt8 := 0x60

/-- An entry of the type section. -/
def typeEntry (t : ModuleTable) : Decoder ModuleTable := do
  let form ← byte
  if form == funcTypeForm then
    let params ← valueTypes
    let results ← valueTypes
    return t.addType { params, results }
  else fail (.of (.typeForm form))

/-- The bounds that follow the flags of limits. -/
def limitBounds (hasMax : Bool) (bound : Decoder UInt64) : Decoder (UInt64 × Option UInt64) := do
  let min ← bound
  if hasMax then
    let max ← bound
    check (min ≤ max)
    return (min, some max)
  else return (min, none)

/-- Limits, whose flags have to be below `flagLimit`. The flags say whether there is a maximum,
    whether the entry is shared, and whether the bounds have 64 bits. -/
def limits (flagLimit : UInt8) : Decoder Limits := do
  let flags ← byte
  check (flags < flagLimit)
  let hasMax := flags &&& 1 != 0
  let shared := flags &&& 2 != 0
  let is64 := flags &&& 4 != 0
  let bound := if is64 then u64 else do return (← u32).toUInt64
  let (min, max) ← limitBounds hasMax bound
  return { min, max, shared, is64 }

/-- The limits of a memory. -/
def memoryLimits : Decoder Limits :=
  limits 8

/-- The type of a table. -/
def tableType : Decoder TableType := do
  let element ← referenceType
  return { element, limits := ← limits 2 }

/-- The type of a global. -/
def globalType : Decoder GlobalType := do
  let type ← valueType
  let flag ← byte
  check (flag ≤ 1)
  return { type, mutable := flag != 0 }

/-! ## Constant expressions -/

/-- The immediate of an operator that a constant expression may hold. -/
def constImmediate : UInt8 → Decoder UInt64
  | 0x41 => do return (← s32).toUInt64
  | 0x42 => s64
  | 0x43 => do return UInt64.ofNat (← littleEndian 4)
  | 0x44 => do return UInt64.ofNat (← littleEndian 8)
  | 0x23 | 0xD2 => do return (← u32).toUInt64
  | 0xD0 => do return (← byte).toUInt64
  | _ => fail (.of .initializer)

/-- One constant operator and an `end`. -/
def constExpr : Decoder ConstExpr := do
  let opcode ← byte
  let value ← constImmediate opcode
  check ((← byte) == 0x0B)
  return { opcode, value }

/-! ## Entries of index spaces -/

/-- What an import has to be, after its names. -/
def importDesc : Decoder ImportDesc := do
  let kind ← byte
  match ExternalKind.ofCode? kind with
  | some .func => return .func (← u32)
  | some .table => return .table (← tableType)
  | some .memory => return .memory (← memoryLimits)
  | some .global => return .global (← globalType)
  | none => fail (.of (.importKind kind))

/-- An entry of the import section. -/
def importEntry (t : ModuleTable) : Decoder ModuleTable := do
  let module ← sized
  let name ← sized
  let desc ← importDesc
  ofExcept (t.built (.addImport module name desc))

/-- An entry of the function section. -/
def functionEntry (t : ModuleTable) : Decoder ModuleTable := do
  ofExcept (t.built (.addFunction (← u32)))

/-- An entry of the table section. -/
def tableEntry (t : ModuleTable) : Decoder ModuleTable := do
  return t.addTable (← tableType)

/-- An entry of the memory section. -/
def memoryEntry (t : ModuleTable) : Decoder ModuleTable := do
  ofExcept (t.built (.addMemory (← memoryLimits)))

/-- An entry of the global section. -/
def globalEntry (t : ModuleTable) : Decoder ModuleTable := do
  let type ← globalType
  let init ← constExpr
  return t.addGlobal type init

/-- An entry of the export section. -/
def exportEntry (t : ModuleTable) : Decoder ModuleTable := do
  let name ← sized
  let kind ← byte
  if (ExternalKind.ofCode? kind).isNone then fail (.of (.exportKind kind))
  else ofExcept (t.built (.addExport name kind (← u32)))

/-- The start section. -/
def startEntry (t : ModuleTable) : Decoder ModuleTable := do
  ofExcept (t.built (.setStart (← u32)))

/-! ## Segments -/

/-- The place of an element segment, by its flags: bit 0 marks a segment that is not active, and bit
    1 one that is declarative or names its table. -/
def elementPlace (flags : UInt32) : Decoder ElementSegment := do
  if flags &&& 1 != 0 then
    return { mode := if flags &&& 2 != 0 then .declarative else .passive }
  else
    let table ← if flags &&& 2 != 0 then u32 else pure 0
    let offset ← constExpr
    return { table, offset }

/-- The type of an element segment. It is written unless bits 0 and 1 of the flags are clear, as a
    reference type if bit 2 is set and as a zero byte otherwise. -/
def elementType (flags : UInt32) : Decoder ValueType := do
  if flags &&& 3 == 0 then return .funcref
  else if flags &&& 4 != 0 then referenceType
  else
    check ((← byte) == 0)
    return .funcref

/-- An item of an element segment, by its flags: an expression if bit 2 is set, otherwise the index
    of a function that exists. -/
def elementItem (t : ModuleTable) (flags : UInt32) : Decoder ConstExpr := do
  if flags &&& 4 != 0 then constExpr
  else
    let index ← u32
    check (index.toNat < t.functions.size)
    return .refFunc index

/-- An entry of the element section. The number of items may not exceed the number of bytes left. -/
def elementEntry (t : ModuleTable) : Decoder ModuleTable := do
  let flags ← u32
  check (flags < 8)
  let place ← elementPlace flags
  let type ← elementType flags
  let count ← u32
  check (count.toNat ≤ (← remaining))
  let items ← replicate (elementItem t flags) count.toNat
  return t.addElement { place with type, items }

/-- The place of a data segment: flag 1 marks a passive one, and flag 2 one that names its
    memory. -/
def dataPlace (flags : UInt32) : Decoder DataSegment := do
  if flags == 1 then return { mode := .passive }
  else
    let memory ← if flags == 2 then u32 else pure 0
    let offset ← constExpr
    return { memory, offset }

/-- An entry of the data section. -/
def dataEntry (t : ModuleTable) : Decoder ModuleTable := do
  let flags ← u32
  check (flags < 3)
  let place ← dataPlace flags
  let bytes ← sized
  return t.addData { place with bytes }

/-- The data section, whose number of entries has to be the one announced, if there is one. -/
def dataSection (t : ModuleTable) : Decoder ModuleTable := do
  let count ← u32
  check (t.dataCount.all (· == count))
  iterate dataEntry count.toNat t

/-- The data count section. -/
def dataCountEntry (t : ModuleTable) : Decoder ModuleTable := do
  return t.setDataCount (← u32)

end WasmLowering.Decoder
