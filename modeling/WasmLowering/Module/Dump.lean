import WasmLowering.JsonValue
import WasmLowering.Module.Table

/-!
# Dump of a module table

The module table as a JSON value. Fields that do not apply are left out: the maximum of unbounded
limits, the sharing flag of unshared ones, and the name of an unnamed function.
-/

namespace WasmLowering

/-- The names of value types. -/
def ValueType.dumpAll (ts : List ValueType) : JsonValue :=
  .array (ts.map fun t => .ofString t.name)

/-- The parameters and results of a function type. -/
def FuncType.dump (t : FuncType) : JsonValue :=
  .record [("params", ValueType.dumpAll t.params), ("results", ValueType.dumpAll t.results)]

/-- The fields of limits. -/
def Limits.fields (l : Limits) : List (String × JsonValue) :=
  [("min", .number l.min.toNat)] ++
    (l.max.toList.map fun max => ("max", .number max.toNat)) ++
    (if l.shared then [("shared", .bool true)] else [])

/-- The opcode and value of an initializer, or null if it is absent. -/
def ConstExpr.dump (e : ConstExpr) : JsonValue :=
  if e.isAbsent then .null
  else .record [("opcode", .number e.opcode.toNat), ("value", .number e.value.toNat)]

/-- The two names and the index of an import. -/
def Import.dump (i : Import) : JsonValue :=
  .record [("module", .text i.module), ("name", .text i.name), ("index", .ofUInt32 i.index)]

/-- The index, type and origin of a function, and its debug name if it has one. -/
def FunctionEntry.dump (f : FunctionEntry) (index imported : Nat) : JsonValue :=
  .record <|
    [("index", .number index), ("type", .ofUInt32 f.typeIndex),
      ("imported", .bool (index < imported))] ++
    (if f.name.isEmpty then [] else [("name", .text f.name)])

/-- The limits and element type of a table. -/
def TableType.dump (t : TableType) : JsonValue :=
  .record (t.limits.fields ++ [("elem", .ofString t.element.name)])

/-- The limits of a memory. -/
def Limits.dump (l : Limits) : JsonValue :=
  .record l.fields

/-- The type, mutability and initializer of a global. -/
def Global.dump (g : Global) : JsonValue :=
  .record [("type", .ofString g.type.type.name), ("mutable", .bool g.type.mutable),
    ("init", g.init.dump)]

/-- The kind and index of an export. -/
def Export.dump (e : Export) : JsonValue :=
  .record [("kind", .ofString e.kind.name), ("index", .ofUInt32 e.index)]

/-- The place, type and items of an element segment. -/
def ElementSegment.dump (s : ElementSegment) : JsonValue :=
  .record [("mode", .ofString s.mode.name), ("table", .ofUInt32 s.table),
    ("offset", s.offset.dump), ("type", .ofString s.type.name),
    ("items", .array (s.items.map ConstExpr.dump))]

/-- The place and bytes of a data segment, the bytes in hexadecimal. -/
def DataSegment.dump (s : DataSegment) : JsonValue :=
  .record [("mode", .ofString s.mode.name), ("memory", .ofUInt32 s.memory),
    ("offset", s.offset.dump), ("bytes", .ofString s.bytes.hex)]

/-- Everything a module declares. -/
def ModuleTable.dump (t : ModuleTable) : JsonValue :=
  .record [
    ("types", .array (t.types.toList.map FuncType.dump)),
    ("imports", .record (ExternalKind.all.map fun k =>
      (k.name, .array ((t.imports.get k).toList.map Import.dump)))),
    ("functions", .array (t.functions.toList.zipIdx.map fun (f, index) =>
      f.dump index t.imports.func.size)),
    ("tables", .array (t.tables.toList.map TableType.dump)),
    ("memories", .array (t.memories.toList.map Limits.dump)),
    ("globals", .array (t.globals.toList.map Global.dump)),
    ("exports", .object (t.exports.map fun (name, e) => (name, e.dump))),
    ("elements", .array (t.elements.toList.map ElementSegment.dump)),
    ("data", .array (t.data.toList.map DataSegment.dump)),
    ("start", .ofOption .ofUInt32 t.start),
    ("data_count", .ofOption .ofUInt32 t.dataCount)]

end WasmLowering
