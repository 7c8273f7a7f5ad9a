import WasmLowering.Module.ExternalKind
import WasmLowering.ValueType

/-!
# Entries of a module

What the sections of a module describe: size limits, tables, globals, constant initializers,
imports, exports, and the segments that fill tables and memories.
-/

namespace WasmLowering

/-- The bounds on the size of a table or a memory. -/
structure Limits where
  min : UInt64 := 0
  max : Option UInt64 := none
  shared : Bool := false
  /-- Whether addresses have 64 bits. -/
  is64 : Bool := false
  deriving Repr, DecidableEq, Inhabited

/-- A table of references. -/
structure TableType where
  element : ValueType := .funcref
  limits : Limits := {}
  deriving Repr, DecidableEq, Inhabited

/-- The type of a global and whether it may be assigned. -/
structure GlobalType where
  type : ValueType := .i32
  mutable : Bool := false
  deriving Repr, DecidableEq, Inhabited

/-- A constant initializer: one operator, given by its opcode, and its immediate. The value is the
    bits of a constant, the index of a global or function, or the heap type of a null reference. -/
structure ConstExpr where
  opcode : UInt8 := 0
  value : UInt64 := 0
  deriving Repr, DecidableEq, Inhabited

namespace ConstExpr

/-- Opcode zero marks the initializer that is not there. -/
def absent : ConstExpr := {}

/-- Whether there is no initializer. -/
def isAbsent (e : ConstExpr) : Bool :=
  e.opcode == 0

/-- A reference to a function. -/
def refFunc (index : UInt32) : ConstExpr :=
  { opcode := 0xD2, value := index.toUInt64 }

end ConstExpr

/-- An imported entry, placed in the index space of its kind. -/
structure Import where
  module : Bytes
  name : Bytes
  index : UInt32
  deriving Repr, DecidableEq, Inhabited

/-- What an import has to be. -/
inductive ImportDesc where
  | func (typeIndex : UInt32)
  | table (type : TableType)
  | memory (limits : Limits)
  | global (type : GlobalType)
  deriving Repr, DecidableEq

/-- The kind of an import. -/
def ImportDesc.kind : ImportDesc → ExternalKind
  | func _ => .func
  | table _ => .table
  | memory _ => .memory
  | global _ => .global

/-- A function: its type, and its debug name, which is empty if there is none. -/
structure FunctionEntry where
  typeIndex : UInt32
  name : Bytes := []
  deriving Repr, DecidableEq, Inhabited

/-- A global and its initial value, which is absent for an imported one. -/
structure Global where
  type : GlobalType
  init : ConstExpr := .absent
  deriving Repr, DecidableEq, Inhabited

/-- An exported entry: its kind, and its index in the space of that kind. -/
structure Export where
  kind : ExternalKind
  index : UInt32
  deriving Repr, DecidableEq

/-- When a segment takes effect. -/
inductive SegmentMode where
  | active
  | passive
  | declarative
  /-- A code that is no mode. -/
  | other (code : UInt8)
  deriving Repr, DecidableEq

namespace SegmentMode

/-- The mode with a given code. -/
def ofCode : UInt8 → SegmentMode
  | 0 => .active
  | 1 => .passive
  | 2 => .declarative
  | code => .other code

/-- The name of a mode; a question mark for an unknown one. -/
def name : SegmentMode → String
  | active => "active"
  | passive => "passive"
  | declarative => "declarative"
  | other _ => "?"

end SegmentMode

/-- A segment of references that fills a part of a table. -/
structure ElementSegment where
  mode : SegmentMode := .active
  table : UInt32 := 0
  offset : ConstExpr := .absent
  type : ValueType := .funcref
  items : List ConstExpr := []
  deriving Repr, DecidableEq

/-- A segment of bytes that fills a part of a memory. -/
structure DataSegment where
  mode : SegmentMode := .active
  memory : UInt32 := 0
  offset : ConstExpr := .absent
  bytes : Bytes := []
  deriving Repr, DecidableEq

end WasmLowering
