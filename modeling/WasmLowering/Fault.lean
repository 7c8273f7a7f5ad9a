import WasmLowering.Bytes
import WasmLowering.Section.Kind
import WasmLowering.Module.ExternalKind

/-!
# Faults

A fault is what decoding, lowering or instantiating a module reports when it gives up: the cause,
and the trail of contexts it happened in, innermost first. Causes and contexts are data; their
wording is in `Cause.text` and `Context.text`, and `Fault.message` joins them.
-/

namespace WasmLowering

/-- The class of a fault. Codes above the named ones are kept but have no name of their own. -/
inductive ErrorKind where
  | none
  | malformed
  | unsupportedSection
  | unsupportedTypeSectionEntry
  | unsupportedImportSectionEntry
  | unsupportedExportSectionEntry
  | unsupportedValueType
  | unsupportedMemory64
  | unsupportedInstruction
  | unresolvedImport
  | internal
  | other (code : UInt32)
  deriving Repr, DecidableEq

namespace ErrorKind

/-- The kind with a given code. -/
def ofCode : UInt32 → ErrorKind
  | 0 => .none
  | 1 => .malformed
  | 2 => .unsupportedSection
  | 3 => .unsupportedTypeSectionEntry
  | 4 => .unsupportedImportSectionEntry
  | 5 => .unsupportedExportSectionEntry
  | 6 => .unsupportedValueType
  | 7 => .unsupportedMemory64
  | 8 => .unsupportedInstruction
  | 9 => .unresolvedImport
  | 10 => .internal
  | n => .other n

/-- The code of a kind. -/
def code : ErrorKind → UInt32
  | none => 0
  | malformed => 1
  | unsupportedSection => 2
  | unsupportedTypeSectionEntry => 3
  | unsupportedImportSectionEntry => 4
  | unsupportedExportSectionEntry => 5
  | unsupportedValueType => 6
  | unsupportedMemory64 => 7
  | unsupportedInstruction => 8
  | unresolvedImport => 9
  | internal => 10
  | other n => n

/-- The name of a kind. -/
def name : ErrorKind → String
  | none => "None"
  | malformed => "Malformed"
  | unsupportedSection => "UnsupportedSection"
  | unsupportedTypeSectionEntry => "UnsupportedTypeSectionEntry"
  | unsupportedImportSectionEntry => "UnsupportedImportSectionEntry"
  | unsupportedExportSectionEntry => "UnsupportedExportSectionEntry"
  | unsupportedValueType => "UnsupportedValueType"
  | unsupportedMemory64 => "UnsupportedMemory64"
  | unsupportedInstruction => "UnsupportedInstruction"
  | unresolvedImport => "UnresolvedImport"
  | internal => "Internal"
  | other _ => "Unknown"

end ErrorKind

/-- Why an operation gave up. -/
inductive Cause where
  /-- The input breaks a rule of the format, or refers to something that does not exist. -/
  | malformed
  /-- A section id that has no meaning. -/
  | unknownSection (id : UInt8)
  /-- An entry of the type section that is not a function type. -/
  | typeForm (form : UInt8)
  /-- An import of an unknown kind. -/
  | importKind (kind : UInt8)
  /-- An export of an unknown kind. -/
  | exportKind (kind : UInt8)
  /-- A byte that is no value type. -/
  | valueType (code : UInt8)
  /-- A value type that has no native counterpart. -/
  | noNativeType
  /-- A memory with 64-bit addresses. -/
  | memory64
  /-- An imported memory with 64-bit addresses. -/
  | importedMemory64
  /-- A constant expression that is not a single known constant. -/
  | initializer
  /-- A loop that takes parameters. -/
  | loopParams
  /-- A bulk memory or table operator. -/
  | bulkMemory (sub : UInt32)
  /-- An unknown operator behind the miscellaneous escape byte. -/
  | unknownMisc (sub : UInt32)
  /-- A known operator that is not lowered. -/
  | instruction (name : String)
  /-- An opcode that has no meaning. -/
  | unknownOpcode (opcode : UInt8)
  /-- No host binding for an import. -/
  | missingImport (kind : ExternalKind) (module name : Bytes)
  /-- A host binding of the wrong kind. -/
  | importKindMismatch (kind : ExternalKind) (module name : Bytes)
  /-- An intrinsic was asked for at a type that is no integer and no float. -/
  | overloadType
  /-- A module was used before it was compiled. -/
  | notCompiled
  /-- A lowered function that the verifier complains about. -/
  | broken (function : String) (complaint : Bytes)
  /-- A value that has to exist is absent. -/
  | absent
  /-- Any other failure, with its class and its wording. -/
  | custom (kind : ErrorKind) (text : Bytes)
  deriving Repr, DecidableEq

namespace Cause

/-- The class of a cause. -/
def kind : Cause → ErrorKind
  | malformed => .malformed
  | unknownSection _ => .unsupportedSection
  | typeForm _ => .unsupportedTypeSectionEntry
  | importKind _ => .unsupportedImportSectionEntry
  | exportKind _ => .unsupportedExportSectionEntry
  | valueType _ | noNativeType => .unsupportedValueType
  | memory64 | importedMemory64 => .unsupportedMemory64
  | initializer | loopParams | bulkMemory _ | unknownMisc _ | instruction _ | unknownOpcode _ =>
    .unsupportedInstruction
  | missingImport .. | importKindMismatch .. => .unresolvedImport
  | overloadType | notCompiled | broken .. | absent => .internal
  | custom kind _ => kind

/-- The wording of a cause. -/
def text : Cause → Bytes
  | malformed => .ofString "Malformed"
  | unknownSection id => .ofString "section " ++ .ofNat id.toNat
  | typeForm form => .ofString "type form " ++ .ofString (byteText form)
  | importKind kind => .ofString "import kind " ++ .ofNat kind.toNat
  | exportKind kind => .ofString "export kind " ++ .ofNat kind.toNat
  | valueType code => .ofString "value type " ++ .ofString (byteText code)
  | noNativeType => .ofString "value type"
  | memory64 => .ofString "memory64"
  | importedMemory64 => .ofString "imported memory64"
  | initializer => .ofString "initializer expression"
  | loopParams => .ofString "loop with params"
  | bulkMemory sub => .ofString "bulk memory 0xFC " ++ .ofNat sub.toNat
  | unknownMisc sub => .ofString "unknown 0xFC " ++ .ofNat sub.toNat
  | instruction name => .ofString "instruction " ++ .ofString name
  | unknownOpcode opcode => .ofString "opcode " ++ .ofString (byteText opcode)
  | missingImport kind module name =>
    .ofString "missing " ++ .ofString kind.name ++ .ofString " import " ++ module ++
      .ofString "." ++ name
  | importKindMismatch kind module name =>
    .ofString "kind mismatch for " ++ .ofString kind.name ++ .ofString " import " ++ module ++
      .ofString "." ++ name
  | overloadType => .ofString "intrinsic overload type"
  | notCompiled => .ofString "module not compiled"
  | broken function complaint => .ofString (function ++ " is broken: ") ++ complaint
  | absent => .ofString "backend returned null"
  | custom _ text => text

end Cause

/-- Where a fault happened. -/
inductive Context where
  /-- Decoding a module. -/
  | parse
  /-- Binding the imports of a module. -/
  | instantiate
  /-- Decoding a section. -/
  | inSection (kind : SectionKind)
  /-- Lowering a function body: the function's index, the number of operators completed, and the
      opcode that was read last. -/
  | inBody (func : UInt32) (completed : Nat) (opcode : UInt8)
  /-- Any other place, described in words. -/
  | note (text : Bytes)
  deriving Repr, DecidableEq

/-- The wording of a context. -/
def Context.text : Context → Bytes
  | parse => .ofString "wasm/parse"
  | instantiate => .ofString "wasm/instantiate"
  | inSection kind => .ofString "section " ++ .ofString kind.name
  | inBody func completed opcode =>
    .ofString "iFunc=" ++ .ofNat func.toNat ++ .ofString ", Op=" ++ .ofNat completed ++
      .ofString ", Opcode=" ++ .ofNat opcode.toNat
  | note text => text.untilNul

/-- A chain of contexts, innermost first. -/
abbrev Trail := List Context

/-- The contexts of a trail, each behind an arrow. -/
def Trail.text (trail : Trail) : Bytes :=
  trail.flatMap fun c => Bytes.ofString " <- " ++ c.text

/-- A failure: its cause, and the contexts it happened in, innermost first. -/
structure Fault where
  cause : Cause
  trail : Trail := []
  deriving Repr, DecidableEq

namespace Fault

/-- A fault outside every context. -/
def of (cause : Cause) : Fault :=
  { cause }

/-- The input breaks a rule of the format. -/
def malformed : Fault :=
  of .malformed

/-- Puts a fault into an enclosing context. -/
def within (context : Context) (f : Fault) : Fault :=
  { f with trail := f.trail ++ [context] }

/-- The class of a fault. -/
def kind (f : Fault) : ErrorKind :=
  f.cause.kind

/-- The wording of the cause up to its first zero byte, a colon, and the trail. -/
def message (f : Fault) : Bytes :=
  f.cause.text.untilNul ++ .ofString ":" ++ f.trail.text

end Fault

/-- Puts the fault of a failed computation into an enclosing context. -/
def inContext {α : Type} (context : Context) : Except Fault α → Except Fault α
  | .ok a => .ok a
  | .error f => .error (f.within context)

/-- Fails as malformed input unless the condition holds. -/
def require (condition : Bool) : Except Fault Unit :=
  if condition then .ok () else .error .malformed

end WasmLowering
