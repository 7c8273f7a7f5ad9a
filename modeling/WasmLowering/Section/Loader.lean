import WasmLowering.Lowering.Body
import WasmLowering.Section.Entry
import WasmLowering.Section.Names
import WasmLowering.Ssa.Printer

/-!
# Loading a module

The sections of a module are taken in order. Each one adds to the module table; the code section
lowers the bodies of the functions declared before it, and shows every lowered function to a
verifier. A fault ends the loading, but not without the warnings given so far.
-/

namespace WasmLowering

open Ssa

/-! ## Verification -/

/-- A check of lowered functions, which says what is wrong with a function if anything is. -/
abbrev Verifier := Ssa.Function → Option Bytes

namespace Verifier

/-- No check at all. -/
def off : Verifier := fun _ => none

/-- Fails if the verifier complains about a function. -/
def check (verifier : Verifier) (f : Ssa.Function) : Except Fault Unit :=
  match verifier f with
  | none => .ok ()
  | some complaint => .error (.of (.broken f.name complaint))

end Verifier

/-- What has been learned from the sections so far. -/
structure Loader where
  table : ModuleTable := {}
  /-- The rank of the last section that was not a custom one. -/
  rank : Nat := 0
  /-- The number of functions that the function section declares. -/
  declared : Nat := 0
  /-- The number of bodies that the code section holds. -/
  bodies : Nat := 0
  functions : Array Ssa.Function := #[]
  intrinsics : IntrinsicTable := {}
  /-- The functions that were named but do not exist. -/
  warnings : Array UInt32 := #[]
  verifier : Verifier := .off

/-- A fault, and the warnings given before it. -/
structure LoadFailure where
  fault : Fault
  warnings : Array UInt32
  deriving Repr, DecidableEq

namespace Loader

/-! ## Code -/

/-- Lowers the next body and verifies the function. -/
def bodyEntry (l : Loader) : Decoder Loader := do
  let input ← Decoder.sized
  let body := l.functions.size
  let func := l.table.bodyFunction (UInt32.ofNat body)
  let type ← .ofExcept (l.table.functionType func)
  let (function, intrinsics) ← .ofExcept
    (Lowering.lowerFunction l.table.types body func type l.intrinsics input)
  .ofExcept (l.verifier.check function)
  return { l with functions := l.functions.push function, intrinsics }

/-- The code section, which has to hold one body for each function declared. -/
def codeSection (l : Loader) : Decoder Loader := do
  let count ← Decoder.u32
  .check (count.toNat == l.declared)
  let l ← Decoder.iterate bodyEntry count.toNat l
  return { l with bodies := count.toNat }

/-- The function section. -/
def functionSection (l : Loader) : Decoder Loader := do
  let count ← Decoder.u32
  let table ← Decoder.iterate Decoder.functionEntry count.toNat l.table
  return { l with table, declared := count.toNat }

/-! ## Sections -/

/-- A section that only changes the module table. -/
def tableSection (l : Loader) (d : ModuleTable → Decoder ModuleTable) : Decoder Loader := do
  return { l with table := ← d l.table }

/-- The section of a kind other than `custom`. -/
def sectionDecoder (l : Loader) : SectionKind → Decoder Loader
  | .custom => pure l
  | .types => l.tableSection (.entries .typeEntry)
  | .imports => l.tableSection (.entries .importEntry)
  | .functions => l.functionSection
  | .tables => l.tableSection (.entries .tableEntry)
  | .memories => l.tableSection (.entries .memoryEntry)
  | .globals => l.tableSection (.entries .globalEntry)
  | .exports => l.tableSection (.entries .exportEntry)
  | .start => l.tableSection .startEntry
  | .elements => l.tableSection (.entries .elementEntry)
  | .code => l.codeSection
  | .data => l.tableSection .dataSection
  | .dataCount => l.tableSection .dataCountEntry

/-- Applies the names of a name section. -/
def applyNames (l : Loader) (map : NameMap) : Loader :=
  let (table, warnings) := map.names.foldl applyName (l.table, l.warnings)
  { l with table, warnings }

/-- A custom section. Only one called `name` has a meaning. -/
def custom (l : Loader) (payload : Bytes) : Except LoadFailure Loader :=
  let context := Context.inSection .custom
  match Decoder.sized.run payload with
  | (.error fault, _) => .error ⟨fault.within context, l.warnings⟩
  | (.ok name, rest) =>
    if name = .ofString "name" then
      let map := NameMap.ofSection rest
      let l := l.applyNames map
      if map.complete then .ok l
      else .error ⟨Fault.malformed.within context, l.warnings⟩
    else .ok l

/-- A section other than a custom one. Its rank has to exceed that of the sections before it. -/
def ranked (l : Loader) (frame : Frame) : Except Fault Loader := do
  require (l.rank < sectionRank frame.id)
  let l := { l with rank := sectionRank frame.id }
  match SectionKind.ofId? frame.id with
  | none => .error (.of (.unknownSection frame.id))
  | some kind => inContext (.inSection kind) ((l.sectionDecoder kind).decodeAll frame.payload)

/-- The next section. -/
def frame (l : Loader) (f : Frame) : Except LoadFailure Loader :=
  if f.id = 0 then l.custom f.payload
  else
    match l.ranked f with
    | .ok l => .ok l
    | .error fault => .error ⟨fault, l.warnings⟩

/-- All sections, in order. -/
def frames (l : Loader) : List Frame → Except LoadFailure Loader
  | [] => .ok l
  | f :: fs => do
    let l ← l.frame f
    l.frames fs

/-- All sections of a framing that has to be complete. In the end every function declared has to
    have a body. -/
def framing (l : Loader) (f : Framing) : Except LoadFailure Loader := do
  let l ← l.frames f.frames
  if f.complete && l.bodies == l.declared then return l
  else .error ⟨.malformed, l.warnings⟩

end Loader

/-! ## Modules -/

/-- The four bytes that every module starts with. -/
def moduleMagic : Bytes := [0x00, 0x61, 0x73, 0x6D]

/-- The version of the format. -/
def moduleVersion : Bytes := [0x01, 0x00, 0x00, 0x00]

/-- The header of a module. -/
def Decoder.moduleHeader : Decoder Unit := do
  check ((← take 4) == moduleMagic)
  check ((← take 4) == moduleVersion)

/-- Loads a module from its bytes. -/
def loadModule (input : Bytes) (verifier : Verifier := .off) : Except LoadFailure Loader :=
  match Decoder.moduleHeader.run input with
  | (.error fault, _) => .error ⟨fault, #[]⟩
  | (.ok (), rest) => ({ verifier } : Loader).framing (.split rest)

end WasmLowering
