import WasmLowering.Log.Header
import WasmLowering.Section.Loader
import WasmLowering.Ssa.Printer

/-!
# Compiled modules

A module starts out empty. Compiling it replaces its table and its lowered functions; a failed
attempt changes nothing. Either way there are messages for the log.
-/

namespace WasmLowering

open Ssa

/-- A module: its table, and its lowered functions once it is compiled. -/
structure Module where
  table : ModuleTable := {}
  lowered : Option Ssa.Module := none
  deriving Repr, DecidableEq

/-- The outcome of an attempt to compile, and the messages given on the way. -/
structure CompileReport where
  messages : List (Log.Level × Bytes)
  outcome : Except Fault Module

/-- The warning that a name was given to a function that does not exist. -/
def unknownFunctionMessage (index : UInt32) : Log.Level × Bytes :=
  (.warning, .ofString "name section: function " ++ .ofNat index.toNat ++
    .ofString " is out of range")

/-- The message that a module was compiled. -/
def compiledMessage (table : ModuleTable) (lowered : Ssa.Module) : Log.Level × Bytes :=
  (.info, .ofString "module " ++ lowered.name ++
    .ofString " compiled: functions=" ++ .ofNat table.functions.size ++
    .ofString ", imported=" ++ .ofNat (table.importedCount .func).toNat ++
    .ofString ", exports=" ++ .ofNat table.exports.length ++
    .ofString ", intrinsics=" ++ .ofNat lowered.intrinsics.count)

/-- Compiles the bytes of a module under a given name. -/
def compile (name input : Bytes) (verifier : Verifier := .off) : CompileReport :=
  match loadModule input verifier with
  | .error failure =>
    { messages := failure.warnings.toList.map unknownFunctionMessage
      outcome := .error (failure.fault.within .parse) }
  | .ok l =>
    let lowered : Ssa.Module := { name, functions := l.functions, intrinsics := l.intrinsics }
    { messages := l.warnings.toList.map unknownFunctionMessage ++ [compiledMessage l.table lowered]
      outcome := .ok { table := l.table, lowered } }

namespace Module

/-- The module after an attempt to compile. -/
def after (m : Module) (report : CompileReport) : Module :=
  match report.outcome with
  | .ok compiled => compiled
  | .error _ => m

/-- Whether the module has been compiled. -/
def isCompiled (m : Module) : Bool :=
  m.lowered.isSome

/-- The lowered functions, which exist once the module is compiled. -/
def getLowered (m : Module) : Except Fault Ssa.Module :=
  match m.lowered with
  | none => .error (.of .notCompiled)
  | some lowered => .ok lowered

/-- The number of intrinsics that the module declares. -/
def intrinsicCount (m : Module) : Nat :=
  (m.lowered.map fun lowered => lowered.intrinsics.count).getD 0

/-- The lowered function with a given index. There is none for an imported function. -/
def function (m : Module) (index : UInt32) : Except Fault (Option Ssa.Function) := do
  require (index.toNat < m.table.functions.size)
  let imported := m.table.importedCount .func
  if index < imported then return none
  else
    let lowered ← m.getLowered
    return lowered.find? (bodyName (index - imported).toNat)

/-- The lowered function that is exported under a name. There is none if the export is missing, is
    not a function, or is an imported function. -/
def exportedFunction (m : Module) (name : Bytes) : Except Fault (Option Ssa.Function) :=
  match m.table.findExport name with
  | some { kind := .func, index } => m.function index
  | _ => .ok none

end Module

end WasmLowering
