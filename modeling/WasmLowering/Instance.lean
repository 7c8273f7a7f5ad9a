import WasmLowering.Module.Compile

/-!
# Instances

The host binds values to pairs of a module name and an entry name. An instance of a module resolves
every import against these bindings, and keeps the values it found.
-/

namespace WasmLowering

/-- A value that the host provides. -/
structure Binding where
  kind : ExternalKind
  value : UInt64
  deriving Repr, DecidableEq

/-- The bindings of the host, by module name and entry name, each pair once. -/
abbrev Bindings := List ((Bytes × Bytes) × Binding)

namespace Bindings

/-- Adds a binding, in place of one for the same names. -/
def insert (key : Bytes × Bytes) (b : Binding) : Bindings → Bindings
  | [] => [(key, b)]
  | (other, x) :: rest =>
    if key = other then (key, b) :: rest else (other, x) :: insert key b rest

/-- The binding for a module name and an entry name. -/
def find? (bs : Bindings) (key : Bytes × Bytes) : Option Binding :=
  bs.lookup key

end Bindings

/-- The value bound to an import of a kind. -/
def resolveImport (bs : Bindings) (kind : ExternalKind) (i : Import) : Except Fault UInt64 :=
  match bs.find? (i.module, i.name) with
  | none => .error (.of (.missingImport kind i.module i.name))
  | some b =>
    if b.kind = kind then .ok b.value
    else .error (.of (.importKindMismatch kind i.module i.name))

/-- The values bound to the imports of a kind. -/
def resolveKind (bs : Bindings) (table : ModuleTable) (kind : ExternalKind) :
    Except Fault (List UInt64) :=
  (table.imports.get kind).toList.mapM (resolveImport bs kind)

/-- An instance: the values bound to the imports of each kind. -/
structure Instance where
  bindings : PerKind (List UInt64)
  deriving Repr, DecidableEq

namespace Instance

/-- Makes an instance of a module. -/
def create (m : Module) (bs : Bindings) : Except Fault Instance :=
  inContext .instantiate do
    let func ← resolveKind bs m.table .func
    let table ← resolveKind bs m.table .table
    let memory ← resolveKind bs m.table .memory
    let global ← resolveKind bs m.table .global
    return { bindings := { func, table, memory, global } }

/-- The value bound to an import of a kind. -/
def binding (i : Instance) (kind : ExternalKind) (index : UInt32) : Except Fault UInt64 :=
  match (i.bindings.get kind)[index.toNat]? with
  | none => .error .malformed
  | some value => .ok value

end Instance

end WasmLowering
