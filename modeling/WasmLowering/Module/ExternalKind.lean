/-!
# Kinds of external entries

Modules import and export functions, tables, memories and globals. Each kind has its own index
space. `PerKind` holds one value for each of the four kinds.
-/

namespace WasmLowering

/-- The kind of an entry that a module imports or exports. -/
inductive ExternalKind where
  | func
  | table
  | memory
  | global
  deriving Repr, DecidableEq

namespace ExternalKind

/-- The four kinds, in the order of their codes. -/
def all : List ExternalKind :=
  [func, table, memory, global]

/-- The kind with a given code. -/
def ofCode? : UInt8 → Option ExternalKind
  | 0 => some .func
  | 1 => some .table
  | 2 => some .memory
  | 3 => some .global
  | _ => none

/-- The code of a kind in the binary format. -/
def code : ExternalKind → UInt8
  | func => 0
  | table => 1
  | memory => 2
  | global => 3

theorem ofCode?_code (k : ExternalKind) : ofCode? k.code = some k := by
  cases k <;> rfl

/-- The name of a kind. -/
def name : ExternalKind → String
  | func => "func"
  | table => "table"
  | memory => "memory"
  | global => "global"

/-- The name of the kind with a given code; a question mark if there is no such kind. -/
def nameOfCode (code : UInt8) : String :=
  match ofCode? code with
  | none => "?"
  | some kind => kind.name

end ExternalKind

/-- One value for each kind of external entry. -/
structure PerKind (α : Type) where
  func : α
  table : α
  memory : α
  global : α
  deriving Repr, DecidableEq

namespace PerKind

/-- The same value for every kind. -/
def const {α : Type} (a : α) : PerKind α :=
  ⟨a, a, a, a⟩

/-- The value for one kind. -/
def get {α : Type} (p : PerKind α) : ExternalKind → α
  | .func => p.func
  | .table => p.table
  | .memory => p.memory
  | .global => p.global

/-- Replaces the value for one kind. -/
def set {α : Type} (p : PerKind α) (k : ExternalKind) (a : α) : PerKind α :=
  match k with
  | .func => { p with func := a }
  | .table => { p with table := a }
  | .memory => { p with memory := a }
  | .global => { p with global := a }

@[simp] theorem get_const {α : Type} (a : α) (k : ExternalKind) : (const a).get k = a := by
  cases k <;> rfl

theorem get_set {α : Type} (p : PerKind α) (k j : ExternalKind) (a : α) :
    (p.set k a).get j = if j = k then a else p.get j := by
  cases k <;> cases j <;> rfl

end PerKind

end WasmLowering
