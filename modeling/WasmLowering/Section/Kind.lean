/-!
# Section kinds

A binary module is a sequence of sections, each marked by an id byte. The known ids are `0` to `12`.
-/

namespace WasmLowering

/-- What a section of a binary module describes. -/
inductive SectionKind where
  | custom
  | types
  | imports
  | functions
  | tables
  | memories
  | globals
  | exports
  | start
  | elements
  | code
  | data
  | dataCount
  deriving Repr, DecidableEq

namespace SectionKind

/-- The kind marked by an id byte. -/
def ofId? : UInt8 → Option SectionKind
  | 0 => some .custom
  | 1 => some .types
  | 2 => some .imports
  | 3 => some .functions
  | 4 => some .tables
  | 5 => some .memories
  | 6 => some .globals
  | 7 => some .exports
  | 8 => some .start
  | 9 => some .elements
  | 10 => some .code
  | 11 => some .data
  | 12 => some .dataCount
  | _ => none

/-- The id byte of a kind. -/
def id : SectionKind → UInt8
  | custom => 0
  | types => 1
  | imports => 2
  | functions => 3
  | tables => 4
  | memories => 5
  | globals => 6
  | exports => 7
  | start => 8
  | elements => 9
  | code => 10
  | data => 11
  | dataCount => 12

theorem ofId?_id (k : SectionKind) : ofId? k.id = some k := by
  cases k <;> rfl

/-- Only custom sections have the id zero. -/
theorem id_ne_zero {k : SectionKind} (hk : k ≠ .custom) : k.id ≠ 0 := by
  cases k with
  | custom => exact absurd rfl hk
  | _ => decide

/-- The name of a kind in diagnostics. -/
def name : SectionKind → String
  | custom => "Custom"
  | types => "Type"
  | imports => "Import"
  | functions => "Funcs"
  | tables => "Table"
  | memories => "Memory"
  | globals => "Global"
  | exports => "Export"
  | start => "Start"
  | elements => "Element"
  | code => "Code"
  | data => "Data"
  | dataCount => "DataCount"

end SectionKind

/-- The place of a section id in a module: sections other than custom ones come in increasing rank.
    The data count stands between the element and the code section. -/
def sectionRank (id : UInt8) : Nat :=
  if id = 12 then 19 else 2 * id.toNat

end WasmLowering
