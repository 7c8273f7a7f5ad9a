import WasmLowering.Bytes

/-!
# JSON values

The value tree in which a module table is dumped. Texts and keys are byte strings, and numbers are
natural numbers of any size.
-/

namespace WasmLowering

/-- A JSON value. -/
inductive JsonValue where
  | null
  | bool (value : Bool)
  | number (value : Nat)
  | text (value : Bytes)
  | array (items : List JsonValue)
  | object (fields : List (Bytes × JsonValue))
  deriving Repr, Inhabited

namespace JsonValue

/-- A text given as a string. -/
def ofString (s : String) : JsonValue :=
  .text (.ofString s)

/-- The value of an index or a count. -/
def ofUInt32 (n : UInt32) : JsonValue :=
  .number n.toNat

/-- The value, or null if there is none. -/
def ofOption {α : Type} (f : α → JsonValue) : Option α → JsonValue
  | none => .null
  | some a => f a

/-- An object with keys given as strings. -/
def record (fields : List (String × JsonValue)) : JsonValue :=
  .object (fields.map fun (key, value) => (.ofString key, value))

end JsonValue

end WasmLowering
