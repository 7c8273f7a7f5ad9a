import WasmLowering.JsonValue

/-!
# JSON text

The text of a JSON value, with one item to a line. The fields of an object stand in increasing order
of their keys. Inside a text, quotes, backslashes and control characters are escaped, and all other
bytes stand for themselves.
-/

namespace WasmLowering

namespace JsonValue

/-- The escape of a byte inside a text. -/
def escapeByte (b : UInt8) : Bytes :=
  if b = 0x22 then .ofString "\\\""
  else if b = 0x5C then .ofString "\\\\"
  else if b = 0x08 then .ofString "\\b"
  else if b = 0x09 then .ofString "\\t"
  else if b = 0x0A then .ofString "\\n"
  else if b = 0x0C then .ofString "\\f"
  else if b = 0x0D then .ofString "\\r"
  else if b < 0x20 then .ofString ("\\u" ++ hexDigits 4 b.toNat)
  else [b]

/-- A text between quotes. -/
def quote (s : Bytes) : Bytes :=
  .ofString "\"" ++ s.flatMap escapeByte ++ .ofString "\""

/-- A line feed, and the indentation of `depth` levels of four blanks. -/
def newline (depth : Nat) : Bytes :=
  .ofString "\n" ++ .ofString (String.ofList (List.replicate (4 * depth) ' '))

/-- Items between two brackets, `depth` levels deep, each on a line of its own. -/
def enclose (opening closing : String) (depth : Nat) (items : List Bytes) : Bytes :=
  if items.isEmpty then .ofString (opening ++ closing)
  else
    .ofString opening ++ newline (depth + 1) ++
      (Bytes.ofString "," ++ newline (depth + 1)).intercalate items ++
      newline depth ++ .ofString closing

mutual

/-- The text of a value that stands `depth` levels deep. -/
def textAt (depth : Nat) : JsonValue → Bytes
  | null => .ofString "null"
  | bool value => .ofString (if value then "true" else "false")
  | number value => .ofNat value
  | text value => quote value
  | array items => enclose "[" "]" depth (itemTexts (depth + 1) items)
  | object fields =>
    let texts := fieldTexts (depth + 1) fields
    let sorted := texts.mergeSort fun a b => a.1 ≤ b.1
    enclose "\x7b" "\x7d" depth (sorted.map fun (key, value) =>
      quote key ++ .ofString ": " ++ value)

/-- The texts of the items of an array. -/
def itemTexts (depth : Nat) : List JsonValue → List Bytes
  | [] => []
  | item :: items => textAt depth item :: itemTexts depth items

/-- The keys of an object, with the texts of their values. -/
def fieldTexts (depth : Nat) : List (Bytes × JsonValue) → List (Bytes × Bytes)
  | [] => []
  | (key, value) :: fields => (key, textAt depth value) :: fieldTexts depth fields

end

/-- The text of a value. -/
def toText (j : JsonValue) : Bytes :=
  j.textAt 0

end JsonValue

end WasmLowering
