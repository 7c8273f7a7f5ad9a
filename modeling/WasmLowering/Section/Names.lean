import WasmLowering.Module.Table
import WasmLowering.Section.Frame

/-!
# The name section

A custom section called `name` gives debug names. Its rest is framed; the frame with id 1 names
functions. Names are applied one by one, so those before a broken one count, and a name for a
function that does not exist is only worth a warning.
-/

namespace WasmLowering

/-- Names of functions by index, and whether all that were announced could be read. -/
structure NameMap where
  names : List (UInt32 × Bytes)
  complete : Bool
  deriving Repr, DecidableEq

/-- The index of a function and its name. -/
def Decoder.functionName : Decoder (UInt32 × Bytes) := do
  let index ← u32
  let name ← sized
  return (index, name)

namespace NameMap

/-- The first `count` names of the input. -/
def read : Nat → Bytes → NameMap
  | 0, _ => ⟨[], true⟩
  | count + 1, input =>
    match Decoder.functionName.run input with
    | (.error _, _) => ⟨[], false⟩
    | (.ok entry, rest) =>
      let map := read count rest
      ⟨entry :: map.names, map.complete⟩

/-- The names in the payload of a frame. -/
def ofPayload (payload : Bytes) : NameMap :=
  match Decoder.u32.run payload with
  | (.error _, _) => ⟨[], false⟩
  | (.ok count, rest) => read count.toNat rest

/-- The names in the frames with id 1, up to the first that cannot be read. -/
def ofFrames : List Frame → NameMap
  | [] => ⟨[], true⟩
  | frame :: frames =>
    if frame.id = 1 then
      let map := ofPayload frame.payload
      if map.complete then
        let others := ofFrames frames
        ⟨map.names ++ others.names, others.complete⟩
      else map
    else ofFrames frames

/-- The names in the rest of a name section. -/
def ofSection (rest : Bytes) : NameMap :=
  let framing := Framing.split rest
  let map := ofFrames framing.frames
  ⟨map.names, map.complete && framing.complete⟩

end NameMap

/-- Applies a name. If there is no such function, its index is added to the warnings. -/
def applyName (acc : ModuleTable × Array UInt32) (entry : UInt32 × Bytes) :
    ModuleTable × Array UInt32 :=
  match (TableBuilder.setFunctionName entry.1 entry.2).run acc.1 with
  | .ok _ table => (table, acc.2)
  | .error _ table => (table, acc.2.push entry.1)

end WasmLowering
