import WasmLowering.Leb128

/-!
# Frames

After its header a module is a sequence of frames: an id byte, and a payload behind its size. The
subsections of the name section are framed in the same way. A byte string is split into as many
frames as it has; if bytes are left that are no frame, the framing is incomplete.
-/

namespace WasmLowering

/-- An id and a payload. -/
structure Frame where
  id : UInt8
  payload : Bytes
  deriving Repr, DecidableEq

/-- The frames at the front of a byte string, and whether there is nothing after them. -/
structure Framing where
  frames : List Frame
  complete : Bool
  deriving Repr, DecidableEq

/-- Splits a byte string into frames. -/
def Framing.split : Bytes → Framing
  | [] => ⟨[], true⟩
  | id :: rest =>
    match h : Decoder.sized.run rest with
    | (.error _, _) => ⟨[], false⟩
    | (.ok payload, tail) =>
      have : tail.length ≤ rest.length := by
        simpa [h] using Decoder.sized.length_rest_le rest
      let framing := split tail
      ⟨⟨id, payload⟩ :: framing.frames, framing.complete⟩
termination_by input => input.length
decreasing_by
  simp only [List.length_cons]
  omega

end WasmLowering
