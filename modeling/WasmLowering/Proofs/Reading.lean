import WasmLowering.Proofs.BinaryFormat
import WasmLowering.Proofs.Completion

/-!
# Reading operators one after another

What is read as an operator does not depend on what follows it, so that bytes behind an operator can
be exchanged. A stream is read operator by operator: when some operators have been read, the stream
goes on with what is left.

## Key results

- `operator_local`, `localRuns_local`: operators and declarations of locals may be followed by
  anything
- `read_of_reads`: a stream goes on behind operators that were read
-/

namespace WasmLowering

namespace Decoder

variable {α β : Type}

/-! ## Decoders that do not look ahead -/

/-- What the decoder makes of some bytes does not depend on what follows them. -/
def Local (d : Decoder α) : Prop :=
  ∀ input rest a, d.run input = (.ok a, rest) →
    ∃ bytes, input = bytes ++ rest ∧ ∀ other, d.run (bytes ++ other) = (.ok a, other)

/-- A constant is read from no bytes at all. -/
private theorem local_pure (a : α) : (pure a : Decoder α).Local := by
  intro input rest b h
  obtain ⟨hb, rfl⟩ := Prod.mk.inj h
  obtain rfl : a = b := Except.ok.inj hb
  exact ⟨[], rfl, fun other => rfl⟩

/-- Two decoders that do not look ahead make one that does not. -/
theorem Local.bind {d : Decoder α} {f : α → Decoder β} (hd : d.Local) (hf : ∀ a, (f a).Local) :
    (d >>= f).Local := by
  intro input rest b h
  obtain ⟨a, mid, ha, hb⟩ := run_bind_eq_ok.1 h
  obtain ⟨bytes, rfl, hbytes⟩ := hd _ _ _ ha
  obtain ⟨more, rfl, hmore⟩ := hf a _ _ _ hb
  -- The bytes of both parts; behind those of the first stand those of the second and then anything.
  refine ⟨bytes ++ more, by simp, fun other => ?_⟩
  rw [List.append_assoc]
  exact run_bind_eq_ok.2 ⟨a, more ++ other, hbytes _, hmore other⟩

private theorem local_fail (fault : Fault) : (fail fault : Decoder α).Local := by
  intro input rest a h
  simp [fail] at h

private theorem local_ofExcept (result : Except Fault α) : (ofExcept result).Local := by
  intro input rest a h
  obtain ⟨rfl, rfl⟩ := Prod.mk.inj h
  exact ⟨[], rfl, fun other => rfl⟩

private theorem local_check (condition : Bool) : (check condition).Local :=
  local_ofExcept _

/-- A byte is read the same whatever follows it. -/
private theorem local_byte : byte.Local := by
  intro input rest b h
  cases input with
  | nil => simp [byte] at h
  | cons c tail =>
    obtain ⟨hc, rfl⟩ := Prod.mk.inj h
    obtain rfl : c = b := Except.ok.inj hc
    exact ⟨[c], rfl, fun other => rfl⟩

/-- A run of bytes is read the same whatever follows it. -/
private theorem local_take (n : Nat) : (take n).Local := by
  intro input rest bytes h
  simp only [take] at h
  split at h
  · next hn =>
    obtain ⟨hb, rfl⟩ := Prod.mk.inj h
    obtain rfl : input.take n = bytes := Except.ok.inj hb
    -- The first `n` bytes are all that is looked at, and there are `n` of them before any other
    -- rest.
    have hlen : (input.take n).length = n := by simp [hn]
    refine ⟨input.take n, by simp, fun other => ?_⟩
    simp only [take, List.length_append, hlen]
    rw [if_pos (by omega), List.take_left' hlen, List.drop_left' hlen]
  · simp at h

private theorem local_unsigned {width : Nat} (hpos : 0 < width) : (unsigned width).Local := by
  intro input rest n h
  obtain ⟨bytes, rfl, form⟩ := (unsigned_run_iff hpos).1 h
  exact ⟨bytes, rfl, fun other => unsigned_run form hpos⟩

private theorem local_signed {width : Nat} (hpos : 0 < width) : (signed width).Local := by
  intro input rest n h
  obtain ⟨bytes, rfl, form⟩ := (signed_run_iff hpos).1 h
  exact ⟨bytes, rfl, fun other => signed_run form hpos (Nat.le_refl _)⟩

private theorem local_u32 : u32.Local :=
  (local_unsigned (by decide)).bind fun _ => local_pure _

private theorem local_valueType : valueType.Local :=
  local_byte.bind fun _ => local_ofExcept _

/-- A decoder may look at the next byte if it goes on to consume it. -/
private theorem local_peek {f : UInt8 → Decoder α} (hf : ∀ b, (f b).Local)
    (hnil : ∀ b a, (f b).run [] ≠ (.ok a, [])) : (peek >>= f).Local := by
  intro input rest a h
  cases input with
  | nil => simp [run_bind, peek] at h
  | cons b tail =>
    have hrun : (f b).run (b :: tail) = (.ok a, rest) := h
    obtain ⟨bytes, hbytes, hother⟩ := hf b _ _ _ hrun
    cases bytes with
    -- The decoder would have given its value on an empty input.
    | nil => exact absurd (hother []) (hnil b a)
    | cons c bytes =>
      obtain ⟨rfl, rfl⟩ := List.cons.inj hbytes
      exact ⟨b :: bytes, rfl, hother⟩

/-! ## Operators -/

/-- A block type is told by its first byte, which it then consumes. -/
private theorem blockType_local (types : Array FuncType) : (blockType types).Local := by
  refine local_peek (fun b => ?_) fun b a h => ?_
  · split
    · exact local_byte.bind fun _ => local_pure _
    · split
      · exact local_valueType.bind fun _ => local_pure _
      · refine (local_signed (by decide)).bind fun n => (local_check _).bind fun _ => ?_
        split
        · exact local_fail _
        · exact local_pure _
  · -- Without a byte to consume each of the three fails.
    split at h
    · obtain ⟨_, _, hb, -⟩ := run_bind_eq_ok.1 h
      simp [byte] at hb
    · split at h
      · obtain ⟨_, _, ht, -⟩ := run_bind_eq_ok.1 h
        simp [run_bind, byte, valueType] at ht
      · obtain ⟨_, _, hn, -⟩ := run_bind_eq_ok.1 h
        obtain ⟨bytes, hnil, form⟩ := (signed_run_iff (by decide)).1 hn
        obtain ⟨rfl, -⟩ := List.append_eq_nil_iff.1 hnil.symm
        cases form

private theorem localIndex_local (scope : BodyScope) : (localIndex scope).Local :=
  local_u32.bind fun _ => (local_check _).bind fun _ => local_pure _

private theorem miscOperator_local : miscOperator.Local := by
  refine local_u32.bind fun sub => ?_
  split <;> first | exact local_pure _ | exact local_fail _

private theorem plainOperator_local (opcode : UInt8) : (plainOperator opcode).Local := by
  unfold plainOperator
  split
  · exact local_pure _
  · split <;> exact local_fail _

/-- An operator is read the same whatever follows it. -/
theorem operator_local (scope : BodyScope) (opcode : UInt8) : (operator scope opcode).Local := by
  -- The cases are the operators in the order of their opcodes: constructs, branches, locals,
  -- constants.
  unfold operator
  split
  · exact (blockType_local _).bind fun _ => local_pure _
  · refine (blockType_local _).bind fun type => ?_
    split
    · exact local_pure _
    · exact local_fail _
  · exact (blockType_local _).bind fun _ => local_pure _
  · exact local_u32.bind fun _ => local_pure _
  · exact local_u32.bind fun _ => (local_check _).bind fun _ =>
      local_valueType.bind fun _ => local_pure _
  · exact (localIndex_local _).bind fun _ => local_pure _
  · exact (localIndex_local _).bind fun _ => local_pure _
  · exact (localIndex_local _).bind fun _ => local_pure _
  · exact ((local_signed (by decide)).bind fun _ => local_pure _).bind fun _ => local_pure _
  · exact ((local_signed (by decide)).bind fun _ => local_pure _).bind fun _ => local_pure _
  · exact ((local_take _).bind fun _ => local_pure _).bind fun _ => local_pure _
  · exact ((local_take _).bind fun _ => local_pure _).bind fun _ => local_pure _
  · exact miscOperator_local
  · exact plainOperator_local _

/-- The declaration of locals is read the same whatever follows it. -/
theorem localRuns_local : localRuns.Local := by
  -- The number of locals so far is checked against, but it is no part of the input.
  have run (declared : UInt32) : (localRun declared).Local :=
    local_u32.bind fun _ => local_valueType.bind fun _ => (local_check _).bind fun _ =>
      local_pure _
  have runs (n : Nat) (declared : UInt32) : (localRunsFrom n declared).Local := by
    induction n generalizing declared with
    | zero => exact local_pure _
    | succ n ih => exact (run _).bind fun _ => (ih _).bind fun _ => local_pure _
  exact local_u32.bind fun n => runs _ _

end Decoder

/-! ## Sequences of operators -/

/-- The operators are read one after another from the front of the input, and the rest is left. -/
inductive Reads (scope : BodyScope) : Bytes → List (UInt8 × Operator) → Bytes → Prop where
  | nil (input : Bytes) : Reads scope input [] input
  | cons {opcode : UInt8} {input mid rest : Bytes} {op : Operator} {ops : List (UInt8 × Operator)}
      (first : (Decoder.operator scope opcode).run input = (.ok op, mid))
      (more : Reads scope mid ops rest) : Reads scope (opcode :: input) ((opcode, op) :: ops) rest

section Reads

variable {scope : BodyScope} {input rest : Bytes} {ops : List (UInt8 × Operator)}

/-- Operators are read the same whatever follows them. -/
theorem Reads.exchange (h : Reads scope input ops rest) :
    ∃ bytes, input = bytes ++ rest ∧ ∀ other, Reads scope (bytes ++ other) ops other := by
  induction h with
  | nil input => exact ⟨[], rfl, .nil⟩
  | @cons opcode input mid rest op ops first more ih =>
    obtain ⟨bytes, rfl, hbytes⟩ := Decoder.operator_local scope opcode _ _ _ first
    obtain ⟨tail, rfl, htail⟩ := ih
    refine ⟨opcode :: (bytes ++ tail), by simp, fun other => ?_⟩
    -- The operator is read the same before the exchanged rest, and so are those behind it.
    rw [List.cons_append, List.append_assoc]
    exact .cons (hbytes _) (htail other)

/-- A stream that starts with an operator inside the body goes on behind it. -/
theorem read_cons {depth deeper : Nat} {last opcode : UInt8} {op : Operator} {tail : Bytes}
    (h : (Decoder.operator scope opcode).run input = (.ok op, tail))
    (hnest : op.nesting depth = some deeper) :
    OperatorStream.read scope depth last (opcode :: input) =
      ⟨(opcode, op) :: (OperatorStream.read scope deeper opcode tail).operators,
        (OperatorStream.read scope deeper opcode tail).stop⟩ := by
  rw [OperatorStream.read]
  split
  -- The operator was read, so the case of a fault is not the one taken.
  · next heq => simp [h] at heq
  · next op' tail' heq =>
    obtain ⟨hop, rfl⟩ := Prod.mk.inj (h.symm.trans heq)
    obtain rfl := Except.ok.inj hop
    simp only [hnest]

/-- The operator that closes the body ends the stream, and bytes behind it are a fault. -/
theorem read_closed {depth : Nat} {last opcode : UInt8} {op : Operator} {tail : Bytes}
    (h : (Decoder.operator scope opcode).run input = (.ok op, tail))
    (hnest : op.nesting depth = none) :
    OperatorStream.read scope depth last (opcode :: input) =
      ⟨[(opcode, op)], if tail.isEmpty then none else some (opcode, .malformed)⟩ := by
  rw [OperatorStream.read]
  split
  · next heq => simp [h] at heq
  · next op' tail' heq =>
    obtain ⟨hop, rfl⟩ := Prod.mk.inj (h.symm.trans heq)
    obtain rfl := Except.ok.inj hop
    simp only [hnest]

/-- A stream goes on behind operators that were read. -/
theorem read_of_reads {depth deeper : Nat} (h : Reads scope input ops rest)
    (hnest : Operator.nestings (some depth) (ops.map Prod.snd) = some deeper) (last : UInt8) :
    ∃ opcode, OperatorStream.read scope depth last input =
      ⟨ops ++ (OperatorStream.read scope deeper opcode rest).operators,
        (OperatorStream.read scope deeper opcode rest).stop⟩ := by
  induction h generalizing depth last with
  | nil input =>
    obtain rfl : depth = deeper := by simpa using hnest
    exact ⟨last, rfl⟩
  | @cons opcode input mid rest op ops first more ih =>
    rw [List.map_cons, Operator.nestings_cons, Option.bind_some] at hnest
    cases hop : op.nesting depth with
    -- Operators that lead to a depth do not close the body on the way.
    | none => simp [hop, Operator.nestings_none] at hnest
    | some d =>
      rw [hop] at hnest
      obtain ⟨opcode', hread⟩ := ih hnest opcode
      exact ⟨opcode', by rw [read_cons first hop, hread]; rfl⟩

/-- What was read last matters only for where a fault is reported. -/
theorem read_last (depth : Nat) (last other : UInt8) (input : Bytes) :
    (OperatorStream.read scope depth last input).operators =
        (OperatorStream.read scope depth other input).operators ∧
      ((OperatorStream.read scope depth last input).stop = none ↔
        (OperatorStream.read scope depth other input).stop = none) := by
  cases input with
  | nil => simp [OperatorStream.read]
  | cons opcode tail =>
    rw [OperatorStream.read, OperatorStream.read]
    exact ⟨rfl, .rfl⟩

end Reads

/-! ## Bodies -/

/-- What the operators of a body with given runs of locals may refer to. -/
def bodyScope (types : Array FuncType) (type : FuncType) (runs : List LocalRun) : BodyScope :=
  { types, localCount := type.params.length + (expandRuns runs).length }

theorem Body.read_eq {types : Array FuncType} {type : FuncType} {input body : Bytes}
    {runs : List LocalRun} (h : Decoder.localRuns.run input = (.ok runs, body)) :
    Body.read types type.params input = .ok
      { locals := expandRuns runs, stream := .read (bodyScope types type runs) 0 0 body } := by
  simp only [Body.read, h]
  rfl

end WasmLowering
