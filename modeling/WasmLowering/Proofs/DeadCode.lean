import WasmLowering.Proofs.Reading

/-!
# Dead code

Code that cannot be reached is read and checked like any other code, but it leaves no trace: the
lowering only counts the constructs that it opens and closes. So a sequence of operators that closes
what it opens may be taken out of a body where the body cannot be reached, and what can go wrong in
such a sequence is a matter of reading it.

## Key results

- `steps_dead`: dead code changes nothing but the number of open constructs in it
- `dead_since`: where code is dead, what was opened since it became so is what is counted
- `operator_fault`: why an operator cannot be read
- `dead_code_inert`: both, and that dead code can be taken out of a body
-/

namespace WasmLowering

/-! ## Why an operator cannot be read -/

/-- No natural number of `width` bits is at the front of the input. -/
def NoUnsigned (width : Nat) (input : Bytes) : Prop :=
  ∀ n bytes rest, UnsignedForm width n bytes → input ≠ bytes ++ rest

/-- No integer of `width` bits is at the front of the input. -/
def NoSigned (width : Nat) (input : Bytes) : Prop :=
  ∀ n bytes rest, SignedForm width n bytes → input ≠ bytes ++ rest

/-- Why the input does not start with a value type. -/
inductive ValueTypeFault : Bytes → Fault → Prop where
  | truncated : ValueTypeFault [] .malformed
  | unknown {code : UInt8} {rest : Bytes} (unknown : (ValueType.ofCode code).isKnown = false) :
      ValueTypeFault (code :: rest) (.of (.valueType code))

/-- Why the input does not start with a block type. -/
inductive BlockTypeFault (types : Array FuncType) : Bytes → Fault → Prop where
  | truncated : BlockTypeFault types [] .malformed
  /-- A byte between those that say that there is no result and those that start an index. -/
  | unknown {code : UInt8} {rest : Bytes} (range : 0x40 < code.toNat ∧ code.toNat < 0x80)
      (unknown : (ValueType.ofCode code).isKnown = false) :
      BlockTypeFault types (code :: rest) (.of (.valueType code))
  | malformed {input : Bytes} (none : NoSigned 64 input) : BlockTypeFault types input .malformed
  | outOfRange {n : Int} {bytes rest : Bytes} (form : SignedForm 64 n bytes)
      (range : n < 0 ∨ types.size ≤ n.toNat) : BlockTypeFault types (bytes ++ rest) .malformed

/-- The opcodes of the operators with immediates. -/
def immediateOpcodes : List UInt8 :=
  [0x02, 0x03, 0x04, 0x0C, 0x1C, 0x20, 0x21, 0x22, 0x41, 0x42, 0x43, 0x44, 0xFC]

/-- Why the input does not start with the immediates of an operator. -/
inductive OperatorFault (scope : BodyScope) : UInt8 → Bytes → Fault → Prop where
  /-- An operator that is not lowered. -/
  | unsupported {opcode : UInt8} {input : Bytes} {name : String}
      (known : (opcode, name) ∈ unsupportedOperators) :
      OperatorFault scope opcode input (.of (.instruction name))
  /-- An opcode that has no meaning. -/
  | unknown {opcode : UInt8} {input : Bytes} (plain : ∀ op, (opcode, op) ∉ plainOperators)
      (unsupported : ∀ name, (opcode, name) ∉ unsupportedOperators)
      (immediate : opcode ∉ immediateOpcodes) :
      OperatorFault scope opcode input (.of (.unknownOpcode opcode))
  /-- An operator behind the miscellaneous opcode that is not lowered or has no meaning. -/
  | misc {sub : UInt32} {bytes rest : Bytes} (form : UnsignedForm 32 sub.toNat bytes)
      (range : 8 ≤ sub.toNat) :
      OperatorFault scope 0xFC (bytes ++ rest)
        (.of (if sub ≤ 17 then .bulkMemory sub else .unknownMisc sub))
  /-- A number that is malformed or truncated. -/
  | number {opcode : UInt8} {input : Bytes}
      (mem : opcode ∈ [0x0C, 0x1C, 0x20, 0x21, 0x22, 0xFC]) (none : NoUnsigned 32 input) :
      OperatorFault scope opcode input .malformed
  | outOfRange {opcode : UInt8} {index : UInt32} {bytes rest : Bytes}
      (mem : opcode ∈ [0x20, 0x21, 0x22]) (form : UnsignedForm 32 index.toNat bytes)
      (range : scope.localCount ≤ index.toNat) :
      OperatorFault scope opcode (bytes ++ rest) .malformed
  /-- A selection between more or fewer than one pair of operands. -/
  | arity {n : UInt32} {bytes rest : Bytes} (form : UnsignedForm 32 n.toNat bytes) (ne : n ≠ 1) :
      OperatorFault scope 0x1C (bytes ++ rest) .malformed
  | selectType {bytes rest : Bytes} {fault : Fault} (form : UnsignedForm 32 1 bytes)
      (type : ValueTypeFault rest fault) : OperatorFault scope 0x1C (bytes ++ rest) fault
  | i32Const {input : Bytes} (none : NoSigned 32 input) : OperatorFault scope 0x41 input .malformed
  | i64Const {input : Bytes} (none : NoSigned 64 input) : OperatorFault scope 0x42 input .malformed
  | f32Const {input : Bytes} (short : input.length < 4) : OperatorFault scope 0x43 input .malformed
  | f64Const {input : Bytes} (short : input.length < 8) : OperatorFault scope 0x44 input .malformed
  | blockType {opcode : UInt8} {input : Bytes} {fault : Fault} (mem : opcode ∈ [0x02, 0x03, 0x04])
      (type : BlockTypeFault scope.types input fault) : OperatorFault scope opcode input fault
  | loopParams {n : Nat} {type : FuncType} {bytes rest : Bytes} (form : SignedForm 64 n bytes)
      (entry : scope.types[n]? = some type) (params : type.params ≠ []) :
      OperatorFault scope 0x03 (bytes ++ rest) (.of .loopParams)

section Faults

variable {input rest : Bytes} {fault : Fault}

/-- What is no natural number is malformed. -/
private theorem unsigned_fault {width : Nat} (hpos : 0 < width)
    (h : (Decoder.unsigned width).run input = (.error fault, rest)) :
    fault = .malformed ∧ NoUnsigned width input := by
  constructor
  · obtain h | ⟨w, mid, -, h⟩ := Decoder.run_bind_eq_error.1 h
    · exact word_fault h
    · simp at h
  · rintro n bytes tail form rfl
    simp [unsigned_run form hpos] at h

private theorem signed_fault {width : Nat} (hpos : 0 < width)
    (h : (Decoder.signed width).run input = (.error fault, rest)) :
    fault = .malformed ∧ NoSigned width input := by
  constructor
  · obtain h | ⟨w, mid, -, h⟩ := Decoder.run_bind_eq_error.1 h
    · exact word_fault h
    · simp at h
  · rintro n bytes tail form rfl
    simp [signed_run form hpos (Nat.le_refl _)] at h

/-- What is no number of 32 bits is malformed. -/
theorem u32_fault (h : Decoder.u32.run input = (.error fault, rest)) :
    fault = .malformed ∧ NoUnsigned 32 input := by
  obtain h | ⟨n, mid, -, h⟩ := Decoder.run_bind_eq_error.1 h
  · exact unsigned_fault (by decide) h
  · simp at h

/-- A check that fails is reported as malformed input. -/
theorem check_fault {condition : Bool}
    (h : (Decoder.check condition).run input = (.error fault, rest)) :
    fault = .malformed ∧ condition = false := by
  cases condition with
  | true => simp [Decoder.check, Decoder.ofExcept, require] at h
  | false => exact ⟨(Except.error.inj (Prod.mk.inj h).1).symm, rfl⟩

private theorem littleEndian_fault {size : Nat}
    (h : (Decoder.littleEndian size).run input = (.error fault, rest)) :
    fault = .malformed ∧ input.length < size := by
  obtain h | ⟨bytes, mid, -, h⟩ := Decoder.run_bind_eq_error.1 h
  · simp only [Decoder.take] at h
    split at h
    · simp at h
    · next hlen => exact ⟨(Except.error.inj (Prod.mk.inj h).1).symm, by omega⟩
  · simp at h

/-- Why a value type cannot be read. -/
theorem valueType_fault (h : Decoder.valueType.run input = (.error fault, rest)) :
    ValueTypeFault input fault := by
  cases input with
  | nil =>
    obtain rfl := Except.error.inj (Prod.mk.inj h).1
    exact .truncated
  | cons code tail =>
    -- A byte is there, so it is the code of no known type.
    have h : (ValueType.ofKnownCode code, tail) = (.error fault, rest) := h
    simp only [ValueType.ofKnownCode] at h
    split at h
    · simp at h
    · next hknown =>
      obtain rfl := Except.error.inj (Prod.mk.inj h).1
      exact .unknown (by simpa using hknown)

/-- The bytes between those that say that there is no result and those that start an index. -/
private theorem range_of_mask (b : UInt8) (hb : b ≠ 0x40)
    (h : (b &&& 0x40 != 0 && b &&& 0x80 == 0) = true) : 0x40 < b.toNat ∧ b.toNat < 0x80 := by
  have all : ∀ n : Fin 256, UInt8.ofNat n ≠ 0x40 →
      (UInt8.ofNat n &&& 0x40 != 0 && UInt8.ofNat n &&& 0x80 == 0) = true →
        0x40 < (UInt8.ofNat n).toNat ∧ (UInt8.ofNat n).toNat < 0x80 := by decide +kernel
  have := all ⟨b.toNat, b.toNat_lt⟩
  rw [UInt8.ofNat_toNat] at this
  exact this hb h

/-- Why a block type cannot be read. -/
private theorem blockType_fault {types : Array FuncType}
    (h : (Decoder.blockType types).run input = (.error fault, rest)) :
    BlockTypeFault types input fault := by
  cases input with
  | nil =>
    obtain rfl := Except.error.inj (Prod.mk.inj h).1
    exact .truncated
  | cons b tail =>
    obtain h | ⟨c, mid, hpeek, h⟩ := Decoder.run_bind_eq_error.1 h
    · simp [Decoder.peek] at h
    obtain ⟨hc, rfl⟩ := Prod.mk.inj hpeek
    obtain rfl : b = c := Except.ok.inj hc
    -- The byte for no result has been seen already, so it can be read.
    split at h
    · obtain h | ⟨_, _, -, h⟩ := Decoder.run_bind_eq_error.1 h
      · simp [Decoder.byte] at h
      · simp at h
    -- A value type fails if its byte is unknown.
    split at h
    · next hne hmask =>
      obtain h | ⟨_, _, -, h⟩ := Decoder.run_bind_eq_error.1 h
      · cases valueType_fault h with
        | unknown unknown => exact .unknown (range_of_mask b (by simpa using hne) hmask) unknown
      · simp at h
    -- An index fails as an integer, as a negative one, or as one that no type has.
    · obtain h | ⟨n, mid, hn, h⟩ := Decoder.run_bind_eq_error.1 h
      · obtain ⟨rfl, none⟩ := signed_fault (by decide) h
        exact .malformed none
      obtain ⟨bytes, hbytes, form⟩ := (signed_run_iff (by decide)).1 hn
      rw [hbytes]
      obtain h | ⟨_, mid', hcheck, h⟩ := Decoder.run_bind_eq_error.1 h
      · obtain ⟨rfl, hneg⟩ := check_fault h
        exact .outOfRange form (.inl (by simpa using hneg))
      · split at h
        · next hnone =>
          obtain rfl := Except.error.inj (Prod.mk.inj h).1
          exact .outOfRange form (.inr (by simpa using hnone))
        · simp at h

/-- A block type with parameters is one of the function types. -/
private theorem blockType_params {types : Array FuncType} {type : FuncType}
    (h : (Decoder.blockType types).run input = (.ok type, rest)) (params : type.params ≠ []) :
    ∃ (n : Nat) (bytes : Bytes), input = bytes ++ rest ∧ SignedForm 64 n bytes ∧
      types[n]? = some type := by
  obtain ⟨b, mid, hpeek, h⟩ := Decoder.run_bind_eq_ok.1 h
  have hmid : mid = input := by
    cases input with
    | nil => simp [Decoder.peek] at hpeek
    | cons c tail => exact (Prod.mk.inj hpeek).2.symm
  rw [hmid] at h
  -- No result and a single result come without parameters.
  split at h
  · obtain ⟨_, _, -, h⟩ := Decoder.run_bind_eq_ok.1 h
    obtain rfl := Except.ok.inj (Prod.mk.inj h).1
    exact absurd rfl params
  split at h
  · obtain ⟨_, _, -, h⟩ := Decoder.run_bind_eq_ok.1 h
    obtain rfl := Except.ok.inj (Prod.mk.inj h).1
    exact absurd rfl params
  · obtain ⟨n, mid, hn, hindex⟩ := Decoder.run_bind_eq_ok.1 h
    obtain ⟨bytes, hbytes, form⟩ := (signed_run_iff (by decide)).1 hn
    obtain ⟨_, mid', hcheck, hentry⟩ := Decoder.run_bind_eq_ok.1 hindex
    obtain ⟨hnonneg, rfl⟩ := Decoder.check_run hcheck
    have hcast : (n.toNat : Int) = n := Int.toNat_of_nonneg (by simpa using hnonneg)
    split at hentry
    · simp [Decoder.fail] at hentry
    · next entry =>
      obtain ⟨htype, rfl⟩ := Prod.mk.inj hentry
      obtain rfl := Except.ok.inj htype
      exact ⟨n.toNat, bytes, hbytes, hcast ▸ form, entry⟩

/-- Why the index of a local cannot be read: it is no number, or no local has it. -/
private theorem localIndex_fault {scope : BodyScope} {opcode : UInt8}
    (mem : opcode ∈ ([0x20, 0x21, 0x22] : List UInt8))
    (h : (Decoder.localIndex scope).run input = (.error fault, rest)) :
    OperatorFault scope opcode input fault := by
  obtain hnumber | ⟨index, mid, hindex, hcheck⟩ := Decoder.run_bind_eq_error.1 h
  · obtain ⟨rfl, none⟩ := u32_fault hnumber
    refine .number ?_ none
    simp only [List.mem_cons] at mem ⊢
    tauto
  -- The index can be read, so it is out of range.
  obtain ⟨bytes, rfl, form⟩ := u32_run_iff.1 hindex
  obtain hcheck | ⟨_, _, -, hpure⟩ := Decoder.run_bind_eq_error.1 hcheck
  · obtain ⟨rfl, range⟩ := check_fault hcheck
    exact .outOfRange mem form (by simpa using range)
  · simp at hpure

/-- Why an operator with a second opcode cannot be read. -/
private theorem miscOperator_fault {scope : BodyScope}
    (h : Decoder.miscOperator.run input = (.error fault, rest)) :
    OperatorFault scope 0xFC input fault := by
  obtain hnumber | ⟨sub, mid, hsub, hmisc⟩ := Decoder.run_bind_eq_error.1 h
  · obtain ⟨rfl, none⟩ := u32_fault hnumber
    exact .number (by decide) none
  obtain ⟨bytes, rfl, form⟩ := u32_run_iff.1 hsub
  split at hmisc
  case h_9 h0 h1 h2 h3 h4 h5 h6 h7 =>
    obtain rfl := Except.error.inj (Prod.mk.inj hmisc).1
    refine .misc form ?_
    -- All numbers below the bound belong to conversions.
    by_contra hlt
    have hsub := @UInt32.ofNat_toNat sub
    interval_cases sub.toNat <;> simp_all
  all_goals simp at hmisc

/-- Why an operator without immediates cannot be read: its opcode is unsupported or unknown. -/
private theorem plainOperator_fault {scope : BodyScope} {opcode : UInt8}
    (immediate : opcode ∉ immediateOpcodes)
    (h : (Decoder.plainOperator opcode).run input = (.error fault, rest)) :
    OperatorFault scope opcode input fault := by
  unfold Decoder.plainOperator at h
  split at h
  · simp at h
  · next hplain =>
    -- The opcode may be known although it is not lowered.
    split at h
    · next name hname =>
      obtain rfl := Except.error.inj (Prod.mk.inj h).1
      obtain ⟨before, after, hmem, -⟩ := List.lookup_eq_some_iff.1 hname
      exact .unsupported (by simp [hmem])
    · next hunsupported =>
      obtain rfl := Except.error.inj (Prod.mk.inj h).1
      exact .unknown (fun op hop => by simpa using List.lookup_eq_none_iff.1 hplain _ hop)
        (fun name hname => by simpa using List.lookup_eq_none_iff.1 hunsupported _ hname) immediate

/-- An operator that cannot be read has a fault in its opcode or its immediates. -/
theorem operator_fault {scope : BodyScope} {opcode : UInt8}
    (h : (Decoder.operator scope opcode).run input = (.error fault, rest)) :
    OperatorFault scope opcode input fault := by
  -- An operator with one immediate fails only where this is read.
  have single {α : Type} {d : Decoder α} {f : α → Operator}
      (h : (d >>= fun a => pure (f a)).run input = (.error fault, rest)) :
      d.run input = (.error fault, rest) := by
    obtain h | ⟨_, _, -, h⟩ := Decoder.run_bind_eq_error.1 h
    · exact h
    · simp at h
  unfold Decoder.operator at h
  split at h
  · exact .blockType (by decide) (blockType_fault (single h))
  · obtain htype | ⟨type, mid, htype, hparams⟩ := Decoder.run_bind_eq_error.1 h
    · exact .blockType (by decide) (blockType_fault htype)
    -- The type can be read, and is refused for its parameters.
    · split at hparams
      · simp at hparams
      · next params =>
        obtain ⟨n, bytes, rfl, form, entry⟩ := blockType_params htype (by simpa using params)
        obtain rfl := Except.error.inj (Prod.mk.inj hparams).1
        exact .loopParams form entry (by simpa using params)
  · exact .blockType (by decide) (blockType_fault (single h))
  · obtain ⟨rfl, none⟩ := u32_fault (single h)
    exact .number (by decide) none
  -- A typed selection fails in its count or in its type.
  · obtain hnumber | ⟨n, mid, hn, harity⟩ := Decoder.run_bind_eq_error.1 h
    · obtain ⟨rfl, none⟩ := u32_fault hnumber
      exact .number (by decide) none
    obtain ⟨bytes, rfl, form⟩ := u32_run_iff.1 hn
    obtain hcheck | ⟨_, mid', hcheck, htype⟩ := Decoder.run_bind_eq_error.1 harity
    · obtain ⟨rfl, ne⟩ := check_fault hcheck
      exact .arity form (by simpa using ne)
    obtain ⟨hone, rfl⟩ := Decoder.check_run hcheck
    obtain rfl : n = 1 := by simpa using hone
    obtain htype | ⟨_, _, -, hpure⟩ := Decoder.run_bind_eq_error.1 htype
    · exact .selectType form (valueType_fault htype)
    · simp at hpure
  · exact localIndex_fault (by decide) (single h)
  · exact localIndex_fault (by decide) (single h)
  · exact localIndex_fault (by decide) (single h)
  · obtain h | ⟨_, _, -, h⟩ := Decoder.run_bind_eq_error.1 (single h)
    · obtain ⟨rfl, none⟩ := signed_fault (by decide) h
      exact .i32Const none
    · simp at h
  · obtain h | ⟨_, _, -, h⟩ := Decoder.run_bind_eq_error.1 (single h)
    · obtain ⟨rfl, none⟩ := signed_fault (by decide) h
      exact .i64Const none
    · simp at h
  · obtain ⟨rfl, short⟩ := littleEndian_fault (single h)
    exact .f32Const short
  · obtain ⟨rfl, short⟩ := littleEndian_fault (single h)
    exact .f64Const short
  · exact miscOperator_fault h
  · exact plainOperator_fault (by simp_all [immediateOpcodes]) h

/-- The input can be read up to an operator that cannot be read, or up to its end. -/
def Unreadable (scope : BodyScope) (input : Bytes) (ops : List (UInt8 × Operator)) (opcode : UInt8)
    (fault : Fault) : Prop :=
  (∃ rest, Reads scope input ops (opcode :: rest) ∧ OperatorFault scope opcode rest fault) ∨
    Reads scope input ops [] ∧ fault = .malformed

/-- A stream stops before the function is closed only where it cannot be read. -/
private theorem read_stop {scope : BodyScope} {depth : Nat} {last opcode : UInt8}
    (hnest : Operator.nestings (some depth)
      ((OperatorStream.read scope depth last input).operators.map Prod.snd) ≠ none)
    (h : (OperatorStream.read scope depth last input).stop = some (opcode, fault)) :
    Unreadable scope input (OperatorStream.read scope depth last input).operators opcode fault := by
  fun_induction OperatorStream.read scope depth last input with
  -- The bytes end before the function does.
  | case1 =>
    obtain ⟨-, rfl⟩ := Prod.mk.inj (Option.some.inj h)
    exact .inr ⟨.nil [], rfl⟩
  | case2 depth last first tail fault' rest' hop =>
    obtain ⟨rfl, rfl⟩ := Prod.mk.inj (Option.some.inj h)
    exact .inl ⟨tail, .nil _, operator_fault hop⟩
  | case3 depth last first tail op mid hop _ hnone => simp [hnone] at hnest
  | case4 depth last first tail op mid hop _ deeper hsome stream ih =>
    simp only [List.map_cons, Operator.nestings_cons, Option.bind_some, hsome] at hnest
    obtain ⟨rest, hreads, hfault⟩ | ⟨hreads, rfl⟩ := ih hnest h
    · exact .inl ⟨rest, .cons hop hreads, hfault⟩
    · exact .inr ⟨.cons hop hreads, rfl⟩

end Faults

/-! ## Levels -/

namespace Operator

/-- The nesting level after operators that start at a level, if no `else` and no `end` among them
    belongs to a construct around them. -/
def levels (level : Nat) : List Operator → Option Nat
  | [] => some level
  | op :: ops =>
    match op with
    | block _ | loop _ | ifBlock _ => levels (level + 1) ops
    | elseBlock => if level = 0 then none else levels level ops
    | endBlock => if level = 0 then none else levels (level - 1) ops
    | _ => levels level ops

/-- Levels are counted from one list of operators to the next. -/
private theorem levels_append (level : Nat) (xs ys : List Operator) :
    levels level (xs ++ ys) = (levels level xs).bind (levels · ys) := by
  induction xs generalizing level with
  | nil => rfl
  | cons op xs ih =>
    cases op with
    | elseBlock | endBlock =>
      simp only [List.cons_append, levels]
      split
      · rfl
      · exact ih _
    | _ => exact ih _

/-- Operators that close what they open and nothing else. -/
def Balanced (ops : List Operator) : Prop :=
  levels 0 ops = some 0

/-- Levels are counted from the number of constructs around. -/
theorem nestings_of_levels {ops : List Operator} {level final : Nat} (outer : Nat)
    (h : levels level ops = some final) :
    nestings (some (outer + level)) ops = some (outer + final) := by
  induction ops generalizing level with
  | nil =>
    obtain rfl : level = final := by simpa [levels] using h
    rfl
  | cons op ops ih =>
    rw [nestings_cons, Option.bind_some]
    cases op with
    | block _ | loop _ | ifBlock _ => exact ih h
    | elseBlock =>
      simp only [levels] at h
      split at h
      · cases h
      · exact ih h
    -- An `end` closes one of the constructs that are counted.
    | endBlock =>
      simp only [levels] at h
      split at h
      · cases h
      · next hpos =>
        simp only [nesting]
        rw [if_neg (by omega), Nat.add_sub_assoc (by omega)]
        exact ih h
    | _ => exact ih h

end Operator

namespace Lowering

open Ssa

/-! ## Skipping -/

/-- Dead code changes nothing but the number of constructs that are open in it. -/
theorem steps_dead {s : State} {depth level : Nat} {ops : List Operator}
    (dead : s.phase = .dead depth) (h : Operator.levels depth ops = some level) :
    s.steps ops = .ok { s with phase := .dead level } := by
  induction ops generalizing s depth with
  | nil =>
    obtain rfl : depth = level := by simpa [Operator.levels] using h
    simp [← dead]
  | cons op ops ih =>
    rw [steps_cons]
    -- One operator leaves the code dead, at the level that it has in the source.
    suffices hstep : ∃ d, s.step op = .ok { s with phase := .dead d } ∧
        Operator.levels d ops = some level by
      obtain ⟨d, hop, hd⟩ := hstep
      exact ⟨_, hop, by simpa using ih (s := { s with phase := .dead d }) rfl hd⟩
    simp only [State.step, dead]
    cases op with
    | block _ | loop _ | ifBlock _ => exact ⟨depth + 1, rfl, h⟩
    | elseBlock =>
      simp only [Operator.levels] at h
      split at h
      · cases h
      · next hpos => exact ⟨depth, by simp [State.skip, hpos, ← dead], h⟩
    | endBlock =>
      simp only [Operator.levels] at h
      split at h
      · cases h
      · next hpos => exact ⟨depth - 1, by simp [State.skip, hpos], h⟩
    | _ => exact ⟨depth, by simp [State.skip, ← dead], h⟩

/-- Code is dead after an operator because this one made it dead, or because it was dead before, and
    then the operator changes the level as it does in the source. -/
private theorem dead_of_step {s t : State} {op : Operator} {level : Nat} (h : s.step op = .ok t)
    (dead : t.phase = .dead level) :
    level = 0 ∨ ∃ depth, s.phase = .dead depth ∧ Operator.levels depth [op] = some level := by
  unfold State.step at h
  split at h
  · next live => exact .inl ((lower_depth live h).2.2 level dead)
  · next depth hphase =>
    cases op with
    | block _ | loop _ | ifBlock _ =>
      obtain rfl := Except.ok.inj h
      exact .inr ⟨depth, hphase, congrArg some (Phase.dead.inj dead)⟩
    -- The `else` and the `end` of a construct around end the dead code.
    | elseBlock =>
      simp only [State.skip] at h
      split at h
      · simp [(elseBlock_depth h).2] at dead
      · next hpos =>
        obtain rfl := Except.ok.inj h
        obtain rfl := Phase.dead.inj (hphase.symm.trans dead)
        exact .inr ⟨depth, hphase, by simp [Operator.levels, hpos]⟩
    | endBlock =>
      simp only [State.skip] at h
      split at h
      · exact absurd dead ((endBlock_depth h).2.2 level)
      · next hpos =>
        obtain rfl := Except.ok.inj h
        exact .inr ⟨depth, hphase, by simpa [Operator.levels, hpos] using dead⟩
    | _ =>
      obtain rfl := Except.ok.inj h
      obtain rfl := Phase.dead.inj (hphase.symm.trans dead)
      exact .inr ⟨depth, hphase, rfl⟩
  · next finished =>
    obtain rfl := Except.ok.inj h
    simp [finished] at dead

/-- Where code is dead, it has been so since some earlier operator, and the level is that of the
    operators since. -/
theorem dead_since {start s : State} {ops : List Operator} {level : Nat}
    (live : start.phase = .live) (h : start.steps ops = .ok s) (dead : s.phase = .dead level) :
    ∃ before after t, ops = before ++ after ∧ start.steps before = .ok t ∧ t.phase = .dead 0 ∧
      Operator.levels 0 after = some level := by
  -- The last operator made the code dead or belongs to the dead code.
  induction ops using List.reverseRecOn generalizing s level with
  | nil =>
    obtain rfl := Except.ok.inj h
    simp [live] at dead
  | append_singleton ops op ih =>
    obtain ⟨u, hu, hop⟩ := steps_append.1 h
    obtain ⟨t, ht, hnil⟩ := steps_cons.1 hop
    obtain rfl := Except.ok.inj hnil
    obtain rfl | ⟨depth, hdepth, hlevel⟩ := dead_of_step ht dead
    · exact ⟨ops ++ [op], [], t, by simp, h, dead, rfl⟩
    · obtain ⟨before, after, v, rfl, hv, hzero, hafter⟩ := ih hu hdepth
      refine ⟨before, after ++ [op], v, by simp, hv, hzero, ?_⟩
      rw [Operator.levels_append, hafter]
      exact hlevel

/-- Where no operator of a stream leaves the dead code, lowering fails as reading does. -/
private theorem runStream_dead {s : State} {stream : OperatorStream} {opcode : UInt8}
    {fault : Fault} {level : Nat} (func : UInt32) (dead : s.phase = .dead 0)
    (hlevel : Operator.levels 0 (stream.operators.map Prod.snd) = some level)
    (hstop : stream.stop = some (opcode, fault)) :
    s.runStream func stream =
      .error (fault.within (.inBody func stream.operators.length opcode)) := by
  have hrun : s.run func 0 stream.operators = .ok { s with phase := .dead level } :=
    run_eq_ok.2 (steps_dead dead hlevel)
  unfold State.runStream
  rw [hrun, hstop]
  rfl

/-! ## Regions of a body -/

/-- The bytes of `region` are dead code in a body: what is before them leads to a point that cannot
    be reached, and they hold operators that close what they open. -/
def DeadRegion (types : Array FuncType) (type : FuncType) (intrinsics : IntrinsicTable)
    (pre region post : Bytes) : Prop :=
  ∃ runs body before start s dead,
    Decoder.localRuns.run (pre ++ (region ++ post)) = (.ok runs, body) ∧
    Reads (bodyScope types type runs) body before (region ++ post) ∧
    State.start type (expandRuns runs) intrinsics = .ok start ∧
    start.steps (before.map Prod.snd) = .ok s ∧ s.phase = .dead 0 ∧
    Reads (bodyScope types type runs) (region ++ post) dead post ∧
    Operator.Balanced (dead.map Prod.snd)

/-- Dead code can be taken out of a body. -/
theorem DeadRegion.remove {types : Array FuncType} {type : FuncType}
    {intrinsics table : IntrinsicTable} {pre region post : Bytes} {index : Nat} {func : UInt32}
    {f : Ssa.Function} (hregion : DeadRegion types type intrinsics pre region post)
    (h : lowerFunction types index func type intrinsics (pre ++ (region ++ post)) =
      .ok (f, table)) :
    lowerFunction types index func type intrinsics (pre ++ post) = .ok (f, table) := by
  obtain ⟨runs, body, before, start, s, dead, hruns, hbefore, hstart, hs, hphase, hdead,
    hbalanced⟩ := hregion
  -- What is before the region is read the same when the region is not there.
  obtain ⟨declared, hpre, hdeclared⟩ := Decoder.localRuns_local _ _ _ hruns
  obtain ⟨code, rfl, hcode⟩ := hbefore.exchange
  have hsplit : pre = declared ++ code := by
    rw [← List.append_assoc declared] at hpre
    exact List.append_cancel_right hpre
  have hruns' : Decoder.localRuns.run (pre ++ post) = (.ok runs, code ++ post) := by
    rw [hsplit, List.append_assoc]
    exact hdeclared _
  -- The constructs that are open at the region.
  obtain ⟨-, live, -, hnone, -, -⟩ := start_moves hstart
  have hdepth := (steps_depth (by simp [live]) hs).1
  rw [State.depth_of_live live, State.depth_of_dead hphase, hnone, List.length_nil] at hdepth
  obtain ⟨o₁, hread₁⟩ := read_of_reads hbefore hdepth.symm 0
  obtain ⟨o₂, hread₂⟩ := read_of_reads hdead
    (Operator.nestings_of_levels s.constructs.length hbalanced) o₁
  obtain ⟨o₃, hread₃⟩ := read_of_reads (hcode post) hdepth.symm 0
  obtain ⟨hops, hstops⟩ :=
    @read_last (bodyScope types type runs) (s.constructs.length + 0) o₂ o₃ post
  obtain ⟨signature, b, start', last, hsig, hbody, hstart', hlast, hstop, rfl, rfl⟩ :=
    lowerFunction_eq_ok.1 h
  obtain rfl := Except.ok.inj ((Body.read_eq hruns).symm.trans hbody)
  obtain rfl := Except.ok.inj (hstart.symm.trans hstart')
  refine lowerFunction_eq_ok.2 ⟨signature, _, start, last, hsig, Body.read_eq hruns', hstart, ?_,
    ?_, rfl, rfl⟩
  · simp only [hread₁, hread₂, List.map_append] at hlast
    obtain ⟨u, hu, hlast⟩ := steps_append.1 hlast
    obtain rfl := Except.ok.inj (hs.symm.trans hu)
    obtain ⟨v, hv, hlast⟩ := steps_append.1 hlast
    -- The region itself changes nothing.
    have hsame : s.steps (dead.map Prod.snd) = .ok s := by
      rw [steps_dead hphase hbalanced, ← hphase]
    obtain rfl := Except.ok.inj (hsame.symm.trans hv)
    rw [hread₃, List.map_append, ← hops]
    exact steps_append.2 ⟨s, hs, hlast⟩
  · simp only [hread₁, hread₂] at hstop
    simp only [hread₃]
    exact hstops.1 hstop

/-- Operators that close what they open change nothing where the code cannot be reached. If not all
    of what follows such a point can be read, and what can be read stays inside of it, lowering
    fails for the reason that reading does. So dead code can be taken out of a body, and the
    function and the intrinsics are the same. -/
theorem dead_code_inert :
    (∀ (s : State) (ops : List Operator), s.phase = .dead 0 → Operator.Balanced ops →
      s.steps ops = .ok s) ∧
    (∀ (s : State) (scope : BodyScope) (depth : Nat) (last : UInt8) (input : Bytes)
      (func : UInt32) (level : Nat), s.phase = .dead 0 →
      Operator.levels 0 ((OperatorStream.read scope depth last input).operators.map Prod.snd) =
        some level →
      ∃ opcode fault,
        Unreadable scope input (OperatorStream.read scope depth last input).operators opcode fault ∧
        s.runStream func (OperatorStream.read scope depth last input) =
          .error (fault.within (.inBody func
            (OperatorStream.read scope depth last input).operators.length opcode))) ∧
    (∀ types type intrinsics pre region post index func f table,
      DeadRegion types type intrinsics pre region post →
      lowerFunction types index func type intrinsics (pre ++ (region ++ post)) = .ok (f, table) →
      lowerFunction types index func type intrinsics (pre ++ post) = .ok (f, table)) := by
  refine ⟨fun s ops dead hbalanced => ?_, fun s scope depth last input func level dead hlevel => ?_,
    fun _ _ _ _ _ _ _ _ _ _ hregion h => hregion.remove h⟩
  · rw [steps_dead dead hbalanced, ← dead]
  · -- The function is not closed, so that the stream has to stop with a fault.
    have hnest := Operator.nestings_of_levels depth hlevel
    rw [Nat.add_zero] at hnest
    cases hstop : (OperatorStream.read scope depth last input).stop with
    | none => simp [read_nestings hstop] at hnest
    | some stop =>
      obtain ⟨opcode, fault⟩ := stop
      exact ⟨opcode, fault, read_stop (by simp [hnest]) hstop,
        runStream_dead func dead hlevel hstop⟩

/-- A block with an operator that has nothing to drop, behind a point that is never reached. -/
theorem dead_code_inert_block :
    DeadRegion #[] {} {} [0x00, 0x00] [0x02, 0x40, 0x1A, 0x0B] [0x0B] ∧
      ∃ f table, lowerFunction #[] 0 0 {} {} [0x00, 0x00, 0x02, 0x40, 0x1A, 0x0B, 0x0B] =
          .ok (f, table) ∧
        lowerFunction #[] 0 0 {} {} [0x00, 0x00, 0x0B] = .ok (f, table) := by
  have hregion : DeadRegion #[] {} {} [0x00, 0x00] [0x02, 0x40, 0x1A, 0x0B] [0x0B] :=
    ⟨_, _, [(0x00, .unreachable)], _, _, [(0x02, .block {}), (0x1A, .drop), (0x0B, .endBlock)],
      rfl, .cons rfl (.nil _), rfl, rfl, rfl, .cons rfl (.cons rfl (.cons rfl (.nil _))), rfl⟩
  have hok : (lowerFunction #[] 0 0 {} {}
      [0x00, 0x00, 0x02, 0x40, 0x1A, 0x0B, 0x0B]).toOption.isSome = true := by decide +kernel
  obtain ⟨⟨f, table⟩, h⟩ := exists_ok_of_isSome hok
  exact ⟨hregion, f, table, h, dead_code_inert.2.2 _ _ _ _ _ _ _ _ _ _ hregion h⟩

end Lowering

end WasmLowering
