import WasmLowering.Proofs.DeadCode

/-!
# Plain faults

A fault is plain if it has not been put into a context yet, and its wording has no zero byte, so
that a message holds all of it. The faults of reading locals and operators and of lowering an
operator are plain. Each step of lowering fails as one of its parts does, and the parts that can
fail on their own do so with a fixed wording.

## Key results

- `OperatorFault.plain`, `Decoder.plainly_localRuns`: what is read
- `Lowering.State.plainly_step`, `Lowering.State.plainly_start`: what is lowered
-/

namespace WasmLowering

open Ssa Lowering

/-! ## Texts without zero bytes -/

/-- The bytes of a text are those of its characters. -/
theorem Bytes.ofString_eq (s : String) : ofString s = s.toList.flatMap String.utf8EncodeChar := by
  rw [ofString, String.toUTF8_eq_toByteArray, ← String.utf8Encode_toList, List.utf8Encode,
    List.toList_data_toByteArray]

/-- No other character has a zero byte in it. -/
private theorem zero_notMem_utf8EncodeChar {c : Char} (h : c ≠ '\x00') :
    0 ∉ String.utf8EncodeChar c := by
  have hv : c.val.toNat ≠ 0 := by
    intro hzero
    exact h (Char.ext (UInt32.toNat_inj.1 hzero))
  have hne : ∀ n, n % 256 ≠ 0 → (0 : UInt8) ≠ UInt8.ofNat n := by
    intro n hn hzero
    have := congrArg UInt8.toNat hzero
    simp at this
    omega
  -- A byte alone is the character itself, and every byte of a longer encoding has its high bit set.
  simp only [String.utf8EncodeChar]
  split
  · simp only [List.mem_singleton]
    exact hne _ (by omega)
  · split
    · simp only [List.mem_cons, List.not_mem_nil, or_false, not_or]
      exact ⟨hne _ (by omega), hne _ (by omega)⟩
    · split
      · simp only [List.mem_cons, List.not_mem_nil, or_false, not_or]
        exact ⟨hne _ (by omega), hne _ (by omega), hne _ (by omega)⟩
      · simp only [List.mem_cons, List.not_mem_nil, or_false, not_or]
        exact ⟨hne _ (by omega), hne _ (by omega), hne _ (by omega), hne _ (by omega)⟩

/-- A text without a zero character has no zero byte. -/
theorem Bytes.zero_notMem_ofString {s : String} (h : '\x00' ∉ s.toList) : 0 ∉ ofString s := by
  rw [ofString_eq, List.mem_flatMap]
  rintro ⟨c, hc, hmem⟩
  exact zero_notMem_utf8EncodeChar (fun heq => h (heq ▸ hc)) hmem

/-- A decimal number has no zero byte. -/
theorem Bytes.zero_notMem_ofNat (n : Nat) : 0 ∉ ofNat n := by
  refine zero_notMem_ofString fun hmem => ?_
  -- A decimal text is made of padding with the digit zero, and of digits.
  rw [decimalDigits, String.toList_ofList, List.mem_append, List.mem_replicate] at hmem
  obtain ⟨-, hzero⟩ | hdigit := hmem
  · cases hzero
  · have := Nat.isDigit_of_mem_toDigits (by decide) (by decide) hdigit
    cases this

/-- Nothing is cut off a text without a zero byte. -/
theorem Bytes.untilNul_eq {s : Bytes} (h : 0 ∉ s) : s.untilNul = s := by
  rw [untilNul, List.takeWhile_eq_self_iff]
  intro b hb
  have : b ≠ 0 := fun heq => h (heq ▸ hb)
  simpa using this

/-! ## Plain faults -/

/-- The fault happened in no context, and its wording has no zero byte. -/
structure Fault.Plain (f : Fault) : Prop where
  trail : f.trail = []
  text : 0 ∉ f.cause.text

theorem plain_malformed : Fault.malformed.Plain :=
  ⟨rfl, by decide +kernel⟩

private theorem plain_noNativeType : (Fault.of .noNativeType).Plain :=
  ⟨rfl, by decide +kernel⟩

/-- The text of a byte has no zero byte. -/
private theorem plain_byteText (b : UInt8) : 0 ∉ Bytes.ofString (byteText b) := by
  have hall : ∀ n : Fin 256, 0 ∉ Bytes.ofString (byteText (UInt8.ofNat n.val)) := by decide +kernel
  simpa using hall ⟨b.toNat, b.toNat_lt⟩

/-- An unknown type is a plain fault. -/
private theorem plain_valueType (code : UInt8) : (Fault.of (.valueType code)).Plain := by
  refine ⟨rfl, ?_⟩
  rw [Fault.of, Cause.text, List.mem_append, not_or]
  exact ⟨by decide +kernel, plain_byteText code⟩

/-- A value type that cannot be read has a plain fault. -/
theorem ValueTypeFault.plain {input : Bytes} {fault : Fault} (h : ValueTypeFault input fault) :
    fault.Plain := by
  cases h with
  | truncated => exact plain_malformed
  | unknown => exact plain_valueType _

/-- An operator that cannot be read has a plain fault. -/
theorem OperatorFault.plain {scope : BodyScope} {opcode : UInt8} {input : Bytes} {fault : Fault}
    (h : OperatorFault scope opcode input fault) : fault.Plain := by
  cases h with
  | @unsupported _ _ name known =>
    -- The wording names the operator, or gives a number.
    have hnames : ∀ p ∈ unsupportedOperators, 0 ∉ Bytes.ofString p.2 := by decide +kernel
    refine ⟨rfl, ?_⟩
    rw [Fault.of, Cause.text, List.mem_append, not_or]
    exact ⟨by decide +kernel, hnames _ known⟩
  | unknown =>
    refine ⟨rfl, ?_⟩
    rw [Fault.of, Cause.text, List.mem_append, not_or]
    exact ⟨by decide +kernel, plain_byteText opcode⟩
  | @misc sub =>
    split
    · refine ⟨rfl, ?_⟩
      rw [Fault.of, Cause.text, List.mem_append, not_or]
      exact ⟨by decide +kernel, Bytes.zero_notMem_ofNat _⟩
    · refine ⟨rfl, ?_⟩
      rw [Fault.of, Cause.text, List.mem_append, not_or]
      exact ⟨by decide +kernel, Bytes.zero_notMem_ofNat _⟩
  | selectType _ type => exact type.plain
  | blockType _ type =>
    cases type with
    | unknown => exact plain_valueType _
    | truncated | malformed | outOfRange => exact plain_malformed
  | loopParams => exact ⟨rfl, by decide +kernel⟩
  | number | outOfRange | arity | i32Const | i64Const | f32Const | f64Const => exact plain_malformed

/-- If the computation fails, then with a plain fault. -/
def FailsPlainly {α : Type} (x : Except Fault α) : Prop :=
  ∀ fault, x = .error fault → fault.Plain

section FailsPlainly

variable {α β : Type}

private theorem plainly_ok (a : α) : FailsPlainly (.ok a) := by
  rintro _ ⟨⟩

private theorem plainly_error {fault : Fault} (h : fault.Plain) :
    FailsPlainly (.error fault : Except Fault α) := by
  rintro _ ⟨⟩
  exact h

private theorem plainly_malformed : FailsPlainly (.error .malformed : Except Fault α) :=
  plainly_error plain_malformed

/-- Two computations fail plainly if both do. -/
theorem FailsPlainly.bind {x : Except Fault α} {f : α → Except Fault β} (hx : FailsPlainly x)
    (hf : ∀ a, FailsPlainly (f a)) : FailsPlainly (x >>= f) := by
  cases x with
  | error fault => exact plainly_error (hx fault rfl)
  | ok a => exact hf a

private theorem plainly_require (condition : Bool) : FailsPlainly (require condition) := by
  cases condition with
  | true => exact plainly_ok ()
  | false => exact plainly_malformed

private theorem plainly_scalar (t : ValueType) : FailsPlainly (t.scalar hostPointerBits) := by
  cases t with
  | other => exact plainly_error plain_noNativeType
  | _ => exact plainly_ok _

private theorem plainly_scalars (ts : List ValueType) :
    FailsPlainly (ts.mapM (ValueType.scalar hostPointerBits)) := by
  induction ts with
  | nil => exact plainly_ok _
  | cons t ts ih =>
    rw [List.mapM_cons]
    exact (plainly_scalar t).bind fun _ => ih.bind fun _ => plainly_ok _

end FailsPlainly

namespace Lowering.State

variable (s : State)

private theorem plainly_peek : FailsPlainly s.peek := by
  unfold peek
  split
  · exact plainly_ok _
  · exact plainly_malformed

private theorem plainly_pop : FailsPlainly s.pop :=
  s.plainly_peek.bind fun _ => plainly_ok _

private theorem plainly_truncate (n : Nat) : FailsPlainly (s.truncate n) := by
  unfold truncate
  split
  · exact plainly_ok _
  · exact plainly_malformed

private theorem plainly_enterDead : FailsPlainly s.enterDead :=
  (s.plainly_truncate _).bind fun _ => plainly_ok _

private theorem plainly_exitTo (c : Construct) : FailsPlainly (s.exitTo c) := by
  unfold exitTo
  split
  · exact plainly_ok _
  · split
    · exact plainly_ok _
    · exact plainly_malformed

private theorem plainly_exitArm (c : Construct) : FailsPlainly (s.exitArm c) :=
  (plainly_require _).bind fun _ => s.plainly_exitTo c

private theorem plainly_ret : FailsPlainly s.ret := by
  refine (plainly_require _).bind fun _ => ?_
  split
  · exact plainly_enterDead _
  · exact plainly_enterDead _
  · exact (plainly_scalars _).bind fun _ => plainly_enterDead _

private theorem plainly_enter (type : FuncType) (kind : ConstructKind) (role : BlockRole) :
    FailsPlainly (s.enter type kind role) :=
  (plainly_require _).bind fun _ => (plainly_scalars _).bind fun _ => plainly_ok _

private theorem plainly_startArm (c : Construct) (other : Label) (params : Array Operand) :
    FailsPlainly (s.startArm c other params) :=
  (s.plainly_truncate _).bind fun _ => plainly_ok _

/-- A second arm is started or fails plainly. -/
private theorem plainly_elseBlock (live : Bool) : FailsPlainly (s.elseBlock live) := by
  unfold elseBlock
  split
  · exact plainly_malformed
  · split
    · cases live with
      | true =>
        exact (s.plainly_exitArm _).bind fun t => (t.plainly_startArm _ _ _).bind fun _ =>
          plainly_ok _
      | false => exact (s.plainly_startArm _ _ _).bind fun _ => plainly_ok _
    · exact plainly_malformed

private theorem plainly_leave (c : Construct) (rest : List Construct) :
    FailsPlainly (s.leave c rest) :=
  (s.plainly_truncate _).bind fun _ => plainly_ok _

private theorem plainly_exitLast (c : Construct) (live : Bool) :
    FailsPlainly (s.exitLast c live) := by
  unfold exitLast
  split
  · split
    · exact s.plainly_exitTo c
    · exact s.plainly_exitArm c
  · exact plainly_ok _

private theorem plainly_finishFunction (live : Bool) : FailsPlainly (s.finishFunction live) := by
  cases live with
  | true => exact (plainly_require _).bind fun _ => s.plainly_ret.bind fun _ => plainly_ok _
  | false => exact plainly_ok _

/-- A construct ends or fails plainly. -/
private theorem plainly_endBlock (live : Bool) : FailsPlainly (s.endBlock live) := by
  unfold endBlock
  split
  · exact s.plainly_finishFunction live
  · refine (s.plainly_exitLast _ live).bind fun t => ?_
    split
    · exact (t.plainly_startArm _ _ _).bind fun u => (u.plainly_exitTo _).bind fun v =>
        v.plainly_leave _ _
    · exact t.plainly_leave _ _

private theorem plainly_br (depth : Nat) : FailsPlainly (s.br depth) := by
  unfold br
  split
  · exact s.plainly_ret
  · split
    · exact plainly_malformed
    · exact (s.plainly_exitTo _).bind fun _ => plainly_enterDead _

private theorem plainly_unary (f : Operand × State → State) :
    FailsPlainly (s.pop >>= fun p => .ok (f p)) :=
  s.plainly_pop.bind fun _ => plainly_ok _

private theorem plainly_binary (f : Operand × State → Operand × State → State) :
    FailsPlainly (s.pop >>= fun p => p.2.pop >>= fun q => .ok (f p q)) :=
  s.plainly_pop.bind fun p => p.2.plainly_pop.bind fun _ => plainly_ok _

/-- An operator that is live fails plainly. -/
private theorem plainly_lower (op : Operator) : FailsPlainly (s.lower op) := by
  cases op with
  | unreachable => exact plainly_enterDead _
  | nop | i32Const | i64Const | f32Const | f64Const => exact plainly_ok _
  | block type => exact s.plainly_enter _ _ _
  | loop results => exact plainly_enter _ _ _ _
  | ifBlock type =>
    exact s.plainly_pop.bind fun _ => (plainly_enter _ _ _ _).bind fun _ => plainly_ok _
  | elseBlock => exact s.plainly_elseBlock true
  | endBlock => exact s.plainly_endBlock true
  | br depth => exact s.plainly_br _
  | ret => exact s.plainly_ret
  | drop => exact s.plainly_unary _
  | select | selectTyped =>
    exact s.plainly_pop.bind fun _ => (plainly_pop _).bind fun _ => (plainly_pop _).bind fun _ =>
      plainly_ok _
  | localGet index =>
    show FailsPlainly (s.localGet index)
    unfold localGet
    split
    · exact plainly_malformed
    · exact plainly_ok _
  | localSet index =>
    show FailsPlainly (s.localSet index)
    unfold localSet
    split
    · exact plainly_malformed
    · exact s.plainly_unary _
  | localTee index =>
    show FailsPlainly (s.localTee index)
    unfold localTee
    split
    · exact plainly_malformed
    · exact s.plainly_peek.bind fun _ => plainly_ok _
  | eqz | signExtend => exact s.plainly_unary _
  | bitCount => exact s.plainly_unary _
  | intCompare | floatCompare | intBinary | shift | rotate => exact s.plainly_binary _
  | floatUnary _ op => cases op <;> exact s.plainly_unary _
  | floatBinary _ op => cases op <;> exact s.plainly_binary _
  | convert c =>
    -- The type of the result has to be native, and then no conversion fails.
    refine s.plainly_pop.bind fun _ => (plainly_scalar _).bind fun _ => ?_
    cases c <;> exact plainly_ok _
  | truncSat => exact s.plainly_pop.bind fun _ => (plainly_scalar _).bind fun _ => plainly_ok _

/-- An operator that cannot be lowered has a plain fault. -/
theorem plainly_step (op : Operator) : FailsPlainly (s.step op) := by
  unfold step
  split
  · exact s.plainly_lower op
  · -- In dead code only the operators that end it are lowered.
    unfold skip
    split
    · exact plainly_ok _
    · exact plainly_ok _
    · exact plainly_ok _
    · split
      · exact s.plainly_elseBlock false
      · exact plainly_ok _
    · split
      · exact s.plainly_endBlock false
      · exact plainly_ok _
    · exact plainly_ok _
  · exact plainly_ok _

private theorem plainly_addLocal (t : ValueType) (first : ScalarType → Operand) :
    FailsPlainly (s.addLocal t first) :=
  (plainly_scalar t).bind fun _ => plainly_ok _

private theorem plainly_addParams (index : Nat) (ts : List ValueType) :
    FailsPlainly (s.addParams index ts) := by
  induction ts generalizing s index with
  | nil => exact plainly_ok _
  | cons t ts ih => exact (s.plainly_addLocal t _).bind fun u => ih u _

private theorem plainly_addLocals (ts : List ValueType) : FailsPlainly (s.addLocals ts) := by
  induction ts generalizing s with
  | nil => exact plainly_ok _
  | cons t ts ih => exact (s.plainly_addLocal t _).bind fun u => ih u

theorem plainly_start (type : FuncType) (locals : List ValueType) (intrinsics : IntrinsicTable) :
    FailsPlainly (start type locals intrinsics) :=
  (plainly_addParams _ _ _).bind fun u => u.plainly_addLocals locals

end Lowering.State

/-! ## Locals -/

namespace Decoder

variable {α β : Type} {d : Decoder α}

/-- If the decoder fails, then with a plain fault. -/
def FailsPlainly (d : Decoder α) : Prop :=
  ∀ input rest fault, d.run input = (.error fault, rest) → fault.Plain

private theorem plainly_pure (a : α) : (pure a : Decoder α).FailsPlainly := by
  intro input rest fault h
  cases h

/-- Two decoders fail plainly if both do. -/
theorem FailsPlainly.bind {f : α → Decoder β} (hd : d.FailsPlainly)
    (hf : ∀ a, (f a).FailsPlainly) : (d >>= f).FailsPlainly := by
  intro input rest fault h
  obtain h | ⟨a, mid, -, h⟩ := run_bind_eq_error.1 h
  · exact hd _ _ _ h
  · exact hf a _ _ _ h

private theorem plainly_u32 : u32.FailsPlainly := by
  intro input rest fault h
  rw [(u32_fault h).1]
  exact plain_malformed

private theorem plainly_check (condition : Bool) : (check condition).FailsPlainly := by
  intro input rest fault h
  rw [(check_fault h).1]
  exact plain_malformed

private theorem plainly_valueType : valueType.FailsPlainly :=
  fun _ _ _ h => (valueType_fault h).plain

/-- Runs of locals fail plainly. -/
private theorem plainly_localRunsFrom (n : Nat) (declared : UInt32) :
    (localRunsFrom n declared).FailsPlainly := by
  induction n generalizing declared with
  | zero => exact plainly_pure _
  | succ n ih =>
    refine FailsPlainly.bind ?_ fun _ => (ih _).bind fun _ => plainly_pure _
    -- A run is a number and a type, with a bound on the number of all locals.
    exact plainly_u32.bind fun _ => plainly_valueType.bind fun _ => (plainly_check _).bind fun _ =>
      plainly_pure _

theorem plainly_localRuns : localRuns.FailsPlainly :=
  plainly_u32.bind fun _ => plainly_localRunsFrom _ _

end Decoder

end WasmLowering
