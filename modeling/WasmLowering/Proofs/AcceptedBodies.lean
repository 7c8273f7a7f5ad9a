import WasmLowering.Proofs.BlockTypes
import WasmLowering.Proofs.DeadCode

/-!
# Accepted bodies

The lowering does not look for the end of a body: it takes operators until one of them closes the
function. What it accepts is nevertheless a complete sequence of operators in which constructs are
opened and closed in turn, and in which nothing is passed over. The operators are written as the
format says, except that the type of a construct may be an index that is longer than the format
allows. A body with such an index is accepted although it has no form in the format.

## Key results

- `sound_operator`: what is read as an operator is accepted as it is written
- `exists_bodyForm_iff`: an accepted body has a form in the format if none of its operators is
  over-long
- `read_complete`: a stream without a fault is read to its last byte, an `end`
- `balance_of_nestings`: the number of open constructs is the difference of two counts
- `accepted_bodies_balanced`: the shape of an accepted body, and how deep the lowering is in it
- `overlong_block_accepted`: a body that is accepted and has no form in the format
-/

namespace WasmLowering

/-! ## Forms that are accepted -/

/-- The ways to write a construct that the format does not have: the index of its type is in a form
    that no integer of 33 bits has. -/
inductive OverlongForm (types : Array FuncType) : Operator → Bytes → Prop where
  | block {type : FuncType} {bytes : Bytes} (wide : WideIndex types type bytes) :
      OverlongForm types (.block type) (0x02 :: bytes)
  | loop {results : List ValueType} {bytes : Bytes} (wide : WideIndex types { results } bytes) :
      OverlongForm types (.loop results) (0x03 :: bytes)
  | ifBlock {type : FuncType} {bytes : Bytes} (wide : WideIndex types type bytes) :
      OverlongForm types (.ifBlock type) (0x04 :: bytes)

/-- The ways to write an operator that are accepted: the forms of the format, if the local that it
    refers to exists, and beyond the format the over-long ones. -/
inductive AcceptedForm (scope : BodyScope) : Operator → Bytes → Prop where
  | regular {op : Operator} {bytes : Bytes} (form : OperatorForm scope.types op bytes)
      (inScope : ∀ index, op.localIndex? = some index → index.toNat < scope.localCount) :
      AcceptedForm scope op bytes
  | overlong {op : Operator} {bytes : Bytes} (form : OverlongForm scope.types op bytes) :
      AcceptedForm scope op bytes

/-- The opcodes of the operators that are lowered. -/
def supportedOpcodes : List UInt8 :=
  plainOperators.map Prod.fst ++ immediateOpcodes

section Operators

variable {scope : BodyScope}

/-- What is read as the index of a local is a number in range. -/
private theorem sound_localIndex : (Decoder.localIndex scope).Sound fun index bytes =>
    UnsignedForm 32 index.toNat bytes ∧ index.toNat < scope.localCount := by
  intro input rest index h
  obtain ⟨n, _, hn, hrest⟩ := Decoder.run_bind_eq_ok.1 h
  obtain ⟨bytes, rfl, form⟩ := Decoder.sound_u32 hn
  obtain ⟨_, _, hcheck, hpure⟩ := Decoder.run_bind_eq_ok.1 hrest
  obtain ⟨hlt, rfl⟩ := Decoder.check_run hcheck
  obtain ⟨rfl, rfl⟩ := Decoder.pure_run hpure
  exact ⟨bytes, rfl, form, by simpa using hlt⟩

/-- What is read behind the miscellaneous opcode is the number of a saturating conversion. -/
private theorem sound_miscOperator : Decoder.miscOperator.Sound fun op bytes =>
    ∃ source target signed, op = .truncSat source target signed ∧
      UnsignedForm 32 (truncSatCode source target signed) bytes := by
  intro input rest op h
  obtain ⟨sub, _, hsub, hop⟩ := Decoder.run_bind_eq_ok.1 h
  obtain ⟨bytes, rfl, form⟩ := Decoder.sound_u32 hsub
  split at hop
  case h_9 => simp [Decoder.fail] at hop
  all_goals
    obtain ⟨rfl, rfl⟩ := Decoder.pure_run hop
    exact ⟨bytes, rfl, _, _, _, rfl, form⟩

private theorem opcode_of_mem_plainOperators :
    ∀ entry ∈ plainOperators, entry.2.opcode = some entry.1 := by
  decide +kernel

/-- What is read as an operator is accepted as it is written. -/
theorem sound_operator {opcode : UInt8} : (Decoder.operator scope opcode).Sound fun op bytes =>
    AcceptedForm scope op (opcode :: bytes) := by
  intro input rest op h
  unfold Decoder.operator at h
  -- The cases stand in the order of the decoder.
  split at h
  · obtain ⟨type, htype, rfl⟩ := Decoder.run_bind_pure_eq_ok h
    obtain ⟨bytes, rfl, form | wide⟩ := blockType_run_iff.1 htype
    · exact ⟨bytes, rfl, .regular (.block form) (by simp [Operator.localIndex?])⟩
    · exact ⟨bytes, rfl, .overlong (.block wide)⟩
  · obtain ⟨type, _, htype, hpure⟩ := Decoder.run_bind_eq_ok.1 h
    obtain ⟨params, results⟩ := type
    split at hpure
    · next hparams =>
      obtain rfl : params = [] := by simpa using hparams
      obtain ⟨rfl, rfl⟩ := Decoder.pure_run hpure
      obtain ⟨bytes, rfl, form | wide⟩ := blockType_run_iff.1 htype
      · exact ⟨bytes, rfl, .regular (.loop form) (by simp [Operator.localIndex?])⟩
      · exact ⟨bytes, rfl, .overlong (.loop wide)⟩
    · simp [Decoder.fail] at hpure
  · obtain ⟨type, htype, rfl⟩ := Decoder.run_bind_pure_eq_ok h
    obtain ⟨bytes, rfl, form | wide⟩ := blockType_run_iff.1 htype
    · exact ⟨bytes, rfl, .regular (.ifBlock form) (by simp [Operator.localIndex?])⟩
    · exact ⟨bytes, rfl, .overlong (.ifBlock wide)⟩
  · obtain ⟨depth, hdepth, rfl⟩ := Decoder.run_bind_pure_eq_ok h
    obtain ⟨bytes, rfl, form⟩ := Decoder.sound_u32 hdepth
    exact ⟨bytes, rfl, .regular (.br form) (by simp [Operator.localIndex?])⟩
  -- A typed selection announces one type.
  · obtain ⟨n, _, hn, hrest⟩ := Decoder.run_bind_eq_ok.1 h
    obtain ⟨bytes, rfl, form⟩ := Decoder.sound_u32 hn
    obtain ⟨_, _, hcheck, htype⟩ := Decoder.run_bind_eq_ok.1 hrest
    obtain ⟨hone, rfl⟩ := Decoder.check_run hcheck
    obtain rfl : n = 1 := by simpa using hone
    obtain ⟨t, ht, rfl⟩ := Decoder.run_bind_pure_eq_ok htype
    obtain ⟨_, rfl, rfl, known⟩ := Decoder.sound_valueType ht
    refine ⟨bytes ++ [t.code], by simp, .regular (.selectTyped form known) ?_⟩
    simp [Operator.localIndex?]
  · obtain ⟨index, hindex, rfl⟩ := Decoder.run_bind_pure_eq_ok h
    obtain ⟨bytes, rfl, form, hlt⟩ := sound_localIndex hindex
    exact ⟨bytes, rfl, .regular (.localGet form) (by simpa [Operator.localIndex?] using hlt)⟩
  · obtain ⟨index, hindex, rfl⟩ := Decoder.run_bind_pure_eq_ok h
    obtain ⟨bytes, rfl, form, hlt⟩ := sound_localIndex hindex
    exact ⟨bytes, rfl, .regular (.localSet form) (by simpa [Operator.localIndex?] using hlt)⟩
  · obtain ⟨index, hindex, rfl⟩ := Decoder.run_bind_pure_eq_ok h
    obtain ⟨bytes, rfl, form, hlt⟩ := sound_localIndex hindex
    exact ⟨bytes, rfl, .regular (.localTee form) (by simpa [Operator.localIndex?] using hlt)⟩
  · obtain ⟨value, hvalue, rfl⟩ := Decoder.run_bind_pure_eq_ok h
    obtain ⟨bytes, rfl, form⟩ := Decoder.sound_s32 hvalue
    exact ⟨bytes, rfl, .regular (.i32Const form) (by simp [Operator.localIndex?])⟩
  · obtain ⟨value, hvalue, rfl⟩ := Decoder.run_bind_pure_eq_ok h
    obtain ⟨bytes, rfl, form⟩ := Decoder.sound_s64 hvalue
    exact ⟨bytes, rfl, .regular (.i64Const form) (by simp [Operator.localIndex?])⟩
  -- The pattern of a float has a fixed number of bytes.
  · obtain ⟨n, hn, rfl⟩ := Decoder.run_bind_pure_eq_ok h
    -- The four bytes are a number of 32 bits, and so is the pattern.
    obtain ⟨bytes, rfl, hlt, rfl⟩ := Decoder.sound_littleEndian 4 hn
    refine ⟨_, rfl, .regular ?_ (by simp [Operator.localIndex?])⟩
    have form := @OperatorForm.f32Const scope.types (UInt32.ofNat n)
    rwa [UInt32.toNat_ofNat_of_lt' hlt] at form
  · obtain ⟨n, hn, rfl⟩ := Decoder.run_bind_pure_eq_ok h
    obtain ⟨bytes, rfl, hlt, rfl⟩ := Decoder.sound_littleEndian 8 hn
    refine ⟨_, rfl, .regular ?_ (by simp [Operator.localIndex?])⟩
    have form := @OperatorForm.f64Const scope.types (UInt64.ofNat n)
    rwa [UInt64.toNat_ofNat_of_lt' hlt] at form
  · obtain ⟨bytes, rfl, source, target, signed, rfl, form⟩ := sound_miscOperator h
    exact ⟨bytes, rfl, .regular (.truncSat form) (by simp [Operator.localIndex?])⟩
  -- What is left are the operators without immediates.
  · unfold Decoder.plainOperator at h
    split at h
    · next op' hop =>
      obtain ⟨rfl, rfl⟩ := Decoder.pure_run h
      obtain ⟨before, after, hmem, -⟩ := List.lookup_eq_some_iff.1 hop
      have hcode := opcode_of_mem_plainOperators (opcode, op) (by simp [hmem])
      refine ⟨[], rfl, .regular (.plain hcode) ?_⟩
      intro index hindex
      cases op <;> simp [Operator.localIndex?, Operator.opcode] at hindex hcode
    · split at h <;> simp [Decoder.fail] at h

/-- What is read as an operator has one of the opcodes that are lowered. -/
private theorem mem_supportedOpcodes {opcode : UInt8} {input rest : Bytes} {op : Operator}
    (h : (Decoder.operator scope opcode).run input = (.ok op, rest)) :
    opcode ∈ supportedOpcodes := by
  unfold Decoder.operator at h
  split at h
  -- An operator without immediates is in the table of plain operators.
  case h_14 =>
    unfold Decoder.plainOperator at h
    split at h
    · next op' hop =>
      obtain ⟨before, after, hmem, -⟩ := List.lookup_eq_some_iff.1 hop
      refine List.mem_append_left _ (List.mem_map.2 ⟨(opcode, op'), ?_, rfl⟩)
      simp [hmem]
    · split at h <;> simp [Decoder.fail] at h
  all_goals decide

/-- An opcode that is lowered is not among those that are refused by name. -/
private theorem not_mem_unsupportedOperators {opcode : UInt8} (h : opcode ∈ supportedOpcodes)
    (name : String) : (opcode, name) ∉ unsupportedOperators := by
  -- Opcodes are compared as natural numbers, on which the kernel computes fast.
  have all : ∀ n ∈ unsupportedOperators.map (·.1.toNat), n ∉ supportedOpcodes.map UInt8.toNat := by
    decide +kernel
  exact fun hmem => all _ (List.mem_map.2 ⟨_, hmem, rfl⟩) (List.mem_map_of_mem h)

/-- An accepted form starts with an opcode that is lowered, which is the miscellaneous one only with
    the number of a saturating conversion behind it. -/
theorem AcceptedForm.opcode {op : Operator} {bytes : Bytes} (h : AcceptedForm scope op bytes) :
    ∃ opcode immediates, bytes = opcode :: immediates ∧ opcode ∈ supportedOpcodes ∧
      (opcode = 0xFC → ∃ sub ≤ 7, UnsignedForm 32 sub immediates) := by
  -- All opcodes with immediates but one are lowered whatever follows.
  have himmediate : ∀ {opcode : UInt8} {immediates : Bytes}, opcode ∈ immediateOpcodes →
      opcode ≠ 0xFC → ∃ opcode' immediates', opcode :: immediates = opcode' :: immediates' ∧
        opcode' ∈ supportedOpcodes ∧
        (opcode' = 0xFC → ∃ sub ≤ 7, UnsignedForm 32 sub immediates') := by
    intro opcode immediates hmem hne
    exact ⟨opcode, immediates, rfl, List.mem_append_right _ hmem, fun h => absurd h hne⟩
  cases h with
  | regular form inScope =>
    cases form with
    | @plain _ b hcode =>
      have hrun := @plain_run [] scope op b hcode
      refine ⟨b, [], rfl, mem_supportedOpcodes hrun, ?_⟩
      -- The miscellaneous opcode alone is no operator.
      rintro rfl
      exact absurd hrun (by simp [Decoder.operator, Decoder.miscOperator, Decoder.run_bind,
        Decoder.u32, Decoder.unsigned, Decoder.word, Leb128.read])
    | @truncSat source target signed bytes form =>
      refine ⟨0xFC, bytes, rfl, by decide, fun _ => ⟨_, ?_, form⟩⟩
      cases source <;> cases target <;> cases signed <;> decide
    | _ => exact himmediate (by decide) (by decide)
  | overlong form => cases form <;> exact himmediate (by decide) (by decide)

/-- No operator that is written one after another has an opcode that is not lowered. -/
theorem AcceptedForm.opcodes {ops : List Operator} {code : List Bytes}
    (h : List.Forall₂ (AcceptedForm scope) ops code) :
    ∀ bytes ∈ code, ∃ opcode immediates, bytes = opcode :: immediates ∧
      opcode ∈ supportedOpcodes ∧ (∀ name, (opcode, name) ∉ unsupportedOperators) ∧
      (opcode = 0xFC → ∃ sub ≤ 7, UnsignedForm 32 sub immediates) := by
  induction h with
  | nil => simp
  | cons form forms ih =>
    intro bytes hbytes
    obtain rfl | hbytes := List.mem_cons.1 hbytes
    · obtain ⟨opcode, immediates, rfl, hmem, hmisc⟩ := form.opcode
      exact ⟨opcode, immediates, rfl, hmem, not_mem_unsupportedOperators hmem, hmisc⟩
    · exact ih bytes hbytes

end Operators

/-! ## One split -/

section Delimited

variable {α : Type} {form : α → Bytes → Prop} {xs ys : List α} {code code' : List Bytes}
  {rest rest' : Bytes}

/-- Ways to write values that show which value it is and where it ends, whatever follows. -/
def Delimited (form : α → Bytes → Prop) : Prop :=
  ∀ ⦃x y bytes bytes' rest rest'⦄, form x bytes → form y bytes' →
    bytes ++ rest = bytes' ++ rest' → x = y ∧ rest = rest'

/-- What one decoder reads back shows which value it is and where it ends. -/
theorem Delimited.of_run {d : Decoder α}
    (h : ∀ x bytes rest, form x bytes → d.run (bytes ++ rest) = (.ok x, rest)) :
    Delimited form := by
  intro x y bytes bytes' rest rest' hx hy heq
  have hrun := h x bytes rest hx
  rw [heq, h y bytes' rest' hy] at hrun
  obtain ⟨hvalue, hrest⟩ := Prod.mk.inj hrun
  exact ⟨(Except.ok.inj hvalue).symm, hrest.symm⟩

/-- A known number of values one after another ends at one place. -/
theorem Delimited.flatten (h : Delimited form) (hxs : List.Forall₂ form xs code)
    (hys : List.Forall₂ form ys code') (hlength : xs.length = ys.length)
    (heq : code.flatten ++ rest = code'.flatten ++ rest') : rest = rest' := by
  induction hxs generalizing ys code' with
  | nil =>
    obtain rfl := List.length_eq_zero_iff.1 hlength.symm
    cases hys
    exact heq
  -- The first values end at one place, and then the others do.
  | cons hx hxs ih =>
    cases hys with
    | nil => cases hlength
    | cons hy hys =>
      simp only [List.flatten_cons, List.append_assoc] at heq
      exact ih hys (Nat.succ.inj hlength) (h hx hy heq).2

/-- Values that are not written as nothing can be told apart up to the last byte. -/
theorem Delimited.split_unique (h : Delimited form) (hnil : ∀ x, ¬ form x [])
    (hxs : List.Forall₂ form xs code) (hys : List.Forall₂ form ys code')
    (heq : code.flatten = code'.flatten) : code = code' := by
  induction hxs generalizing ys code' with
  | nil =>
    cases hys with
    | nil => rfl
    | @cons y bytes ys code' hy hys =>
      -- Nothing is left for a value, which is not written as nothing.
      obtain ⟨rfl, -⟩ := List.append_eq_nil_iff.1 heq.symm
      exact absurd hy (hnil y)
  | @cons x bytes xs code hx hxs ih =>
    cases hys with
    | nil =>
      obtain ⟨rfl, -⟩ := List.append_eq_nil_iff.1 heq
      exact absurd hx (hnil x)
    | cons hy hys =>
      -- The first values have the same bytes, and so have the others.
      simp only [List.flatten_cons] at heq
      obtain ⟨-, hrest⟩ := h hx hy heq
      rw [hrest] at heq
      rw [List.append_cancel_right heq, ih hys hrest]

end Delimited

section Split

variable {types : Array FuncType} {runs : List LocalRun} {ops : List Operator} {op : Operator}
  {count bytes : Bytes} {locals code : List Bytes}

private theorem delimited_number : Delimited (UnsignedForm 32) :=
  .of_run fun _ _ _ form => unsigned_run form (by decide)

/-- A run of locals shows where it ends. -/
private theorem delimited_localRun : Delimited LocalRunForm := by
  -- The limit on the number of locals does not matter for this.
  refine .of_run (d := do return { count := ← Decoder.u32, type := ← Decoder.valueType }) ?_
  rintro run _ rest ⟨form, known⟩
  rw [List.append_assoc]
  refine (Decoder.run_bind_ok (u32_run form)).trans ?_
  exact (Decoder.run_bind_ok (valueType_run known)).trans rfl

/-- An operator shows where it ends, whether it is one of the format or over-long. -/
private theorem delimited_operator :
    Delimited fun op bytes => OperatorForm types op bytes ∨ OverlongForm types op bytes := by
  -- All locals are in range in the scope that is read in here.
  let scope : BodyScope := { types, localCount := UInt32.size }
  refine .of_run (d := Decoder.byte >>= Decoder.operator scope) ?_
  rintro op bytes rest (form | form)
  · obtain ⟨opcode, immediates, rfl, hrun⟩ :=
      @operator_run _ scope op form fun index _ => index.toNat_lt
    exact (Decoder.run_bind_ok rfl).trans (hrun rest)
  · cases form with
    | block wide | loop wide | ifBlock wide =>
      refine (Decoder.run_bind_ok rfl).trans ?_
      exact Decoder.run_bind_ok (blockType_run_iff.2 ⟨_, rfl, .inr wide⟩)

/-- A form of the format is not over-long. -/
theorem OperatorForm.not_overlong {other : Operator} (h : OperatorForm types op bytes) :
    ¬ OverlongForm types other bytes := by
  intro overlong
  cases h with
  -- An opcode without immediates has no index behind it.
  | plain opcode =>
    cases overlong with
    | block wide | loop wide | ifBlock wide => exact wide.ne_nil rfl
  | block form =>
    cases overlong with
    | block wide => exact form.not_wide wide
  | loop form =>
    cases overlong with
    | loop wide => exact form.not_wide wide
  | ifBlock form =>
    cases overlong with
    | ifBlock wide => exact form.not_wide wide
  | _ => cases overlong

private theorem written_ne_nil (op : Operator) :
    ¬ (OperatorForm types op [] ∨ OverlongForm types op []) := by
  rintro (form | form) <;> cases form

/-- What is accepted is a form of the format or over-long. -/
theorem AcceptedForm.written {scope : BodyScope} (h : AcceptedForm scope op bytes) :
    OperatorForm scope.types op bytes ∨ OverlongForm scope.types op bytes := by
  cases h with
  | regular form _ => exact .inl form
  | overlong form => exact .inr form

/-- Among forms of the format, none is over-long. -/
private theorem not_overlong_of_forms (forms : List.Forall₂ (OperatorForm types) ops code) :
    ∀ bytes ∈ code, ∀ op, ¬ OverlongForm types op bytes := by
  induction forms with
  | nil => simp
  | cons form _ ih =>
    intro bytes hbytes op
    obtain rfl | hbytes := List.mem_cons.1 hbytes
    · exact form.not_overlong
    · exact ih bytes hbytes op

/-- Accepted operators of which none is over-long are in the forms of the format. -/
private theorem forms_of_not_overlong {scope : BodyScope}
    (forms : List.Forall₂ (AcceptedForm scope) ops code)
    (narrow : ∀ bytes ∈ code, ∀ op, ¬ OverlongForm scope.types op bytes) :
    List.Forall₂ (OperatorForm scope.types) ops code := by
  induction forms with
  | nil => exact .nil
  | @cons op bytes ops code form _ ih =>
    have hform := form.written.resolve_right (narrow bytes List.mem_cons_self op)
    exact .cons hform (ih fun bytes hbytes => narrow bytes (List.mem_cons_of_mem _ hbytes))

/-- The operators of a body begin where its declaration of locals ends. -/
theorem BodyForm.operators {input tail : Bytes} {runs' : List LocalRun}
    (h : BodyForm types runs ops input) (number : UnsignedForm 32 runs'.length count)
    (declared : List.Forall₂ LocalRunForm runs' locals)
    (hinput : input = count ++ (locals.flatten ++ tail)) :
    ∃ code, tail = code.flatten ∧ List.Forall₂ (OperatorForm types) ops code := by
  cases h with
  | mk number' declared' operators =>
    obtain ⟨hlength, hlocals⟩ := delimited_number number' number hinput
    exact ⟨_, (delimited_localRun.flatten declared' declared hlength hlocals).symm, operators⟩

/-- A body of accepted operators has a form in the format if none of them is over-long, and only
    then. -/
theorem exists_bodyForm_iff {scope : BodyScope} (number : UnsignedForm 32 runs.length count)
    (declared : List.Forall₂ LocalRunForm runs locals)
    (forms : List.Forall₂ (AcceptedForm scope) ops code) :
    (∃ runs' ops', BodyForm scope.types runs' ops' (count ++ locals.flatten ++ code.flatten)) ↔
      ∀ bytes ∈ code, ∀ op, ¬ OverlongForm scope.types op bytes := by
  rw [List.append_assoc]
  constructor
  · rintro ⟨runs', ops', body⟩ bytes hbytes op overlong
    obtain ⟨code', hflatten, forms'⟩ := body.operators number declared rfl
    -- The two splits are one, so that the operator has a form in the format as well.
    obtain rfl : code = code' := delimited_operator.split_unique written_ne_nil
      (forms.imp fun _ _ => AcceptedForm.written) (forms'.imp fun _ _ => .inl) hflatten
    exact not_overlong_of_forms forms' bytes hbytes op overlong
  · intro narrow
    exact ⟨runs, ops, .mk number declared (forms_of_not_overlong forms narrow)⟩

end Split

/-! ## Streams -/

section Streams

variable {scope : BodyScope} {input rest : Bytes} {ops : List (UInt8 × Operator)}

/-- Operators that are read one after another are written one after another. -/
theorem Reads.accepted (h : Reads scope input ops rest) :
    ∃ code, input = code.flatten ++ rest ∧
      List.Forall₂ (AcceptedForm scope) (ops.map Prod.snd) code := by
  induction h with
  | nil input => exact ⟨[], rfl, .nil⟩
  | @cons opcode input mid rest op ops first more ih =>
    obtain ⟨bytes, rfl, form⟩ := sound_operator first
    obtain ⟨code, rfl, forms⟩ := ih
    exact ⟨(opcode :: bytes) :: code, by simp, .cons form forms⟩

/-- A stream without a fault is read to its last byte, an `end` that closes the function. -/
theorem read_complete {depth : Nat} {last : UInt8}
    (h : (OperatorStream.read scope depth last input).stop = none) :
    ∃ init opcode, (OperatorStream.read scope depth last input).operators =
        init ++ [(opcode, .endBlock)] ∧
      Reads scope input (init ++ [(opcode, .endBlock)]) [] ∧
      Operator.nestings (some depth) (init.map Prod.snd) = some 0 := by
  fun_induction OperatorStream.read scope depth last input with
  | case1 => simp at h
  | case2 => simp at h
  -- The operator closes the function, and no byte is left behind it.
  | case3 depth last opcode rest op tail hop _ hnest =>
    obtain ⟨rfl, rfl⟩ := Operator.nesting_eq_none.1 hnest
    obtain rfl : tail = [] := by simpa using h
    exact ⟨[], opcode, rfl, .cons hop (.nil []), rfl⟩
  | case4 depth last opcode rest op tail hop _ deeper hnest stream ih =>
    obtain ⟨init, code, hops, hreads, hnestings⟩ := ih h
    refine ⟨(opcode, op) :: init, code, congrArg (_ :: ·) hops, .cons hop hreads, ?_⟩
    simpa [hnest] using hnestings

/-- An `end` is one byte. -/
theorem AcceptedForm.endBlock {bytes : Bytes} (h : AcceptedForm scope .endBlock bytes) :
    bytes = [0x0B] := by
  cases h with
  | regular form =>
    cases form with
    | plain opcode =>
      obtain rfl := Option.some.inj opcode
      rfl
  | overlong form => cases form

/-- The locals and the operators of a body that is read. -/
theorem Body.read_eq_ok {types : Array FuncType} {type : FuncType} {body : Body}
    (h : Body.read types type.params input = .ok body) :
    ∃ runs rest, Decoder.localRuns.run input = (.ok runs, rest) ∧
      body = { locals := expandRuns runs,
               stream := .read (bodyScope types type runs) 0 0 rest } := by
  unfold Body.read at h
  split at h
  · cases h
  · next runs rest hruns => exact ⟨runs, rest, hruns, (Except.ok.inj h).symm⟩

end Streams

/-! ## Balance -/

namespace Operator

/-- Whether an operator opens a construct. -/
def opens : Operator → Bool
  | block _ | loop _ | ifBlock _ => true
  | _ => false

/-- How many more constructs are opened than closed. -/
def balance (ops : List Operator) : Int :=
  ops.countP opens - ops.count endBlock

/-- The difference is counted along the operators. -/
private theorem balance_append (xs ys : List Operator) :
    balance (xs ++ ys) = balance xs + balance ys := by
  simp only [balance, List.countP_append, List.count_append]
  omega

/-- The number of open constructs is the difference of those opened and those closed. -/
theorem balance_of_nestings {depth final : Nat} {ops : List Operator}
    (h : nestings (some depth) ops = some final) : (final : Int) = depth + balance ops := by
  induction ops generalizing depth with
  | nil =>
    obtain rfl : depth = final := by simpa using h
    simp [balance]
  | cons op ops ih =>
    rw [nestings_cons, Option.bind_some] at h
    cases hop : op.nesting depth with
    | none => simp [hop, nestings_none] at h
    | some deeper =>
      have hrest := ih (hop ▸ h)
      unfold balance at hrest ⊢
      -- Only operators that open or close a construct change the depth.
      cases op <;> simp [nesting, opens, List.countP_cons] at hop ⊢ <;> omega

/-- Operators of which more follow leave the function open. -/
private theorem nestings_prefix {depth final : Nat} {done ops : List Operator}
    (hdone : done <+: ops)
    (h : nestings (some depth) ops = some final) : ∃ d, nestings (some depth) done = some d := by
  obtain ⟨rest, rfl⟩ := hdone
  cases hd : nestings (some depth) done with
  | some d => exact ⟨d, rfl⟩
  | none =>
    have : nestings (some depth) (done ++ rest) = nestings (nestings (some depth) done) rest :=
      List.foldl_append
    simp [this, hd, nestings_none] at h

end Operator

namespace Lowering

open Ssa Operator

/-- The number of constructs that were opened in dead code. -/
def State.deadDepth (s : State) : Nat :=
  match s.phase with
  | .dead depth => depth
  | _ => 0

/-- An open function is as deep as it has constructs, those in dead code included. -/
theorem State.depth_eq_some {s : State} {d : Nat} (h : s.depth = some d) :
    d = s.constructs.length + s.deadDepth ∧ s.phase ≠ .finished := by
  unfold State.depth State.deadDepth at *
  cases hp : s.phase <;> simp_all

/-- Where constructs are counted in dead code, they are those opened since an earlier boundary, at
    which the code had just become dead. -/
theorem Boundary.dead_since {types : Array FuncType} {type : FuncType}
    {intrinsics : IntrinsicTable} {input : Bytes} {done : List Operator} {s : State}
    (h : Boundary types type intrinsics input done s) (hpos : 0 < s.deadDepth) :
    ∃ before after dead, done = before ++ after ∧
      Boundary types type intrinsics input before dead ∧ dead.phase = .dead 0 ∧
      balance after = s.deadDepth ∧ s = { dead with phase := .dead s.deadDepth } := by
  have hphase : s.phase = .dead s.deadDepth := by
    unfold State.deadDepth at hpos ⊢
    cases hp : s.phase <;> simp_all
  obtain ⟨body, start, hbody, hstart, hdone, hs⟩ := h
  obtain ⟨-, live, -⟩ := start_moves hstart
  obtain ⟨before, after, dead, rfl, hbefore, hzero, hlevels⟩ := Lowering.dead_since live hs hphase
  refine ⟨before, after, dead, rfl, ⟨body, start, hbody, hstart, ?_, hbefore⟩, hzero, ?_, ?_⟩
  · exact (List.prefix_append before after).trans hdone
  · have hbalance := balance_of_nestings (nestings_of_levels 0 hlevels)
    omega
  -- What follows is skipped, from the same state.
  · obtain ⟨t, ht, hafter⟩ := steps_append.1 hs
    obtain rfl := Except.ok.inj (hbefore.symm.trans ht)
    exact Except.ok.inj (hafter.symm.trans (steps_dead hzero hlevels))

/-- An accepted body is a declaration of locals followed by operators, each of them an opcode that
    is lowered with all of its immediates. The body has a form in the format exactly if none of its
    operators is over-long, so exactly then are all of the immediates well-formed. Before the last
    operator, the constructs opened exceed those closed by the number of constructs that the
    lowering holds open, in live and in dead code. Those in dead code are the ones opened since the
    code became dead, at which time there were none, and nothing else has changed since. The last
    operator is an `end`, the first one that closes more than was opened, and it is the last
    byte. -/
theorem accepted_bodies_balanced {types : Array FuncType} {index : Nat} {func : UInt32}
    {type : FuncType} {intrinsics table : IntrinsicTable} {input : Bytes} {f : Ssa.Function}
    (h : lowerFunction types index func type intrinsics input = .ok (f, table)) :
    ∃ (runs : List LocalRun) (count : Bytes) (locals : List Bytes) (ops : List Operator)
      (code : List Bytes), input = count ++ locals.flatten ++ code.flatten ∧
      UnsignedForm 32 runs.length count ∧ List.Forall₂ LocalRunForm runs locals ∧
      List.Forall₂ (AcceptedForm (bodyScope types type runs)) ops code ∧
      (∀ bytes ∈ code, ∃ opcode immediates, bytes = opcode :: immediates ∧
        opcode ∈ supportedOpcodes ∧ (∀ name, (opcode, name) ∉ unsupportedOperators) ∧
        (opcode = 0xFC → ∃ sub ≤ 7, UnsignedForm 32 sub immediates)) ∧
      ((∃ runs' ops', BodyForm types runs' ops' input) ↔
        ∀ bytes ∈ code, ∀ op, ¬ OverlongForm types op bytes) ∧
      (∀ done, done <+: ops → done ≠ ops → ∃ s,
        Boundary types type intrinsics input done s ∧ 0 ≤ balance done ∧
        balance done = s.constructs.length + s.deadDepth ∧
        (0 < s.deadDepth → ∃ before after dead, done = before ++ after ∧
          Boundary types type intrinsics input before dead ∧ dead.phase = .dead 0 ∧
          balance after = s.deadDepth ∧ s = { dead with phase := .dead s.deadDepth })) ∧
      ops.getLast? = some .endBlock ∧ balance ops = -1 ∧ code.getLast? = some [0x0B] := by
  obtain ⟨signature, body, start, last, -, hbody, hstart, hlast, hstop, -, -⟩ :=
    lowerFunction_eq_ok.1 h
  -- The locals come first, then the operators up to the last byte.
  obtain ⟨runs, rest, hruns, rfl⟩ := Body.read_eq_ok hbody
  obtain ⟨_, hinput, count, locals, rfl, number, declared⟩ := Decoder.sound_localRuns hruns
  obtain ⟨init, opcode, hops, hreads, hnest⟩ := read_complete hstop
  obtain ⟨code, hcode, forms⟩ := hreads.accepted
  rw [List.append_nil] at hcode
  simp only [hops] at hlast
  refine ⟨runs, count, locals, _, code, hcode ▸ hinput, number, declared, forms,
    AcceptedForm.opcodes forms, ?_, fun done hdone hproper => ?_, by simp, ?_, ?_⟩
  · rw [hinput, hcode]
    exact exists_bodyForm_iff number declared forms
  · -- A proper prefix leaves the function open.
    rw [List.map_append] at hlast hdone hproper
    obtain ⟨d, hd⟩ := nestings_prefix ((List.prefix_concat_iff.1 hdone).resolve_left hproper) hnest
    have hbalance := balance_of_nestings hd
    obtain ⟨more, hmore⟩ := hdone
    rw [← hmore] at hlast
    obtain ⟨s, hs, -⟩ := steps_append.1 hlast
    obtain ⟨-, live, -, hconstructs, -, -⟩ := start_moves hstart
    have hdepth := (steps_depth (by simp [live]) hs).1
    rw [State.depth_of_live live, hconstructs, List.length_nil, hd] at hdepth
    obtain ⟨hsum, -⟩ := State.depth_eq_some hdepth
    have hboundary : Boundary types type intrinsics input done s :=
      ⟨_, start, hbody, hstart, ⟨more, by rw [hmore, hops, List.map_append]⟩, hs⟩
    exact ⟨s, hboundary, by omega, by omega, fun hpos => hboundary.dead_since hpos⟩
  · have hinit := balance_of_nestings hnest
    have hend : balance [.endBlock] = -1 := rfl
    rw [List.map_append, balance_append]
    show balance (init.map Prod.snd) + balance [.endBlock] = -1
    omega
  · -- The last form is that of the last operator.
    rw [← List.forall₂_reverse_iff, List.map_append, List.reverse_append] at forms
    obtain ⟨bytes, others, form, -, hreverse⟩ := List.forall₂_cons_left_iff.1 forms
    rw [List.getLast?_eq_head?_reverse, hreverse, form.endBlock, List.head?_cons]

/-- A loop that is opened and closed in code that cannot be reached. -/
theorem accepted_bodies_balanced_dead :
    ∃ f table, lowerFunction #[] 0 0 {} {}
        [0x00, 0x02, 0x40, 0x00, 0x03, 0x40, 0x01, 0x0B, 0x0B, 0x0B] = .ok (f, table) ∧
      ∃ (ops : List Operator) (code : List Bytes),
        code.flatten <:+ [0x00, 0x02, 0x40, 0x00, 0x03, 0x40, 0x01, 0x0B, 0x0B, 0x0B] ∧
        (∀ done, done <+: ops → done ≠ ops → 0 ≤ balance done) ∧ balance ops = -1 ∧
        code.getLast? = some [0x0B] := by
  have hok : (lowerFunction #[] 0 0 {} {}
      [0x00, 0x02, 0x40, 0x00, 0x03, 0x40, 0x01, 0x0B, 0x0B, 0x0B]).toOption.isSome = true := by
    decide +kernel
  obtain ⟨⟨f, table⟩, h⟩ := exists_ok_of_isSome hok
  obtain ⟨runs, count, locals, ops, code, hinput, -, -, -, -, -, hbalance, -, hall, hlast⟩ :=
    accepted_bodies_balanced h
  refine ⟨f, table, h, ops, code, ⟨_, hinput.symm⟩, fun done hdone hproper => ?_, hall, hlast⟩
  obtain ⟨s, -, hnonneg, -⟩ := hbalance done hdone hproper
  exact hnonneg

/-- A block whose type is the index 0 in six groups. The body is accepted, and it has no form in the
    format. -/
theorem overlong_block_accepted :
    (∃ f table, lowerFunction #[{}] 0 0 {} {}
        [0x00, 0x02, 0x80, 0x80, 0x80, 0x80, 0x80, 0x00, 0x0B, 0x0B] = .ok (f, table)) ∧
      ¬ ∃ runs ops, BodyForm #[{}] runs ops
        [0x00, 0x02, 0x80, 0x80, 0x80, 0x80, 0x80, 0x00, 0x0B, 0x0B] := by
  have hok : (lowerFunction #[{}] 0 0 {} {}
      [0x00, 0x02, 0x80, 0x80, 0x80, 0x80, 0x80, 0x00, 0x0B, 0x0B]).toOption.isSome = true := by
    decide +kernel
  -- The index zero in six groups, where five are enough.
  have hindex : (Decoder.signed 64).run [0x80, 0x80, 0x80, 0x80, 0x80, 0x00] = (.ok 0, []) := by
    decide +kernel
  obtain ⟨bytes, hbytes, index⟩ := (signed_run_iff (by decide)).1 hindex
  rw [List.append_nil] at hbytes
  have overlong : OverlongForm #[{}] (.block {}) (0x02 :: bytes) :=
    .block ⟨0, index, rfl, .inl (by simp [← hbytes])⟩
  refine ⟨?_, fun body => ?_⟩
  · obtain ⟨⟨f, table⟩, h⟩ := exists_ok_of_isSome hok
    exact ⟨f, table, h⟩
  · -- The body is accepted with this split, so it has no other.
    have closed : AcceptedForm ⟨#[{}], 0⟩ .endBlock [0x0B] :=
      .regular (.plain rfl) (by simp [Operator.localIndex?])
    have number : UnsignedForm 32 ([] : List LocalRun).length [0x00] :=
      .last 0x00 (by decide) (by decide)
    have narrow := (exists_bodyForm_iff number .nil
      (.cons (.overlong overlong) (.cons closed (.cons closed .nil)))).1 (by rwa [← hbytes])
    exact narrow _ List.mem_cons_self _ overlong

end Lowering

end WasmLowering
