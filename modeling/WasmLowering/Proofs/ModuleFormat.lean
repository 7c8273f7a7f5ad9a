import WasmLowering.Proofs.BinaryFormat
import WasmLowering.Section.Entry

/-!
# The written form of module entries

Every entry of a section has a written form, in which integers take as few groups as they can. A
decoder recovers a value from bytes if it reads the value from them whatever follows. Recovery is
closed under sequencing and repetition, so that the recovery of an entry follows from that of its
parts.

## Key results

- `unsignedForm_ofUnsigned`, `signedForm_ofSigned`: the shortest forms are forms
- `UnsignedForm.length_ofUnsigned_le`, `SignedForm.length_ofSigned_le`: no form is shorter
- `recovers_limits`, `recovers_constExpr`, `recovers_importDesc`: the parts of entries are recovered
- `recovers_element`, `recovers_data`: segments are recovered in all of their encodings
-/

namespace WasmLowering

/-! ## Integers -/

namespace Bytes

/-- The shortest form of a natural number. -/
def ofUnsigned (n : Nat) : Bytes :=
  if n < 128 then [UInt8.ofNat n]
  else UInt8.ofNat (n % 128 + 128) :: ofUnsigned (n / 128)

/-- The shortest form of an integer in two's complement. -/
def ofSigned (n : Int) : Bytes :=
  if -64 ≤ n ∧ n < 64 then [UInt8.ofNat (n % 128).toNat]
  else UInt8.ofNat ((n % 128).toNat + 128) :: ofSigned (n / 128)
termination_by n.natAbs

/-- A byte string behind its size. -/
def sized (s : Bytes) : Bytes :=
  ofUnsigned s.length ++ s

/-- Items behind their number. -/
def vector (items : List Bytes) : Bytes :=
  ofUnsigned items.length ++ items.flatten

/-- Every number takes a byte. -/
theorem ofUnsigned_ne_nil (n : Nat) : ofUnsigned n ≠ [] := by
  unfold ofUnsigned
  split <;> simp

/-- A byte string is shorter than its form. -/
theorem length_sized (s : Bytes) : s.length < s.sized.length := by
  have := List.length_pos_iff.2 (ofUnsigned_ne_nil s.length)
  rw [sized, List.length_append]
  omega

theorem length_flatten_le_vector (items : List Bytes) :
    items.flatten.length ≤ (vector items).length := by
  rw [vector, List.length_append]
  omega

end Bytes

private theorem toNat_ofNat_byte {n : Nat} (h : n < 256) : (UInt8.ofNat n).toNat = n :=
  UInt8.toNat_ofNat_of_lt' h

/-- The shortest form of a natural number is a form. -/
theorem unsignedForm_ofUnsigned {width n : Nat} (h : n < 2 ^ width) :
    UnsignedForm width n (Bytes.ofUnsigned n) := by
  induction n using Nat.strongRecOn generalizing width with
  | ind n ih =>
    unfold Bytes.ofUnsigned
    split
    · next hn =>
      have hbyte : (UInt8.ofNat n).toNat = n := toNat_ofNat_byte (by omega)
      have := @UnsignedForm.last width (UInt8.ofNat n) (by omega) (by omega)
      rwa [hbyte] at this
    · next hn =>
      have hbyte : (UInt8.ofNat (n % 128 + 128)).toNat = n % 128 + 128 :=
        toNat_ofNat_byte (by omega)
      -- A number of two groups or more has more than seven bits.
      have hwidth : 7 < width := by
        by_contra hle
        have : 2 ^ width ≤ 2 ^ 7 := Nat.pow_le_pow_right (by decide) (by omega)
        omega
      have hpow := two_pow_group hwidth.le
      have hrest := ih (n / 128) (by omega) (show n / 128 < 2 ^ (width - 7) by omega)
      have := UnsignedForm.more (UInt8.ofNat (n % 128 + 128)) (by omega) hwidth hrest
      rwa [hbyte, show n % 128 + 128 - 128 + 128 * (n / 128) = n by omega] at this

/-- The shortest form of an integer is a form. -/
theorem signedForm_ofSigned {width : Nat} {n : Int} (hwidth : 0 < width)
    (low : -2 ^ (width - 1) ≤ n) (high : n < 2 ^ (width - 1)) :
    SignedForm width n (Bytes.ofSigned n) := by
  induction hk : n.natAbs using Nat.strongRecOn generalizing width n with
  | ind k ih =>
    unfold Bytes.ofSigned
    split
    · next hn =>
      have hbyte : (UInt8.ofNat (n % 128).toNat).toNat = (n % 128).toNat :=
        toNat_ofNat_byte (by omega)
      -- The sign of the last group is that of the integer.
      by_cases hneg : n < 0
      · have fits : 128 ≤ (n % 128).toNat + 2 ^ (width - 1) := by
          have : (128 : Int) ≤ ((n % 128).toNat + 2 ^ (width - 1) : Nat) := by
            push_cast
            omega
          exact_mod_cast this
        have := @SignedForm.lastNeg width (UInt8.ofNat (n % 128).toNat) (by omega) (by omega)
        rwa [hbyte, show (((n % 128).toNat : Nat) : Int) - 128 = n by omega] at this
      · have fits : (n % 128).toNat < 2 ^ (width - 1) := by
          have : ((n % 128).toNat : Int) < (2 ^ (width - 1) : Nat) := by
            push_cast
            omega
          exact_mod_cast this
        have := @SignedForm.lastNonneg width (UInt8.ofNat (n % 128).toNat) (by omega) (by omega)
        rwa [hbyte, show (((n % 128).toNat : Nat) : Int) = n by omega] at this
    · next hn =>
      have hbyte : (UInt8.ofNat ((n % 128).toNat + 128)).toNat = (n % 128).toNat + 128 :=
        toNat_ofNat_byte (by omega)
      -- An integer of two groups or more has more than seven bits.
      have hmore : 7 < width := by
        by_contra hle
        have : (2 : Int) ^ (width - 1) ≤ 2 ^ 6 :=
          pow_le_pow_right₀ (by decide) (by omega)
        omega
      have hpow := two_pow_sign_group hmore
      have hrest := @ih (n / 128).natAbs (by omega) (width - 7) (n / 128) (by omega) (by omega)
        (by omega) rfl
      have := SignedForm.more (UInt8.ofNat ((n % 128).toNat + 128)) (by omega) hmore hrest
      rwa [hbyte, show (((n % 128).toNat + 128 : Nat) : Int) - 128 + 128 * (n / 128) = n by omega]
        at this

/-- No form of a natural number is shorter. -/
theorem UnsignedForm.length_ofUnsigned_le {width n : Nat} {bytes : Bytes}
    (h : UnsignedForm width n bytes) : (Bytes.ofUnsigned n).length ≤ bytes.length := by
  induction h with
  | last b group fits =>
    unfold Bytes.ofUnsigned
    simp [group]
  | @more width n bytes b group fits rest ih =>
    have hb := b.toNat_lt
    unfold Bytes.ofUnsigned
    -- The number may be small in spite of its groups.
    split
    · simp
    · rw [show (b.toNat - 128 + 128 * n) / 128 = n by omega]
      simpa using ih

/-- No form of an integer is shorter. -/
theorem SignedForm.length_ofSigned_le {width : Nat} {n : Int} {bytes : Bytes}
    (h : SignedForm width n bytes) : (Bytes.ofSigned n).length ≤ bytes.length := by
  induction h with
  | lastNonneg b group fits =>
    unfold Bytes.ofSigned
    rw [if_pos (by omega)]
    simp
  | lastNeg b group fits =>
    unfold Bytes.ofSigned
    rw [if_pos (by omega)]
    simp
  | @more width n bytes b group fits rest ih =>
    have hb := b.toNat_lt
    unfold Bytes.ofSigned
    -- The integer may be small in spite of its groups.
    split
    · simp
    · rw [show ((b.toNat : Int) - 128 + 128 * n) / 128 = n by omega]
      simpa using ih

/-! ## Recovery -/

namespace Decoder

variable {α β γ σ : Type} {d : Decoder α} {f : α → Decoder β} {xs ys : Bytes} {a : α} {b : β}

/-- The decoder reads `a` from `bytes`, whatever follows. -/
def Recovers (d : Decoder α) (bytes : Bytes) (a : α) : Prop :=
  ∀ rest, d.run (bytes ++ rest) = (.ok a, rest)

theorem recovers_pure (a : α) : (pure a : Decoder α).Recovers [] a :=
  fun _ => rfl

/-- Two values are recovered one after the other. -/
theorem Recovers.bind (first : d.Recovers xs a) (second : (f a).Recovers ys b) :
    (d >>= f).Recovers (xs ++ ys) b := by
  intro rest
  rw [List.append_assoc, run_bind_ok (first _), second]

theorem Recovers.bind_cons {x : UInt8} (first : d.Recovers [x] a)
    (second : (f a).Recovers ys b) : (d >>= f).Recovers (x :: ys) b :=
  first.bind second

theorem Recovers.bind_nil (first : d.Recovers [] a) (second : (f a).Recovers ys b) :
    (d >>= f).Recovers ys b :=
  first.bind second

theorem Recovers.bind_pure (first : d.Recovers xs a) (second : (f a).Recovers [] b) :
    (d >>= f).Recovers xs b := by
  simpa using first.bind second

/-- A value is recovered from all of the input. -/
theorem Recovers.decodeAll (h : d.Recovers xs a) : d.decodeAll xs = .ok a := by
  have := h []
  rw [List.append_nil] at this
  unfold Decoder.decodeAll
  rw [this]

theorem recovers_byte (x : UInt8) : byte.Recovers [x] x :=
  fun _ => rfl

theorem recovers_check {condition : Bool} (h : condition = true) :
    (check condition).Recovers [] () := by
  subst h
  exact fun _ => rfl

theorem recovers_ofExcept {x : Except Fault α} (h : x = .ok a) : (ofExcept x).Recovers [] a := by
  subst h
  exact fun _ => rfl

theorem recovers_u32 (n : UInt32) : u32.Recovers (.ofUnsigned n.toNat) n :=
  fun _ => u32_run (unsignedForm_ofUnsigned n.toNat_lt)

private theorem recovers_s32 (n : UInt32) : s32.Recovers (.ofSigned n.toInt32.toInt) n :=
  fun _ => s32_run (signedForm_ofSigned (by decide) n.toInt32.le_toInt n.toInt32.toInt_lt)

private theorem recovers_s64 (n : UInt64) : s64.Recovers (.ofSigned n.toInt64.toInt) n :=
  fun _ => s64_run (signedForm_ofSigned (by decide) n.toInt64.le_toInt n.toInt64.toInt_lt)

private theorem recovers_littleEndian {size n : Nat} (h : n < 256 ^ size) :
    (littleEndian size).Recovers (littleEndianBytes size n) n :=
  fun _ => littleEndian_run h

theorem recovers_count {n : Nat} (h : n < 2 ^ 32) : u32.Recovers (.ofUnsigned n) (.ofNat n) := by
  have := recovers_u32 (.ofNat n)
  rwa [UInt32.toNat_ofNat_of_lt' h] at this

theorem recovers_take (s : Bytes) : (take s.length).Recovers s s := by
  intro rest
  simp [take]

/-- A byte string is recovered from its size and its bytes. -/
theorem recovers_sized {s : Bytes} (h : s.length < 2 ^ 32) : Decoder.sized.Recovers s.sized s := by
  refine (recovers_count h).bind ?_
  rw [UInt32.toNat_ofNat_of_lt' h]
  exact recovers_take s

private theorem recovers_valueType {t : ValueType} (h : t.isKnown = true) :
    valueType.Recovers [t.code] t :=
  fun _ => valueType_run h

/-- Items are recovered if their number is known. -/
private theorem recovers_replicate {enc : γ → Bytes} {value : γ → α} {items : List γ}
    (h : ∀ x ∈ items, d.Recovers (enc x) (value x)) :
    (replicate d items.length).Recovers (items.map enc).flatten (items.map value) := by
  induction items with
  | nil => exact recovers_pure []
  | cons x items ih =>
    rw [List.map_cons, List.flatten_cons]
    refine (h x List.mem_cons_self).bind ?_
    refine (ih fun y hy => h y (List.mem_cons_of_mem x hy)).bind_pure ?_
    exact recovers_pure _

/-- Entries that take a state from what the entries before them make of it to what those and the
    entry make of it. -/
theorem recovers_iterate {step : σ → Decoder σ} {enc : γ → Bytes} {state : List γ → σ}
    {done items : List γ}
    (h : ∀ before x after, done ++ items = before ++ x :: after →
      (step (state before)).Recovers (enc x) (state (before ++ [x]))) :
    (iterate step items.length (state done)).Recovers (items.map enc).flatten
      (state (done ++ items)) := by
  induction items generalizing done with
  | nil =>
    rw [List.append_nil]
    exact recovers_pure _
  | cons x items ih =>
    rw [List.map_cons, List.flatten_cons]
    refine (h done x items rfl).bind ?_
    have := @ih (done ++ [x]) fun before y after heq => h before y after (by simpa using heq)
    simpa using this

/-- Items are not more than the bytes that they are written in. -/
theorem length_le_flatten {enc : γ → Bytes} {items : List γ} (h : ∀ x ∈ items, enc x ≠ []) :
    items.length ≤ (items.map enc).flatten.length := by
  induction items with
  | nil => simp
  | cons x items ih =>
    have hx := List.length_pos_iff.2 (h x List.mem_cons_self)
    have := ih fun y hy => h y (List.mem_cons_of_mem x hy)
    simp only [List.map_cons, List.flatten_cons, List.length_append, List.length_cons]
    omega

/-- An item is no longer than all of them. -/
theorem length_le_of_mem {enc : γ → Bytes} {items : List γ} {x : γ} (h : x ∈ items) :
    (enc x).length ≤ (items.map enc).flatten.length := by
  obtain ⟨before, after, rfl⟩ := List.append_of_mem h
  simp only [List.map_append, List.map_cons, List.flatten_append, List.flatten_cons,
    List.length_append]
  omega

/-- Items behind their number, which is compared with the number of bytes that are left. -/
private theorem recovers_counted {enc : γ → Bytes} {value : γ → α} {items : List γ}
    {k : List α → Decoder β} (few : items.length < 2 ^ 32) (nonempty : ∀ x ∈ items, enc x ≠ [])
    (h : ∀ x ∈ items, d.Recovers (enc x) (value x)) (hk : (k (items.map value)).Recovers [] b) :
    (do
      let count ← u32
      check (count.toNat ≤ (← remaining))
      let values ← replicate d count.toNat
      k values : Decoder β).Recovers (Bytes.vector (items.map enc)) b := by
  rw [Bytes.vector, List.length_map]
  refine (recovers_count few).bind ?_
  rw [UInt32.toNat_ofNat_of_lt' few]
  intro rest
  -- The check is on all that follows, not only on the items.
  have hremaining : ∀ input, remaining.run input = (.ok input.length, input) := fun _ => rfl
  refine (run_bind_ok (hremaining _)).trans ?_
  have hlength := length_le_flatten nonempty
  have hcheck : decide (items.length ≤ ((items.map enc).flatten ++ rest).length) = true := by
    simp only [List.length_append, decide_eq_true_eq]
    omega
  exact ((recovers_check hcheck).bind_nil ((recovers_replicate h).bind_pure hk)) rest

end Decoder

/-! ## Types and limits -/

/-- Value types behind their number. -/
def ValueType.encodeAll (ts : List ValueType) : Bytes :=
  .vector (ts.map fun t => [t.code])

/-- The written form of a function type. -/
def FuncType.encode (t : FuncType) : Bytes :=
  Decoder.funcTypeForm :: (ValueType.encodeAll t.params ++ ValueType.encodeAll t.results)

theorem FuncType.encode_ne_nil (t : FuncType) : t.encode ≠ [] :=
  List.cons_ne_nil _ _

/-- The types of all parameters and results are known. -/
def FuncType.Known (t : FuncType) : Prop :=
  (∀ x ∈ t.params, x.isKnown = true) ∧ ∀ x ∈ t.results, x.isKnown = true

instance (t : FuncType) : Decidable t.Known :=
  inferInstanceAs (Decidable (_ ∧ _))

/-- The flags of limits: whether there is a maximum, whether the entry is shared, and whether the
    bounds have 64 bits. -/
def Limits.flags (l : Limits) : UInt8 :=
  (if l.max.isSome then 1 else 0) + (if l.shared then 2 else 0) + if l.is64 then 4 else 0

/-- The written form of limits. -/
def Limits.encode (l : Limits) : Bytes :=
  l.flags :: (Bytes.ofUnsigned l.min.toNat ++ l.max.elim [] fun max => Bytes.ofUnsigned max.toNat)

theorem Limits.encode_ne_nil (l : Limits) : l.encode ≠ [] :=
  List.cons_ne_nil _ _

/-- The bounds have 32 bits, and the minimum does not exceed the maximum. -/
structure Limits.Valid (l : Limits) : Prop where
  is64 : l.is64 = false
  min : l.min.toNat < 2 ^ 32
  max : ∀ bound ∈ l.max, l.min ≤ bound ∧ bound.toNat < 2 ^ 32

instance (l : Limits) : Decidable l.Valid :=
  decidable_of_iff (l.is64 = false ∧ l.min.toNat < 2 ^ 32 ∧
    l.max.all (fun bound => l.min ≤ bound ∧ bound.toNat < 2 ^ 32) = true)
    ⟨fun ⟨is64, min, max⟩ => ⟨is64, min, by simpa [Option.all_eq_true] using max⟩,
      fun ⟨is64, min, max⟩ => ⟨is64, min, by simpa [Option.all_eq_true] using max⟩⟩

/-- The written form of a table. -/
def TableType.encode (t : TableType) : Bytes :=
  t.element.code :: t.limits.encode

theorem TableType.encode_ne_nil (t : TableType) : t.encode ≠ [] :=
  List.cons_ne_nil _ _

/-- A table holds references and is not shared. -/
structure TableType.Valid (t : TableType) : Prop where
  element : t.element.isReference = true
  limits : t.limits.Valid
  shared : t.limits.shared = false

instance (t : TableType) : Decidable t.Valid :=
  decidable_of_iff (t.element.isReference = true ∧ t.limits.Valid ∧ t.limits.shared = false)
    ⟨fun ⟨element, limits, shared⟩ => ⟨element, limits, shared⟩,
      fun ⟨element, limits, shared⟩ => ⟨element, limits, shared⟩⟩

/-- The written form of the type of a global. -/
def GlobalType.encode (t : GlobalType) : Bytes :=
  [t.type.code, if t.mutable then 1 else 0]

/-! ## Initializers -/

/-- A constant initializer. -/
inductive Initializer where
  | i32Const (value : UInt32)
  | i64Const (value : UInt64)
  | f32Const (pattern : UInt32)
  | f64Const (pattern : UInt64)
  | globalGet (index : UInt32)
  | refFunc (index : UInt32)
  | refNull (heapType : UInt8)
  deriving Repr, DecidableEq

namespace Initializer

/-- The initializer in a module table. -/
def constExpr : Initializer → ConstExpr
  | i32Const value => ⟨0x41, value.toUInt64⟩
  | i64Const value => ⟨0x42, value⟩
  | f32Const pattern => ⟨0x43, pattern.toUInt64⟩
  | f64Const pattern => ⟨0x44, pattern⟩
  | globalGet index => ⟨0x23, index.toUInt64⟩
  | refFunc index => .refFunc index
  | refNull heapType => ⟨0xD0, heapType.toUInt64⟩

/-- The written form of an immediate. -/
def immediate : Initializer → Bytes
  | i32Const value => .ofSigned value.toInt32.toInt
  | i64Const value => .ofSigned value.toInt64.toInt
  | f32Const pattern => littleEndianBytes 4 pattern.toNat
  | f64Const pattern => littleEndianBytes 8 pattern.toNat
  | globalGet index | refFunc index => .ofUnsigned index.toNat
  | refNull heapType => [heapType]

/-- The written form of an initializer. -/
def encode (e : Initializer) : Bytes :=
  e.constExpr.opcode :: (e.immediate ++ [0x0B])

private theorem encode_ne_nil (e : Initializer) : e.encode ≠ [] :=
  List.cons_ne_nil _ _

end Initializer

/-! ## Imports -/

/-- The written form of what an import has to be. -/
def ImportDesc.encode (desc : ImportDesc) : Bytes :=
  desc.kind.code ::
    match desc with
    | func typeIndex => Bytes.ofUnsigned typeIndex.toNat
    | table type => type.encode
    | memory limits => limits.encode
    | global type => type.encode

/-- What an import has to be refers to one of the types, and is itself valid. -/
def ImportDesc.Valid (types : Nat) : ImportDesc → Prop
  | func typeIndex => typeIndex.toNat < types
  | table type => type.Valid
  | memory limits => limits.Valid
  | global type => type.type.isKnown = true

instance (types : Nat) : (desc : ImportDesc) → Decidable (desc.Valid types)
  | .func typeIndex => inferInstanceAs (Decidable (typeIndex.toNat < types))
  | .table type => inferInstanceAs (Decidable type.Valid)
  | .memory limits => inferInstanceAs (Decidable limits.Valid)
  | .global type => inferInstanceAs (Decidable (type.type.isKnown = true))

namespace Decoder

/-- Value types are recovered from a list of their codes. -/
theorem recovers_valueTypes {ts : List ValueType} (few : ts.length < 2 ^ 32)
    (known : ∀ t ∈ ts, t.isKnown = true) : valueTypes.Recovers (ValueType.encodeAll ts) ts := by
  have hcounted := recovers_counted few (fun t _ => List.cons_ne_nil t.code [])
    (fun t ht => recovers_valueType (known t ht)) (recovers_pure (ts.map fun t => t))
  simpa [valueTypes, ValueType.encodeAll] using hcounted

private theorem recovers_referenceType {t : ValueType} (h : t.isReference = true) :
    referenceType.Recovers [t.code] t := by
  refine (recovers_valueType (ValueType.isKnown_of_isReference h)).bind_pure ?_
  exact (recovers_check h).bind_nil (recovers_pure t)

/-- A minimum and a maximum are recovered. -/
private theorem recovers_limitBounds {l : Limits} (valid : l.Valid) :
    (limitBounds l.max.isSome (do return (← u32).toUInt64)).Recovers
      (Bytes.ofUnsigned l.min.toNat ++ l.max.elim [] fun max => Bytes.ofUnsigned max.toNat)
      (l.min, l.max) := by
  have hbound : ∀ n : UInt64, n.toNat < 2 ^ 32 →
      (do return (← u32).toUInt64 : Decoder UInt64).Recovers (.ofUnsigned n.toNat) n := by
    intro n hn
    have hn' : (UInt32.ofNat n.toNat).toUInt64 = n := by
      apply UInt64.toNat_inj.1
      rw [UInt32.toNat_toUInt64, UInt32.toNat_ofNat_of_lt' hn]
    refine (recovers_count hn).bind_pure ?_
    rw [hn']
    exact recovers_pure n
  refine (hbound l.min valid.min).bind ?_
  cases hmax : l.max with
  | none => exact recovers_pure _
  | some max =>
    obtain ⟨le, lt⟩ := valid.max max hmax
    refine (hbound max lt).bind_pure ?_
    exact (recovers_check (by simpa using le)).bind_nil (recovers_pure _)

/-- Limits are recovered if their flags are allowed. -/
theorem recovers_limits {l : Limits} {flagLimit : UInt8} (valid : l.Valid)
    (h : l.flags < flagLimit) : (limits flagLimit).Recovers l.encode l := by
  refine (recovers_byte l.flags).bind_cons ?_
  refine (recovers_check (by simpa using h)).bind_nil ?_
  -- The flags say again which bounds are there.
  have hmax : (l.flags &&& 1 != 0) = l.max.isSome := by
    unfold Limits.flags
    rw [valid.is64]
    cases l.max.isSome <;> cases l.shared <;> rfl
  have hshared : (l.flags &&& 2 != 0) = l.shared := by
    unfold Limits.flags
    rw [valid.is64]
    cases l.max.isSome <;> cases l.shared <;> rfl
  have his64 : (l.flags &&& 4 != 0) = l.is64 := by
    unfold Limits.flags
    rw [valid.is64]
    cases l.max.isSome <;> cases l.shared <;> rfl
  simp only [hmax, hshared, his64, valid.is64, Bool.false_eq_true, if_false]
  refine (recovers_limitBounds valid).bind_pure ?_
  have hsame : ({ l with is64 := false } : Limits) = l := by rw [← valid.is64]
  show (pure { l with is64 := false } : Decoder Limits).Recovers [] l
  rw [hsame]
  exact recovers_pure l

/-- A table type is recovered. -/
theorem recovers_tableType {t : TableType} (valid : t.Valid) : tableType.Recovers t.encode t := by
  refine (recovers_referenceType valid.element).bind_cons ?_
  refine (recovers_limits valid.limits ?_).bind_pure (recovers_pure t)
  unfold Limits.flags
  rw [valid.limits.is64, valid.shared]
  cases t.limits.max.isSome <;> decide

/-- The limits of a memory are recovered. -/
theorem recovers_memoryLimits {l : Limits} (valid : l.Valid) :
    memoryLimits.Recovers l.encode l := by
  refine recovers_limits valid ?_
  unfold Limits.flags
  rw [valid.is64]
  cases l.max.isSome <;> cases l.shared <;> decide

/-- The type of a global is recovered. -/
theorem recovers_globalType {t : GlobalType} (known : t.type.isKnown = true) :
    globalType.Recovers t.encode t := by
  refine (recovers_valueType known).bind_cons ?_
  refine (recovers_byte _).bind_pure ?_
  refine (recovers_check ?_).bind_nil ?_
  · cases t.mutable <;> rfl
  · have hflag : ((if t.mutable then 1 else 0 : UInt8) != 0) = t.mutable := by
      cases t.mutable <;> rfl
    rw [hflag]
    exact recovers_pure t

/-- An initializer is recovered with its end mark. -/
theorem recovers_constExpr (e : Initializer) : constExpr.Recovers e.encode e.constExpr := by
  -- The opcode says how the immediate is written.
  have himmediate : (constImmediate e.constExpr.opcode).Recovers e.immediate e.constExpr.value := by
    cases e with
    | i32Const value => exact (recovers_s32 value).bind_pure (recovers_pure _)
    | i64Const value => exact recovers_s64 value
    | f32Const pattern =>
      refine (recovers_littleEndian pattern.toNat_lt).bind_pure ?_
      have : UInt64.ofNat pattern.toNat = pattern.toUInt64 := by simp
      rw [this]
      exact recovers_pure _
    | f64Const pattern =>
      refine (recovers_littleEndian pattern.toNat_lt).bind_pure ?_
      rw [UInt64.ofNat_toNat]
      exact recovers_pure _
    | globalGet index => exact (recovers_u32 index).bind_pure (recovers_pure _)
    | refFunc index => exact (recovers_u32 index).bind_pure (recovers_pure _)
    | refNull heapType => exact (recovers_byte heapType).bind_pure (recovers_pure _)
  refine (recovers_byte e.constExpr.opcode).bind_cons ?_
  refine himmediate.bind ?_
  refine (recovers_byte 0x0B).bind_pure ?_
  exact (recovers_check rfl).bind_nil (recovers_pure _)

/-- What an import has to be is recovered. -/
theorem recovers_importDesc {types : Nat} {desc : ImportDesc} (valid : desc.Valid types) :
    importDesc.Recovers desc.encode desc := by
  refine (recovers_byte desc.kind.code).bind_cons ?_
  rw [ExternalKind.ofCode?_code]
  cases desc with
  | func typeIndex => exact (recovers_u32 typeIndex).bind_pure (recovers_pure _)
  | table type => exact (recovers_tableType valid).bind_pure (recovers_pure _)
  | memory limits => exact (recovers_memoryLimits valid).bind_pure (recovers_pure _)
  | global type => exact (recovers_globalType valid).bind_pure (recovers_pure _)

end Decoder

/-! ## Segments -/

/-- Where the items of an element segment go: to a table, which is table 0 unless it is named, or to
    none. -/
inductive ElementPlace where
  | active (offset : Initializer)
  | activeIn (table : UInt32) (offset : Initializer)
  | passive
  | declarative
  deriving Repr, DecidableEq

/-- The items of an element segment: functions by their indices, or references of some type. -/
inductive ElementItems where
  | functions (indices : List UInt32)
  | references (type : ValueType) (items : List Initializer)
  deriving Repr, DecidableEq

/-- An element segment in one of its eight encodings. -/
structure ElementDesc where
  place : ElementPlace
  items : ElementItems
  deriving Repr, DecidableEq

namespace ElementPlace

/-- Whether the segment is not active, which is bit 0 of the flags. -/
def inactive : ElementPlace → Bool
  | active _ | activeIn .. => false
  | passive | declarative => true

/-- Whether the segment names its table or is declarative, which is bit 1 of the flags. -/
def explicit : ElementPlace → Bool
  | active _ | passive => false
  | activeIn .. | declarative => true

/-- The written form of a place. -/
def encode : ElementPlace → Bytes
  | active offset => offset.encode
  | activeIn table offset => Bytes.ofUnsigned table.toNat ++ offset.encode
  | passive | declarative => []

/-- The place in a module table. -/
def segment : ElementPlace → ElementSegment
  | active offset => { offset := offset.constExpr }
  | activeIn table offset => { table, offset := offset.constExpr }
  | passive => { mode := .passive }
  | declarative => { mode := .declarative }

end ElementPlace

namespace ElementItems

/-- Whether the items are expressions, which is bit 2 of the flags. -/
def expressions : ElementItems → Bool
  | functions _ => false
  | references .. => true

/-- The type of the items. -/
def type : ElementItems → ValueType
  | functions _ => .funcref
  | references type _ => type

/-- The byte that stands for the type of the items, if there is one. -/
def typeCode : ElementItems → UInt8
  | functions _ => 0
  | references type _ => type.code

/-- The written forms of the items. -/
def encodeAll : ElementItems → List Bytes
  | functions indices => indices.map fun index => Bytes.ofUnsigned index.toNat
  | references _ items => items.map Initializer.encode

/-- The items in a module table. -/
def constExprs : ElementItems → List ConstExpr
  | functions indices => indices.map ConstExpr.refFunc
  | references _ items => items.map Initializer.constExpr

/-- Functions that are given by their indices exist, and other items are references, of functions
    unless their type is written out. -/
def Valid (count : Nat) (typed : Bool) : ElementItems → Prop
  | functions indices => ∀ index ∈ indices, index.toNat < count
  | references type _ => type.isReference = true ∧ (typed = false → type = .funcref)

instance (count : Nat) (typed : Bool) : (items : ElementItems) → Decidable (items.Valid count typed)
  | functions indices => List.decidableBAll (fun index : UInt32 => index.toNat < count) indices
  | references type _ =>
    inferInstanceAs (Decidable (type.isReference = true ∧ (typed = false → type = .funcref)))

end ElementItems

namespace ElementDesc

/-- The flags of an element segment. -/
def flags (s : ElementDesc) : UInt32 :=
  (if s.place.inactive then 1 else 0) + (if s.place.explicit then 2 else 0) +
    if s.items.expressions then 4 else 0

/-- The written form of the type, which is left out where both bits of the place are clear. -/
def encodeType (s : ElementDesc) : Bytes :=
  if s.place.inactive || s.place.explicit then [s.items.typeCode] else []

/-- The written form of an element segment. -/
def encode (s : ElementDesc) : Bytes :=
  Bytes.ofUnsigned s.flags.toNat ++
    (s.place.encode ++ (s.encodeType ++ Bytes.vector s.items.encodeAll))

theorem encode_ne_nil (s : ElementDesc) : s.encode ≠ [] := by
  simp [encode, Bytes.ofUnsigned_ne_nil]

/-- The element segment in a module table. -/
def segment (s : ElementDesc) : ElementSegment :=
  { s.place.segment with type := s.items.type, items := s.items.constExprs }

/-- The items are valid, with the type written out unless both bits of the place are clear. -/
def Valid (functions : Nat) (s : ElementDesc) : Prop :=
  s.items.Valid functions (s.place.inactive || s.place.explicit)

instance (functions : Nat) (s : ElementDesc) : Decidable (s.Valid functions) :=
  inferInstanceAs (Decidable (s.items.Valid functions _))

end ElementDesc

/-- Where the bytes of a data segment go: to a memory, which is memory 0 unless it is named, or to
    none. -/
inductive DataPlace where
  | active (offset : Initializer)
  | passive
  | activeIn (memory : UInt32) (offset : Initializer)
  deriving Repr, DecidableEq

/-- A data segment in one of its three encodings. -/
structure DataDesc where
  place : DataPlace
  bytes : Bytes
  deriving Repr, DecidableEq

namespace DataPlace

/-- The flags of a data segment. -/
def flags : DataPlace → UInt32
  | active _ => 0
  | passive => 1
  | activeIn .. => 2

/-- The written form of a place. -/
def encode : DataPlace → Bytes
  | active offset => offset.encode
  | passive => []
  | activeIn memory offset => Bytes.ofUnsigned memory.toNat ++ offset.encode

/-- The place in a module table. -/
def segment : DataPlace → DataSegment
  | active offset => { offset := offset.constExpr }
  | passive => { mode := .passive }
  | activeIn memory offset => { memory, offset := offset.constExpr }

end DataPlace

/-- The written form of a data segment. -/
def DataDesc.encode (s : DataDesc) : Bytes :=
  Bytes.ofUnsigned s.place.flags.toNat ++ (s.place.encode ++ s.bytes.sized)

theorem DataDesc.encode_ne_nil (s : DataDesc) : s.encode ≠ [] := by
  simp [encode, Bytes.ofUnsigned_ne_nil]

/-- The data segment in a module table. -/
def DataDesc.segment (s : DataDesc) : DataSegment :=
  { s.place.segment with bytes := s.bytes }

namespace Decoder

/-- The bits of the flags of an element segment. -/
private theorem elementFlags_bits (a b c : Bool) :
    let flags : UInt32 := (if a then 1 else 0) + (if b then 2 else 0) + if c then 4 else 0
    (flags &&& 1 != 0) = a ∧ (flags &&& 2 != 0) = b ∧ (flags &&& 4 != 0) = c ∧
      (flags &&& 3 == 0) = !(a || b) ∧ flags < 8 := by
  cases a <;> cases b <;> cases c <;> decide

/-- The place of an element segment is recovered by its flags. -/
private theorem recovers_elementPlace (s : ElementDesc) :
    (elementPlace s.flags).Recovers s.place.encode s.place.segment := by
  obtain ⟨hinactive, hexplicit, -, -, -⟩ :=
    elementFlags_bits s.place.inactive s.place.explicit s.items.expressions
  unfold elementPlace ElementDesc.flags
  rw [hinactive, hexplicit]
  -- The bits say which of the four places it is.
  cases s.place with
  | active offset =>
    refine (recovers_pure 0).bind_nil ?_
    exact (recovers_constExpr offset).bind_pure (recovers_pure _)
  | activeIn table offset =>
    refine (recovers_u32 table).bind ?_
    exact (recovers_constExpr offset).bind_pure (recovers_pure _)
  | passive => exact recovers_pure _
  | declarative => exact recovers_pure _

/-- The type of an element segment is recovered, also where it is not written. -/
private theorem recovers_elementType {functions : Nat} {s : ElementDesc}
    (valid : s.Valid functions) : (elementType s.flags).Recovers s.encodeType s.items.type := by
  obtain ⟨-, -, hexpressions, hplain, -⟩ :=
    elementFlags_bits s.place.inactive s.place.explicit s.items.expressions
  unfold elementType ElementDesc.encodeType ElementDesc.flags
  rw [hexpressions, hplain]
  unfold ElementDesc.Valid at valid
  cases hplace : s.place.inactive || s.place.explicit with
  -- The type is not written, so it is that of functions.
  | false =>
    have htype : s.items.type = .funcref := by
      cases hitems : s.items with
      | functions indices => rfl
      | references type items =>
        rw [hitems] at valid
        exact valid.2 hplace
    rw [htype]
    exact recovers_pure _
  | true =>
    cases hitems : s.items with
    | functions indices =>
      refine (recovers_byte 0).bind_pure ?_
      exact (recovers_check rfl).bind_nil (recovers_pure _)
    | references type items =>
      rw [hitems] at valid
      exact recovers_referenceType valid.1

/-- An element segment is recovered in each of its encodings. -/
theorem recovers_element {t : ModuleTable} {s : ElementDesc} (valid : s.Valid t.functions.size)
    (small : s.encode.length < 2 ^ 32) :
    (elementEntry t).Recovers s.encode (t.addElement s.segment) := by
  obtain ⟨-, -, hexpressions, -, hlimit⟩ :=
    elementFlags_bits s.place.inactive s.place.explicit s.items.expressions
  have hvector := Bytes.length_flatten_le_vector s.items.encodeAll
  simp only [ElementDesc.encode, List.length_append] at small
  -- The flags come first, and say how the rest is written.
  refine (recovers_u32 s.flags).bind ?_
  refine (recovers_check (decide_eq_true hlimit)).bind_nil ?_
  refine (recovers_elementPlace s).bind ?_
  refine (recovers_elementType valid).bind ?_
  unfold ElementDesc.Valid at valid
  cases hitems : s.items with
  | functions indices =>
    rw [hitems] at valid hexpressions hvector small
    simp only [ElementItems.encodeAll] at hvector small
    have hitem : ∀ index ∈ indices, (elementItem t s.flags).Recovers
        (Bytes.ofUnsigned index.toNat) (.refFunc index) := by
      intro index hindex
      unfold elementItem ElementDesc.flags
      rw [hitems, hexpressions]
      refine (recovers_u32 index).bind_pure ?_
      exact (recovers_check (by simpa using valid index hindex)).bind_nil (recovers_pure _)
    -- Every item takes at least one byte, so there are not too many of them.
    have hfew := length_le_flatten
      (fun (index : UInt32) (_ : index ∈ indices) => Bytes.ofUnsigned_ne_nil index.toNat)
    have hsegment : s.segment = { s.place.segment with
        type := .funcref, items := indices.map ConstExpr.refFunc } := by
      rw [ElementDesc.segment, hitems]
      rfl
    rw [hsegment]
    exact recovers_counted (by omega) (fun _ _ => Bytes.ofUnsigned_ne_nil _) hitem (recovers_pure _)
  | references type items =>
    rw [hitems] at hexpressions hvector small
    simp only [ElementItems.encodeAll] at hvector small
    have hitem : ∀ e ∈ items, (elementItem t s.flags).Recovers
        (Initializer.encode e) e.constExpr := by
      intro e he
      unfold elementItem ElementDesc.flags
      rw [hitems, hexpressions]
      exact recovers_constExpr e
    have hfew := length_le_flatten
      (fun (e : Initializer) (_ : e ∈ items) => e.encode_ne_nil)
    have hsegment : s.segment = { s.place.segment with
        type, items := items.map Initializer.constExpr } := by
      rw [ElementDesc.segment, hitems]
      rfl
    rw [hsegment]
    exact recovers_counted (by omega) (fun e _ => e.encode_ne_nil) hitem (recovers_pure _)

/-- A data segment is recovered in each of its encodings. -/
theorem recovers_data {t : ModuleTable} {s : DataDesc} (small : s.encode.length < 2 ^ 32) :
    (dataEntry t).Recovers s.encode (t.addData s.segment) := by
  have hsized := Bytes.length_sized s.bytes
  simp only [DataDesc.encode, List.length_append] at small
  -- The flags say where the segment goes.
  have hplace : (dataPlace s.place.flags).Recovers s.place.encode s.place.segment := by
    cases s.place with
    | active offset =>
      refine (recovers_pure 0).bind_nil ?_
      exact (recovers_constExpr offset).bind_pure (recovers_pure _)
    | passive => exact recovers_pure _
    | activeIn memory offset =>
      refine (recovers_u32 memory).bind ?_
      exact (recovers_constExpr offset).bind_pure (recovers_pure _)
  refine (recovers_u32 s.place.flags).bind ?_
  refine (recovers_check (by cases s.place <;> rfl)).bind_nil ?_
  refine hplace.bind ?_
  exact (recovers_sized (by omega)).bind_pure (recovers_pure _)

end Decoder

end WasmLowering
