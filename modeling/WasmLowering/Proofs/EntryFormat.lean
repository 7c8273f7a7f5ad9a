import WasmLowering.Proofs.ModuleFormat
import WasmLowering.Proofs.Soundness
import WasmLowering.Proofs.TableInvariant

/-!
# The binary format of section entries

The format of the entries of a section as relations between what an entry says and the bytes it may
be written in. What an entry says is an edit of the module table, so that one relation `EntryForm`
covers all sections but the code section. The decoder of an entry is sound for this format: it
consumes a form of an edit and applies this edit to the table.

## Key results

- `sound_limits`, `sound_constExpr`, `sound_importDesc`: the parts of entries
- `sound_element`, `sound_data`: segments in all of their encodings
- `sound_entries`: a section is its number of entries followed by forms of the edits it makes
-/

namespace WasmLowering

/-! ## The format -/

/-- The forms of a list of items behind their number. -/
inductive VectorForm {α : Type} (form : α → Bytes → Prop) : List α → Bytes → Prop where
  | mk {items : List α} {count : Bytes} {parts : List Bytes}
      (number : UnsignedForm 32 items.length count) (forms : List.Forall₂ form items parts) :
      VectorForm form items (count ++ parts.flatten)

/-- Each item of a list has a form. -/
theorem VectorForm.parts {α : Type} {form : α → Bytes → Prop} {items : List α} {bytes : Bytes}
    (h : VectorForm form items bytes) : ∃ parts, List.Forall₂ form items parts := by
  obtain ⟨-, forms⟩ := h
  exact ⟨_, forms⟩

/-- An item of a list has a form. -/
theorem VectorForm.exists_part {α : Type} {form : α → Bytes → Prop} {items : List α} {bytes : Bytes}
    (h : VectorForm form items bytes) {item : α} (hmem : item ∈ items) :
    ∃ part, form item part := by
  obtain ⟨_, forms⟩ := h.parts
  obtain ⟨n, hn, rfl⟩ := List.getElem_of_mem hmem
  exact ⟨_, forms.get hn (forms.length_eq ▸ hn)⟩

/-- A list that can be written is short. -/
theorem VectorForm.small {α : Type} {form : α → Bytes → Prop} {items : List α} {bytes : Bytes}
    (h : VectorForm form items bytes) : items.length < 2 ^ 32 := by
  obtain ⟨number, -⟩ := h
  exact number.lt

/-- The forms of an index or a count. -/
def IndexForm (n : UInt32) (bytes : Bytes) : Prop :=
  UnsignedForm 32 n.toNat bytes

/-- A value type is its code. -/
inductive ValueTypeForm : ValueType → Bytes → Prop where
  | mk {t : ValueType} (known : t.isKnown = true) : ValueTypeForm t [t.code]

/-- The forms of a function type: a form byte, the parameters and the results. -/
inductive FuncTypeForm : FuncType → Bytes → Prop where
  | mk {t : FuncType} {xs ys : Bytes} (params : VectorForm ValueTypeForm t.params xs)
      (results : VectorForm ValueTypeForm t.results ys) :
      FuncTypeForm t (Decoder.funcTypeForm :: (xs ++ ys))

/-- The width of the bounds of limits. -/
def Limits.width (l : Limits) : Nat :=
  if l.is64 then 64 else 32

/-- The forms of a minimum and, if there is one, a maximum, which may not be below the minimum. -/
inductive BoundsForm (width : Nat) : UInt64 → Option UInt64 → Bytes → Prop where
  | unbounded {min : UInt64} {bytes : Bytes} (form : UnsignedForm width min.toNat bytes) :
      BoundsForm width min none bytes
  | bounded {min max : UInt64} {xs ys : Bytes} (order : min ≤ max)
      (low : UnsignedForm width min.toNat xs) (high : UnsignedForm width max.toNat ys) :
      BoundsForm width min (some max) (xs ++ ys)

/-- The forms of limits: the flags and the bounds. -/
inductive LimitsForm : Limits → Bytes → Prop where
  | mk {l : Limits} {bytes : Bytes} (bounds : BoundsForm l.width l.min l.max bytes) :
      LimitsForm l (l.flags :: bytes)

/-- The forms of a table type. Tables are neither shared nor have they 64-bit addresses. -/
inductive TableTypeForm : TableType → Bytes → Prop where
  | mk {t : TableType} {bytes : Bytes} (element : t.element.isReference = true)
      (limits : LimitsForm t.limits bytes) (flags : t.limits.flags < 2) :
      TableTypeForm t (t.element.code :: bytes)

/-- A global type is its type and whether it may be assigned. -/
inductive GlobalTypeForm : GlobalType → Bytes → Prop where
  | mk {t : GlobalType} (known : t.type.isKnown = true) : GlobalTypeForm t t.encode

/-- The forms of an initializer: an operator, its immediate, and an `end`. -/
inductive InitializerForm : Initializer → Bytes → Prop where
  | i32Const {value : UInt32} {bytes : Bytes} (form : SignedForm 32 value.toInt32.toInt bytes) :
      InitializerForm (.i32Const value) (0x41 :: (bytes ++ [0x0B]))
  | i64Const {value : UInt64} {bytes : Bytes} (form : SignedForm 64 value.toInt64.toInt bytes) :
      InitializerForm (.i64Const value) (0x42 :: (bytes ++ [0x0B]))
  | f32Const (pattern : UInt32) :
      InitializerForm (.f32Const pattern) (0x43 :: (littleEndianBytes 4 pattern.toNat ++ [0x0B]))
  | f64Const (pattern : UInt64) :
      InitializerForm (.f64Const pattern) (0x44 :: (littleEndianBytes 8 pattern.toNat ++ [0x0B]))
  | globalGet {index : UInt32} {bytes : Bytes} (form : IndexForm index bytes) :
      InitializerForm (.globalGet index) (0x23 :: (bytes ++ [0x0B]))
  | refFunc {index : UInt32} {bytes : Bytes} (form : IndexForm index bytes) :
      InitializerForm (.refFunc index) (0xD2 :: (bytes ++ [0x0B]))
  | refNull (heapType : UInt8) : InitializerForm (.refNull heapType) [0xD0, heapType, 0x0B]

/-- The forms of what an import has to be. -/
inductive ImportDescForm : ImportDesc → Bytes → Prop where
  | func {typeIndex : UInt32} {bytes : Bytes} (form : IndexForm typeIndex bytes) :
      ImportDescForm (.func typeIndex) (0x00 :: bytes)
  | table {type : TableType} {bytes : Bytes} (form : TableTypeForm type bytes) :
      ImportDescForm (.table type) (0x01 :: bytes)
  | memory {limits : Limits} {bytes : Bytes} (form : LimitsForm limits bytes) :
      ImportDescForm (.memory limits) (0x02 :: bytes)
  | global {type : GlobalType} {bytes : Bytes} (form : GlobalTypeForm type bytes) :
      ImportDescForm (.global type) (0x03 :: bytes)

/-- The forms of the place of an element segment. -/
inductive ElementPlaceForm : ElementPlace → Bytes → Prop where
  | active {offset : Initializer} {bytes : Bytes} (form : InitializerForm offset bytes) :
      ElementPlaceForm (.active offset) bytes
  | activeIn {table : UInt32} {offset : Initializer} {xs ys : Bytes} (index : IndexForm table xs)
      (form : InitializerForm offset ys) : ElementPlaceForm (.activeIn table offset) (xs ++ ys)
  | passive : ElementPlaceForm .passive []
  | declarative : ElementPlaceForm .declarative []

/-- The forms of the items of an element segment. -/
inductive ElementItemsForm : ElementItems → Bytes → Prop where
  | functions {indices : List UInt32} {bytes : Bytes} (form : VectorForm IndexForm indices bytes) :
      ElementItemsForm (.functions indices) bytes
  | references {type : ValueType} {items : List Initializer} {bytes : Bytes}
      (form : VectorForm InitializerForm items bytes) :
      ElementItemsForm (.references type items) bytes

/-- References are of a reference type, which is `funcref` if the type is not written. -/
def ElementItems.Typed (typed : Bool) : ElementItems → Prop
  | functions _ => True
  | references type _ => type.isReference = true ∧ (typed = false → type = .funcref)

/-- The items of a valid segment are typed. -/
theorem ElementItems.Valid.typed {count : Nat} {typed : Bool} {items : ElementItems}
    (h : items.Valid count typed) : items.Typed typed := by
  cases items with
  | functions indices => trivial
  | references type items => exact h

/-- The forms of an element segment. -/
inductive ElementForm : ElementDesc → Bytes → Prop where
  | mk {s : ElementDesc} {xs ys zs : Bytes} (number : IndexForm s.flags xs)
      (place : ElementPlaceForm s.place ys) (items : ElementItemsForm s.items zs)
      (typed : s.items.Typed (s.place.inactive || s.place.explicit)) :
      ElementForm s (xs ++ (ys ++ (s.encodeType ++ zs)))

/-- The forms of the place of a data segment. -/
inductive DataPlaceForm : DataPlace → Bytes → Prop where
  | active {offset : Initializer} {bytes : Bytes} (form : InitializerForm offset bytes) :
      DataPlaceForm (.active offset) bytes
  | passive : DataPlaceForm .passive []
  | activeIn {memory : UInt32} {offset : Initializer} {xs ys : Bytes}
      (index : IndexForm memory xs) (form : InitializerForm offset ys) :
      DataPlaceForm (.activeIn memory offset) (xs ++ ys)

/-- The forms of a data segment. -/
inductive DataForm : DataDesc → Bytes → Prop where
  | mk {s : DataDesc} {xs ys zs : Bytes} (number : IndexForm s.place.flags xs)
      (place : DataPlaceForm s.place ys) (content : SizedForm s.bytes zs) :
      DataForm s (xs ++ (ys ++ zs))

/-- The forms of an edit as an entry of a section. -/
inductive EntryForm : SectionKind → TableEdit → Bytes → Prop where
  | type {t : FuncType} {bytes : Bytes} (form : FuncTypeForm t bytes) :
      EntryForm .types (.addType t) bytes
  | imported {module name xs ys zs : Bytes} {desc : ImportDesc} (first : SizedForm module xs)
      (second : SizedForm name ys) (form : ImportDescForm desc zs) :
      EntryForm .imports (.addImport module name desc) (xs ++ (ys ++ zs))
  | function {typeIndex : UInt32} {bytes : Bytes} (form : IndexForm typeIndex bytes) :
      EntryForm .functions (.addFunction typeIndex) bytes
  | table {t : TableType} {bytes : Bytes} (form : TableTypeForm t bytes) :
      EntryForm .tables (.addTable t) bytes
  | memory {limits : Limits} {bytes : Bytes} (form : LimitsForm limits bytes) :
      EntryForm .memories (.addMemory limits) bytes
  | global {t : GlobalType} {init : Initializer} {xs ys : Bytes} (type : GlobalTypeForm t xs)
      (form : InitializerForm init ys) :
      EntryForm .globals (.addGlobal t init.constExpr) (xs ++ ys)
  | exported {name xs ys : Bytes} {kind : ExternalKind} {index : UInt32} (first : SizedForm name xs)
      (form : IndexForm index ys) :
      EntryForm .exports (.addExport name kind.code index) (xs ++ kind.code :: ys)
  | start {index : UInt32} {bytes : Bytes} (form : IndexForm index bytes) :
      EntryForm .start (.setStart index) bytes
  | element {s : ElementDesc} {bytes : Bytes} (form : ElementForm s bytes) :
      EntryForm .elements (.addElement s.segment) bytes
  | data {s : DataDesc} {bytes : Bytes} (form : DataForm s bytes) :
      EntryForm .data (.addData s.segment) bytes
  | dataCount {count : UInt32} {bytes : Bytes} (form : IndexForm count bytes) :
      EntryForm .dataCount (.setDataCount count) bytes

/-- Edits that are all accepted, one after the other. -/
def ModuleTable.Edits (t : ModuleTable) (edits : List TableEdit) (u : ModuleTable) : Prop :=
  Chain (fun t u e => t.edit e = .ok u) t edits u

namespace Decoder

variable {α : Type} {input rest : Bytes}

/-! ## Types and limits -/

private theorem sound_index : u32.Sound IndexForm :=
  sound_u32

/-- A list is read from its number and the forms of its items. -/
private theorem sound_counted {d : Decoder α} {form : α → Bytes → Prop} (h : d.Sound form) :
    (do
      let count ← u32
      check (count.toNat ≤ (← remaining))
      replicate d count.toNat : Decoder (List α)).Sound (VectorForm form) := by
  intro input rest as hrun
  obtain ⟨n, mid, hn, hmore⟩ := run_bind_eq_ok.1 hrun
  obtain ⟨left, mid', hleft, hcheck⟩ := run_bind_eq_ok.1 hmore
  obtain ⟨_, mid'', hfew, hitems⟩ := run_bind_eq_ok.1 hcheck
  obtain ⟨count, rfl, number⟩ := sound_u32 hn
  obtain ⟨-, rfl⟩ := Prod.mk.inj hleft
  obtain ⟨-, rfl⟩ := check_run hfew
  obtain ⟨_, rfl, hlength, parts, rfl, forms⟩ := sound_replicate h _ hitems
  exact ⟨count ++ parts.flatten, by simp, .mk (hlength ▸ number) forms⟩

private theorem sound_valueTypes : valueTypes.Sound (VectorForm ValueTypeForm) := by
  refine sound_counted fun input rest t h => ?_
  obtain ⟨bytes, rfl, rfl, known⟩ := sound_valueType h
  exact ⟨_, rfl, .mk known⟩

/-- A reference type is read from its code. -/
private theorem sound_referenceType :
    referenceType.Sound fun t bytes => bytes = [t.code] ∧ t.isReference = true := by
  intro input rest t h
  obtain ⟨u, mid, hu, hmore⟩ := run_bind_eq_ok.1 h
  obtain ⟨_, mid', hcheck, hpure⟩ := run_bind_eq_ok.1 hmore
  obtain ⟨bytes, rfl, rfl, -⟩ := sound_valueType hu
  obtain ⟨reference, rfl⟩ := check_run hcheck
  obtain ⟨rfl, rfl⟩ := pure_run hpure
  exact ⟨_, rfl, rfl, reference⟩

/-- The flags below eight are those that limits can have. -/
private theorem flags_eq {flags : UInt8} (h : flags < 8) (l : Limits)
    (hasMax : l.max.isSome = (flags &&& 1 != 0)) (shared : l.shared = (flags &&& 2 != 0))
    (is64 : l.is64 = (flags &&& 4 != 0)) : l.flags = flags := by
  simp only [Limits.flags, hasMax, shared, is64]
  have hall : ∀ n : Fin 8, (if UInt8.ofNat n.val &&& 1 != 0 then (1 : UInt8) else 0) +
      (if UInt8.ofNat n.val &&& 2 != 0 then 2 else 0) +
      (if UInt8.ofNat n.val &&& 4 != 0 then 4 else 0) = UInt8.ofNat n.val := by decide
  simpa using hall ⟨flags.toNat, UInt8.lt_iff_toNat_lt.1 h⟩

/-- A minimum and a maximum are read from their forms, in order. -/
private theorem sound_limitBounds {bound : Decoder UInt64} {width : Nat}
    (h : bound.Sound fun n => UnsignedForm width n.toNat) (hasMax : Bool) :
    (limitBounds hasMax bound).Sound fun p bytes =>
      BoundsForm width p.1 p.2 bytes ∧ p.2.isSome = hasMax := by
  intro input rest p hrun
  obtain ⟨min, mid, hmin, hmore⟩ := run_bind_eq_ok.1 hrun
  obtain ⟨xs, rfl, low⟩ := h hmin
  cases hasMax with
  | false =>
    obtain ⟨rfl, rfl⟩ := pure_run hmore
    exact ⟨xs, rfl, .unbounded low, rfl⟩
  -- The maximum comes second, and is compared with the minimum.
  | true =>
    obtain ⟨max, mid', hmax, hcheck⟩ := run_bind_eq_ok.1 hmore
    obtain ⟨_, mid'', horder, hpure⟩ := run_bind_eq_ok.1 hcheck
    obtain ⟨ys, rfl, high⟩ := h hmax
    obtain ⟨order, rfl⟩ := check_run horder
    obtain ⟨rfl, rfl⟩ := pure_run hpure
    exact ⟨xs ++ ys, by simp, .bounded (by simpa using order) low high, rfl⟩

/-- Bounds have the width that the flags say. -/
private theorem sound_bound (is64 : Bool) :
    (if is64 then u64 else do return (← u32).toUInt64 : Decoder UInt64).Sound fun n =>
      UnsignedForm (if is64 then 64 else 32) n.toNat := by
  cases is64 with
  | true => exact sound_u64
  | false =>
    intro input rest n h
    obtain ⟨m, hm, rfl⟩ := run_bind_pure_eq_ok h
    obtain ⟨bytes, rfl, form⟩ := sound_u32 hm
    exact ⟨bytes, rfl, by simpa using form⟩

/-- Limits are read from one of their forms, with flags below the bound. -/
theorem sound_limits {flagLimit : UInt8} (hlimit : flagLimit ≤ 8) :
    (limits flagLimit).Sound fun l bytes => LimitsForm l bytes ∧ l.flags < flagLimit := by
  intro input rest l h
  obtain ⟨flags, mid, hflags, hmore⟩ := run_bind_eq_ok.1 h
  obtain ⟨_, mid', hcheck, hbounds⟩ := run_bind_eq_ok.1 hmore
  obtain ⟨⟨min, max⟩, hrun, rfl⟩ := run_bind_pure_eq_ok hbounds
  obtain rfl := byte_run hflags
  obtain ⟨hlow, rfl⟩ := check_run hcheck
  have low : flags < flagLimit := by simpa using hlow
  obtain ⟨bytes, rfl, bounds, hasMax⟩ := sound_limitBounds (sound_bound _) _ hrun
  -- The flags can be recovered from what they say.
  have hflags : Limits.flags { min, max, shared := flags &&& 2 != 0, is64 := flags &&& 4 != 0 } =
      flags := flags_eq (UInt8.lt_of_lt_of_le low hlimit) _ hasMax rfl rfl
  refine ⟨flags :: bytes, rfl, ?_, by rwa [hflags]⟩
  have form : LimitsForm { min, max, shared := flags &&& 2 != 0, is64 := flags &&& 4 != 0 }
    (_ :: bytes) := .mk bounds
  rwa [hflags] at form

private theorem sound_memoryLimits : memoryLimits.Sound LimitsForm := by
  intro input rest l h
  obtain ⟨bytes, rfl, form, -⟩ := sound_limits (by decide) h
  exact ⟨bytes, rfl, form⟩

private theorem sound_tableType : tableType.Sound TableTypeForm := by
  intro input rest t h
  obtain ⟨element, mid, helement, hmore⟩ := run_bind_eq_ok.1 h
  obtain ⟨limits, hlimits, rfl⟩ := run_bind_pure_eq_ok hmore
  obtain ⟨_, rfl, rfl, reference⟩ := sound_referenceType helement
  obtain ⟨bytes, rfl, form, flags⟩ := sound_limits (by decide) hlimits
  exact ⟨element.code :: bytes, rfl, .mk reference form flags⟩

/-- A global type is read from the byte of its type and a bit. -/
private theorem sound_globalType : globalType.Sound GlobalTypeForm := by
  intro input rest t h
  obtain ⟨type, mid, htype, hmore⟩ := run_bind_eq_ok.1 h
  obtain ⟨flag, mid', hflag, hcheck⟩ := run_bind_eq_ok.1 hmore
  obtain ⟨_, mid'', hbound, hpure⟩ := run_bind_eq_ok.1 hcheck
  obtain ⟨_, rfl, rfl, known⟩ := sound_valueType htype
  obtain rfl := byte_run hflag
  obtain ⟨bound, rfl⟩ := check_run hbound
  obtain ⟨rfl, rfl⟩ := pure_run hpure
  -- The bit is the byte itself, which is zero or one.
  have hbit : (if flag != 0 then (1 : UInt8) else 0) = flag := by
    have hle : flag.toNat ≤ 1 := by simpa [UInt8.le_iff_toNat_le] using bound
    obtain hflag | hflag : flag.toNat = 0 ∨ flag.toNat = 1 := by omega
    · simp [show flag = 0 from UInt8.toNat_inj.1 hflag]
    · simp [show flag = 1 from UInt8.toNat_inj.1 hflag]
  have form := GlobalTypeForm.mk (t := { type, mutable := flag != 0 }) known
  exact ⟨[type.code, flag], rfl, by rwa [GlobalType.encode, hbit] at form⟩

/-! ## Initializers and imports -/

/-- An initializer is read from one of its forms. -/
theorem sound_constExpr :
    constExpr.Sound fun e bytes => ∃ init : Initializer,
      init.constExpr = e ∧ InitializerForm init bytes := by
  intro input rest e h
  obtain ⟨opcode, mid, hopcode, hmore⟩ := run_bind_eq_ok.1 h
  obtain ⟨value, mid', hvalue, hend⟩ := run_bind_eq_ok.1 hmore
  obtain ⟨last, left, hlast, hcheck⟩ := run_bind_eq_ok.1 hend
  obtain ⟨_, left', hmark, hpure⟩ := run_bind_eq_ok.1 hcheck
  obtain rfl := byte_run hopcode
  obtain rfl := byte_run hlast
  obtain ⟨mark, rfl⟩ := check_run hmark
  obtain rfl : last = 0x0B := by simpa using mark
  obtain ⟨rfl, rfl⟩ := pure_run hpure
  -- The opcode says what stands before the end mark.
  unfold constImmediate at hvalue
  split at hvalue
  · obtain ⟨n, hn, rfl⟩ := run_bind_pure_eq_ok hvalue
    obtain ⟨bytes, rfl, form⟩ := sound_s32 hn
    exact ⟨_, by simp, _, rfl, .i32Const form⟩
  · obtain ⟨bytes, rfl, form⟩ := sound_s64 hvalue
    exact ⟨_, by simp, _, rfl, .i64Const form⟩
  · obtain ⟨n, hn, rfl⟩ := run_bind_pure_eq_ok hvalue
    obtain ⟨bytes, rfl, hlt, rfl⟩ := sound_littleEndian 4 hn
    obtain ⟨pattern, rfl⟩ : ∃ pattern : UInt32, pattern.toNat = n :=
      ⟨.ofNat n, UInt32.toNat_ofNat_of_lt' hlt⟩
    exact ⟨_, by simp, .f32Const pattern, by simp [Initializer.constExpr], .f32Const pattern⟩
  · obtain ⟨n, hn, rfl⟩ := run_bind_pure_eq_ok hvalue
    obtain ⟨bytes, rfl, hlt, rfl⟩ := sound_littleEndian 8 hn
    obtain ⟨pattern, rfl⟩ : ∃ pattern : UInt64, pattern.toNat = n :=
      ⟨.ofNat n, UInt64.toNat_ofNat_of_lt' hlt⟩
    exact ⟨_, by simp, .f64Const pattern, by simp [Initializer.constExpr], .f64Const pattern⟩
  · obtain ⟨n, hn, rfl⟩ := run_bind_pure_eq_ok hvalue
    obtain ⟨bytes, rfl, form⟩ := sound_index hn
    exact ⟨_, by simp, _, rfl, .globalGet form⟩
  · obtain ⟨n, hn, rfl⟩ := run_bind_pure_eq_ok hvalue
    obtain ⟨bytes, rfl, form⟩ := sound_index hn
    exact ⟨_, by simp, _, rfl, .refFunc form⟩
  · obtain ⟨b, hb, rfl⟩ := run_bind_pure_eq_ok hvalue
    obtain rfl := byte_run hb
    exact ⟨_, by simp, _, rfl, .refNull b⟩
  · cases hvalue

/-- A known code is that of its kind. -/
private theorem code_of_ofCode? {code : UInt8} {kind : ExternalKind}
    (h : ExternalKind.ofCode? code = some kind) : code = kind.code := by
  unfold ExternalKind.ofCode? at h
  split at h <;> simp at h <;> subst h <;> rfl

/-- What an import has to be is read from one of its forms. -/
theorem sound_importDesc : importDesc.Sound ImportDescForm := by
  intro input rest desc h
  obtain ⟨code, mid, hcode, hmore⟩ := run_bind_eq_ok.1 h
  obtain rfl := byte_run hcode
  cases hkind : ExternalKind.ofCode? code with
  | none => simp [hkind, fail] at hmore
  | some kind =>
    obtain rfl := code_of_ofCode? hkind
    cases kind with
    | func =>
      obtain ⟨typeIndex, hindex, rfl⟩ := run_bind_pure_eq_ok hmore
      obtain ⟨bytes, rfl, form⟩ := sound_index hindex
      exact ⟨_, rfl, .func form⟩
    | table =>
      obtain ⟨type, htype, rfl⟩ := run_bind_pure_eq_ok hmore
      obtain ⟨bytes, rfl, form⟩ := sound_tableType htype
      exact ⟨_, rfl, .table form⟩
    | memory =>
      obtain ⟨limits, hlimits, rfl⟩ := run_bind_pure_eq_ok hmore
      obtain ⟨bytes, rfl, form⟩ := sound_memoryLimits hlimits
      exact ⟨_, rfl, .memory form⟩
    | global =>
      obtain ⟨type, htype, rfl⟩ := run_bind_pure_eq_ok hmore
      obtain ⟨bytes, rfl, form⟩ := sound_globalType htype
      exact ⟨_, rfl, .global form⟩

/-! ## Segments -/

/-- The place of an element segment is a form of one with the flags that were read. -/
private theorem sound_elementPlace (flags : UInt32) :
    (elementPlace flags).Sound fun segment bytes => ∃ place : ElementPlace,
      place.segment = segment ∧ ElementPlaceForm place bytes ∧
        place.inactive = (flags &&& 1 != 0) ∧ place.explicit = (flags &&& 2 != 0) := by
  intro input rest segment h
  unfold elementPlace at h
  -- An inactive segment has no offset. It is declarative if the second bit is set.
  split at h
  · next inactive =>
    obtain ⟨rfl, rfl⟩ := pure_run h
    cases explicit : flags &&& 2 != 0 with
    | true => exact ⟨[], rfl, .declarative, rfl, .declarative, inactive.symm, rfl⟩
    | false => exact ⟨[], rfl, .passive, rfl, .passive, inactive.symm, rfl⟩
  · next active =>
    have active : false = (flags &&& 1 != 0) := by simpa using active
    -- An active segment names a table if the second bit is set.
    split at h
    · next explicit =>
      obtain ⟨table, mid, htable, hmore⟩ := run_bind_eq_ok.1 h
      obtain ⟨offset, hoffset, rfl⟩ := run_bind_pure_eq_ok hmore
      obtain ⟨xs, rfl, index⟩ := sound_index htable
      obtain ⟨ys, rfl, init, rfl, form⟩ := sound_constExpr hoffset
      exact ⟨xs ++ ys, by simp, .activeIn table init, rfl, .activeIn index form, active,
        explicit.symm⟩
    · next implicit =>
      obtain ⟨offset, hoffset, rfl⟩ := run_bind_pure_eq_ok h
      obtain ⟨bytes, rfl, init, rfl, form⟩ := sound_constExpr hoffset
      exact ⟨bytes, rfl, .active init, rfl, .active form, active,
        (Bool.eq_false_iff.2 implicit).symm⟩

/-- The type of an element segment is a byte, or is left out if the segment is active and names no
    table. -/
private theorem sound_elementType (flags : UInt32) :
    (elementType flags).Sound fun type bytes =>
      (flags &&& 3 == 0) = true ∧ type = .funcref ∧ bytes = [] ∨
      (flags &&& 3 == 0) = false ∧ (flags &&& 4 != 0) = true ∧ type.isReference = true ∧
        bytes = [type.code] ∨
      (flags &&& 3 == 0) = false ∧ (flags &&& 4 != 0) = false ∧ type = .funcref ∧ bytes = [0] := by
  intro input rest type h
  unfold elementType at h
  split at h
  · next untyped =>
    obtain ⟨rfl, rfl⟩ := pure_run h
    exact ⟨[], rfl, .inl ⟨untyped, rfl, rfl⟩⟩
  · next typed =>
    have typed := Bool.eq_false_iff.2 typed
    split at h
    · next expressions =>
      obtain ⟨_, rfl, rfl, reference⟩ := sound_referenceType h
      exact ⟨_, rfl, .inr (.inl ⟨typed, expressions, reference, rfl⟩)⟩
    -- For indices it is a zero byte.
    · next indices =>
      obtain ⟨b, mid, hb, hmore⟩ := run_bind_eq_ok.1 h
      obtain ⟨_, mid', hcheck, hpure⟩ := run_bind_eq_ok.1 hmore
      obtain rfl := byte_run hb
      obtain ⟨zero, rfl⟩ := check_run hcheck
      obtain ⟨rfl, rfl⟩ := pure_run hpure
      obtain rfl : b = 0 := by simpa using zero
      exact ⟨[0], rfl, .inr (.inr ⟨typed, Bool.eq_false_iff.2 indices, rfl, rfl⟩)⟩

/-- Items that are made from something else, each of which has a form. -/
private theorem exists_of_forall₂ {β : Type} {make : β → α} {form : β → Bytes → Prop} {as : List α}
    {parts : List Bytes} (h : List.Forall₂ (fun a part => ∃ b, make b = a ∧ form b part) as parts) :
    ∃ bs : List β, bs.map make = as ∧ List.Forall₂ form bs parts := by
  induction h with
  | nil => exact ⟨[], rfl, .nil⟩
  | cons first _ ih =>
    obtain ⟨b, rfl, hb⟩ := first
    obtain ⟨bs, rfl, hbs⟩ := ih
    exact ⟨b :: bs, rfl, .cons hb hbs⟩

/-- The items of an element segment are references or functions, by the flags. -/
private theorem sound_elementItems {t : ModuleTable} {flags : UInt32} {n : Nat} {type : ValueType}
    (plain : (flags &&& 4 != 0) = false → type = .funcref) :
    (replicate (elementItem t flags) n).Sound fun exprs bytes => ∃ items : ElementItems,
      items.constExprs = exprs ∧ items.type = type ∧ items.expressions = (flags &&& 4 != 0) ∧
        (∀ indices, items = .functions indices → ∀ i ∈ indices, i.toNat < t.functions.size) ∧
        ∀ count, UnsignedForm 32 n count → ElementItemsForm items (count ++ bytes) := by
  intro input rest exprs h
  -- The items are expressions, or indices that are compared with the number of functions.
  cases expressions : flags &&& 4 != 0 with
  | true =>
    have hitem : (elementItem t flags).Sound fun e bytes => ∃ init : Initializer,
        init.constExpr = e ∧ InitializerForm init bytes := by
      simpa [elementItem, expressions] using sound_constExpr
    obtain ⟨_, rfl, hlength, parts, rfl, forms⟩ := sound_replicate hitem n h
    obtain ⟨items, rfl, written⟩ := exists_of_forall₂ forms
    refine ⟨_, rfl, .references type items, rfl, rfl, rfl, by simp, fun count number => ?_⟩
    exact .references (.mk (by simpa [← hlength] using number) written)
  | false =>
    have hitem : (elementItem t flags).Sound fun e bytes => ∃ index : UInt32,
        .refFunc index = e ∧ index.toNat < t.functions.size ∧ IndexForm index bytes := by
      intro input rest e he
      simp only [elementItem, expressions, Bool.false_eq_true, if_false] at he
      obtain ⟨index, mid, hindex, hmore⟩ := run_bind_eq_ok.1 he
      obtain ⟨_, mid', hcheck, hpure⟩ := run_bind_eq_ok.1 hmore
      obtain ⟨bytes, rfl, form⟩ := sound_index hindex
      obtain ⟨known, rfl⟩ := check_run hcheck
      obtain ⟨rfl, rfl⟩ := pure_run hpure
      exact ⟨bytes, rfl, index, rfl, by simpa using known, form⟩
    obtain ⟨_, rfl, hlength, parts, rfl, forms⟩ := sound_replicate hitem n h
    obtain ⟨indices, rfl, written⟩ := exists_of_forall₂ forms
    obtain ⟨known, written⟩ := (List.forall₂_and_left _ _).1 written
    refine ⟨_, rfl, .functions indices, rfl, (plain expressions).symm, rfl, ?_,
      fun count number => ?_⟩
    · rintro _ ⟨rfl⟩
      exact known
    · exact .functions (.mk (by simpa [← hlength] using number) written)

/-- The flags of an element segment are the bits that say what they mean. -/
private theorem elementFlags_eq {flags : UInt32} (h : flags < 8) :
    (if flags &&& 1 != 0 then 1 else 0) + (if flags &&& 2 != 0 then 2 else 0) +
        (if flags &&& 4 != 0 then 4 else 0) = flags ∧
      (flags &&& 3 == 0) = !((flags &&& 1 != 0) || (flags &&& 2 != 0)) := by
  have hall : ∀ n : Fin 8, let flags := UInt32.ofNat n.val
      (if flags &&& 1 != 0 then 1 else 0) + (if flags &&& 2 != 0 then 2 else 0) +
          (if flags &&& 4 != 0 then 4 else 0) = flags ∧
        (flags &&& 3 == 0) = !((flags &&& 1 != 0) || (flags &&& 2 != 0)) := by decide
  simpa using hall ⟨flags.toNat, UInt32.lt_iff_toNat_lt.1 h⟩

/-- An element segment is read from one of its forms, and is valid. -/
theorem sound_element (t : ModuleTable) :
    (elementEntry t).Sound fun u bytes => ∃ s : ElementDesc,
      u = t.addElement s.segment ∧ s.Valid t.functions.size ∧ ElementForm s bytes := by
  intro input rest u h
  obtain ⟨flags, in₁, hflags, h₁⟩ := run_bind_eq_ok.1 h
  obtain ⟨_, in₂, hcheck, h₂⟩ := run_bind_eq_ok.1 h₁
  obtain ⟨segment, in₃, hplace, h₃⟩ := run_bind_eq_ok.1 h₂
  obtain ⟨type, in₄, htype, h₄⟩ := run_bind_eq_ok.1 h₃
  obtain ⟨count, in₅, hcount, h₅⟩ := run_bind_eq_ok.1 h₄
  obtain ⟨left, in₆, hleft, h₆⟩ := run_bind_eq_ok.1 h₅
  obtain ⟨_, in₇, hfew, h₇⟩ := run_bind_eq_ok.1 h₆
  obtain ⟨exprs, hitems, rfl⟩ := run_bind_pure_eq_ok h₇
  obtain ⟨xs, rfl, number⟩ := sound_index hflags
  obtain ⟨low, rfl⟩ := check_run hcheck
  obtain ⟨ys, rfl, place, rfl, placed, inactive, explicit⟩ := sound_elementPlace flags hplace
  obtain ⟨bytes, rfl, typed⟩ := sound_elementType flags htype
  obtain ⟨zs, rfl, counted⟩ := sound_u32 hcount
  obtain ⟨-, rfl⟩ := Prod.mk.inj hleft
  obtain ⟨-, rfl⟩ := check_run hfew
  have low : flags < 8 := by simpa using low
  obtain ⟨hbits, huntyped⟩ := elementFlags_eq low
  -- Without expressions the type is fixed, written or not.
  have plain : (flags &&& 4 != 0) = false → type = .funcref := by
    intro hplain
    obtain ⟨-, rfl, -⟩ | ⟨-, hexpr, -⟩ | ⟨-, -, rfl, -⟩ := typed
    · rfl
    · rw [hplain] at hexpr
      cases hexpr
    · rfl
  obtain ⟨bs, rfl, items, rfl, rfl, expressions, known, form⟩ := sound_elementItems plain hitems
  have hflags : (⟨place, items⟩ : ElementDesc).flags = flags := by
    rw [ElementDesc.flags, inactive, explicit, expressions, hbits]
  have htyped : (place.inactive || place.explicit) = !(flags &&& 3 == 0) := by
    rw [huntyped, inactive, explicit, Bool.not_not]
  -- The type is written unless the two low bits of the flags are zero.
  have hbytes : (⟨place, items⟩ : ElementDesc).encodeType = bytes ∧
      (⟨place, items⟩ : ElementDesc).Valid t.functions.size := by
    rw [ElementDesc.encodeType, ElementDesc.Valid, htyped]
    cases items with
    | functions indices =>
      obtain ⟨huntyped, -, rfl⟩ | ⟨-, hexpr, -⟩ | ⟨htyped, -, -, rfl⟩ := typed
      · exact ⟨by simp [huntyped], known _ rfl⟩
      · cases expressions.trans hexpr
      · exact ⟨by simp [htyped, ElementItems.typeCode], known _ rfl⟩
    | references type inits =>
      obtain ⟨huntyped, hdefault, rfl⟩ | ⟨htyped, -, reference, rfl⟩ | ⟨-, hexpr, -⟩ := typed
      · obtain rfl : type = .funcref := hdefault
        exact ⟨by simp [huntyped], rfl, fun _ => rfl⟩
      · exact ⟨by simp [htyped, ElementItems.typeCode, ElementItems.type], reference,
          by simp [htyped]⟩
      · cases expressions.trans hexpr
  refine ⟨_, ?_, ⟨place, items⟩, rfl, hbytes.2, .mk (hflags ▸ number) placed (form _ counted)
    hbytes.2.typed⟩
  simp [hbytes.1]

/-- The place of a data segment is read from one of its forms. -/
private theorem sound_dataPlace {flags : UInt32} (h : flags < 3) :
    (dataPlace flags).Sound fun segment bytes => ∃ place : DataPlace,
      place.segment = segment ∧ place.flags = flags ∧ DataPlaceForm place bytes := by
  intro input rest segment hrun
  unfold dataPlace at hrun
  split at hrun
  · next passive =>
    obtain rfl : flags = 1 := by simpa using passive
    obtain ⟨rfl, rfl⟩ := pure_run hrun
    exact ⟨[], rfl, .passive, rfl, rfl, .passive⟩
  · next active =>
    split at hrun
    · next explicit =>
      obtain rfl : flags = 2 := by simpa using explicit
      obtain ⟨memory, mid, hmemory, hmore⟩ := run_bind_eq_ok.1 hrun
      obtain ⟨offset, hoffset, rfl⟩ := run_bind_pure_eq_ok hmore
      obtain ⟨xs, rfl, index⟩ := sound_index hmemory
      obtain ⟨ys, rfl, init, rfl, form⟩ := sound_constExpr hoffset
      exact ⟨xs ++ ys, by simp, .activeIn memory init, rfl, rfl, .activeIn index form⟩
    · next implicit =>
      -- Of the three flags, this is the one that is left.
      have hzero : flags = 0 := by
        have hlt := UInt32.lt_iff_toNat_lt.1 h
        simp only [beq_iff_eq, ← UInt32.toNat_inj] at active implicit ⊢
        simp only [UInt32.reduceToNat] at hlt active implicit ⊢
        omega
      obtain ⟨offset, hoffset, rfl⟩ := run_bind_pure_eq_ok hrun
      obtain ⟨bytes, rfl, init, rfl, form⟩ := sound_constExpr hoffset
      exact ⟨bytes, rfl, .active init, rfl, hzero.symm, .active form⟩

/-- A data segment is read from one of its forms. -/
theorem sound_data (t : ModuleTable) :
    (dataEntry t).Sound fun u bytes => ∃ s : DataDesc,
      u = t.addData s.segment ∧ DataForm s bytes := by
  intro input rest u h
  obtain ⟨flags, in₁, hflags, h₁⟩ := run_bind_eq_ok.1 h
  obtain ⟨_, in₂, hcheck, h₂⟩ := run_bind_eq_ok.1 h₁
  obtain ⟨segment, in₃, hplace, h₃⟩ := run_bind_eq_ok.1 h₂
  obtain ⟨content, hcontent, rfl⟩ := run_bind_pure_eq_ok h₃
  -- The flags, the place and the content are read in turn.
  obtain ⟨xs, rfl, number⟩ := sound_index hflags
  obtain ⟨low, rfl⟩ := check_run hcheck
  obtain ⟨ys, rfl, place, rfl, rfl, placed⟩ := sound_dataPlace (by simpa using low) hplace
  obtain ⟨zs, rfl, form⟩ := sound_sized hcontent
  exact ⟨xs ++ (ys ++ zs), by simp, ⟨place, content⟩, rfl, .mk number placed form⟩

/-! ## Entries -/

/-- The decoder of an entry of a section. -/
def ofKind : SectionKind → ModuleTable → Decoder ModuleTable
  | .types => typeEntry
  | .imports => importEntry
  | .functions => functionEntry
  | .tables => tableEntry
  | .memories => memoryEntry
  | .globals => globalEntry
  | .exports => exportEntry
  | .start => startEntry
  | .elements => elementEntry
  | .data => dataEntry
  | .dataCount => dataCountEntry
  | .custom | .code => fun _ => fail .malformed

/-- An entry is a form of the edit that it makes. -/
theorem sound_ofKind (k : SectionKind) (t : ModuleTable) :
    (ofKind k t).Sound fun u bytes => ∃ e, t.edit e = .ok u ∧ EntryForm k e bytes := by
  intro input rest u h
  -- Each kind has a decoder of its own, which ends with one edit.
  cases k with
  | custom => cases h
  | code => cases h
  | types =>
    obtain ⟨form, mid, hform, hmore⟩ := run_bind_eq_ok.1 h
    obtain rfl := byte_run hform
    split at hmore
    · next hmark =>
      obtain rfl : form = funcTypeForm := by simpa using hmark
      obtain ⟨params, mid', hparams, hrest⟩ := run_bind_eq_ok.1 hmore
      obtain ⟨results, hresults, rfl⟩ := run_bind_pure_eq_ok hrest
      obtain ⟨xs, rfl, first⟩ := sound_valueTypes hparams
      obtain ⟨ys, rfl, second⟩ := sound_valueTypes hresults
      exact ⟨_ :: (xs ++ ys), by simp, _, rfl, .type (.mk first second)⟩
    · cases hmore
  | imports =>
    obtain ⟨module, in₁, hmodule, h₁⟩ := run_bind_eq_ok.1 h
    obtain ⟨name, in₂, hname, h₂⟩ := run_bind_eq_ok.1 h₁
    obtain ⟨desc, in₃, hdesc, h₃⟩ := run_bind_eq_ok.1 h₂
    obtain ⟨xs, rfl, first⟩ := sound_sized hmodule
    obtain ⟨ys, rfl, second⟩ := sound_sized hname
    obtain ⟨zs, rfl, form⟩ := sound_importDesc hdesc
    obtain ⟨hedit, rfl⟩ := ofExcept_run h₃
    exact ⟨xs ++ (ys ++ zs), by simp, .addImport module name desc, hedit,
      .imported first second form⟩
  | functions =>
    obtain ⟨index, mid, hindex, hmore⟩ := run_bind_eq_ok.1 h
    obtain ⟨bytes, rfl, form⟩ := sound_index hindex
    obtain ⟨hedit, rfl⟩ := ofExcept_run hmore
    exact ⟨bytes, rfl, .addFunction index, hedit, .function form⟩
  | tables =>
    obtain ⟨type, htype, rfl⟩ := run_bind_pure_eq_ok h
    obtain ⟨bytes, rfl, form⟩ := sound_tableType htype
    exact ⟨bytes, rfl, _, rfl, .table form⟩
  | memories =>
    obtain ⟨limits, mid, hlimits, hmore⟩ := run_bind_eq_ok.1 h
    obtain ⟨bytes, rfl, form⟩ := sound_memoryLimits hlimits
    obtain ⟨hedit, rfl⟩ := ofExcept_run hmore
    exact ⟨bytes, rfl, .addMemory limits, hedit, .memory form⟩
  | globals =>
    obtain ⟨type, mid, htype, hmore⟩ := run_bind_eq_ok.1 h
    obtain ⟨init, hinit, rfl⟩ := run_bind_pure_eq_ok hmore
    obtain ⟨xs, rfl, first⟩ := sound_globalType htype
    obtain ⟨ys, rfl, init, rfl, form⟩ := sound_constExpr hinit
    exact ⟨xs ++ ys, by simp, _, rfl, .global first form⟩
  | exports =>
    obtain ⟨name, in₁, hname, h₁⟩ := run_bind_eq_ok.1 h
    obtain ⟨code, in₂, hcode, h₂⟩ := run_bind_eq_ok.1 h₁
    obtain ⟨xs, rfl, first⟩ := sound_sized hname
    obtain rfl := byte_run hcode
    split at h₂
    -- The kind of the export is known.
    · cases h₂
    · next hkind =>
      obtain ⟨index, in₃, hindex, h₃⟩ := run_bind_eq_ok.1 h₂
      obtain ⟨ys, rfl, form⟩ := sound_index hindex
      obtain ⟨hedit, rfl⟩ := ofExcept_run h₃
      obtain ⟨kind, hkind⟩ : ∃ kind, ExternalKind.ofCode? code = some kind :=
        Option.ne_none_iff_exists'.1 (by simpa using hkind)
      obtain rfl := code_of_ofCode? hkind
      exact ⟨xs ++ kind.code :: ys, by simp, .addExport name kind.code index, hedit,
        .exported first form⟩
  | start =>
    obtain ⟨index, mid, hindex, hmore⟩ := run_bind_eq_ok.1 h
    obtain ⟨bytes, rfl, form⟩ := sound_index hindex
    obtain ⟨hedit, rfl⟩ := ofExcept_run hmore
    exact ⟨bytes, rfl, .setStart index, hedit, .start form⟩
  | elements =>
    obtain ⟨bytes, rfl, s, rfl, -, form⟩ := sound_element t h
    exact ⟨bytes, rfl, _, rfl, .element form⟩
  | data =>
    obtain ⟨bytes, rfl, s, rfl, form⟩ := sound_data t h
    exact ⟨bytes, rfl, _, rfl, .data form⟩
  | dataCount =>
    obtain ⟨count, hcount, rfl⟩ := run_bind_pure_eq_ok h
    obtain ⟨bytes, rfl, form⟩ := sound_index hcount
    exact ⟨bytes, rfl, _, rfl, .dataCount form⟩

/-- Entries whose number is known are forms of the edits that they make. -/
theorem sound_iterate_ofKind (k : SectionKind) (n : Nat) (t : ModuleTable) :
    (iterate (ofKind k) n t).Sound fun u bytes => ∃ edits : List TableEdit,
      edits.length = n ∧ t.Edits edits u ∧
        ∀ count, UnsignedForm 32 n count → VectorForm (EntryForm k) edits (count ++ bytes) := by
  intro input rest u h
  obtain ⟨_, rfl, parts, hlength, rfl, chain⟩ := sound_iterate (sound_ofKind k) n t h
  obtain ⟨edits, hedits, forms⟩ := chain.written
  have hn : edits.length = n := forms.length_eq.trans hlength
  exact ⟨_, rfl, edits, hn, hedits, fun count number => .mk (hn ▸ number) forms⟩

/-- The entries of a section are forms of the edits that they make, behind their number. -/
theorem sound_entries (k : SectionKind) (t : ModuleTable) :
    (entries (ofKind k) t).Sound fun u bytes => ∃ edits : List TableEdit,
      t.Edits edits u ∧ VectorForm (EntryForm k) edits bytes := by
  intro input rest u h
  obtain ⟨n, mid, hn, hmore⟩ := run_bind_eq_ok.1 h
  obtain ⟨count, rfl, number⟩ := sound_u32 hn
  obtain ⟨bytes, rfl, edits, -, hedits, form⟩ := sound_iterate_ofKind k _ t hmore
  exact ⟨count ++ bytes, by simp, edits, hedits, form count number⟩

end Decoder

end WasmLowering
