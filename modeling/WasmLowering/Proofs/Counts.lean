import WasmLowering.Proofs.ParsePoints

/-!
# Counts

Whatever a module declares takes at least a byte of it. So at every point of a parse the number of
types, of entries of each kind, of segments, and of value types and items in each of them is below
the size of the input. An input of less than 2 ^ 32 bytes can therefore be counted in 32 bits
without wrapping around, and the index of the function that a body belongs to is the number of
imports plus the index of the body.

For the same reason a number of things that is larger than the number of bytes behind it cannot be
met, wherever it is declared.

## Key results

- `EntryForm.weight_le`, `ModuleTable.Fits.edit`: what an entry declares takes bytes
- `Loader.Next.bodyFunction`: the function of a body
- `Loader.DeclaresAt.not_overdrawn`: declared numbers do not exceed the bytes behind them
- `counts_do_not_wrap`: all of this for every input that is small enough
-/

namespace WasmLowering

/-! ## The sizes of forms -/

section Sizes

variable {bytes : Bytes}

theorem UnsignedForm.length_pos {width n : Nat} (h : UnsignedForm width n bytes) :
    0 < bytes.length := by
  cases h <;> simp

/-- A byte string behind its size takes more bytes than it has. -/
theorem SizedForm.length_lt {s : Bytes} (h : SizedForm s bytes) : s.length < bytes.length := by
  obtain ⟨form⟩ := h
  have := form.length_pos
  rw [List.length_append]
  omega

theorem InitializerForm.length_pos {init : Initializer} (h : InitializerForm init bytes) :
    0 < bytes.length := by
  cases h <;> simp

/-- Items that take a byte each, and their number, take more bytes than there are items. -/
theorem VectorForm.length_lt {α : Type} {form : α → Bytes → Prop} {items : List α}
    (h : VectorForm form items bytes) (pos : ∀ item part, form item part → 0 < part.length) :
    items.length < bytes.length := by
  cases h with
  | @mk count parts number forms =>
    -- Each item takes a byte.
    have hitems : items.length ≤ parts.flatten.length := by
      clear number
      induction forms with
      | nil => exact Nat.zero_le _
      | cons first _ ih =>
        have := pos _ _ first
        rw [List.flatten_cons, List.length_append, List.length_cons]
        omega
    have := number.length_pos
    rw [List.length_append]
    omega

theorem LimitsForm.length_pos {l : Limits} (h : LimitsForm l bytes) : 0 < bytes.length := by
  obtain ⟨_⟩ := h
  exact Nat.succ_pos _

theorem TableTypeForm.length_pos {t : TableType} (h : TableTypeForm t bytes) :
    0 < bytes.length := by
  obtain ⟨_, _, _⟩ := h
  exact Nat.succ_pos _

/-- A function type takes a byte, and more bytes than it has parameters and results. -/
theorem FuncTypeForm.length_lt {t : FuncType} (h : FuncTypeForm t bytes) :
    t.params.length + t.results.length < bytes.length := by
  obtain ⟨params, results⟩ := h
  have pos : ∀ (t : ValueType) (part : Bytes), ValueTypeForm t part → 0 < part.length := by
    rintro _ _ ⟨_⟩
    exact Nat.succ_pos _
  -- Each of the two lists has its number in front.
  have := params.length_lt pos
  have := results.length_lt pos
  rw [List.length_cons, List.length_append]
  omega

/-- The items of an element segment take a byte each, and their number takes one more. -/
theorem ElementItemsForm.length_lt {items : ElementItems} (h : ElementItemsForm items bytes) :
    items.constExprs.length < bytes.length := by
  cases h with
  | functions form =>
    simpa [ElementItems.constExprs] using
      form.length_lt fun _ _ index => UnsignedForm.length_pos index
  | references form =>
    simpa [ElementItems.constExprs] using form.length_lt fun _ _ init => init.length_pos

/-- An element segment takes more bytes than it has items. -/
theorem ElementForm.length_lt {s : ElementDesc} (h : ElementForm s bytes) :
    s.segment.items.length < bytes.length := by
  obtain ⟨number, place, items, -⟩ := h
  have := items.length_lt
  simp only [List.length_append, ElementDesc.segment]
  omega

/-- A data segment takes more bytes than it has bytes of data. -/
theorem DataForm.length_lt {s : DataDesc} (h : DataForm s bytes) :
    s.segment.bytes.length < bytes.length := by
  obtain ⟨number, place, content⟩ := h
  have := content.length_lt
  simp only [List.length_append, DataDesc.segment]
  omega

end Sizes

/-! ## The weight of an edit -/

/-- The number of things that an edit adds: an entry, and its value types, items or bytes. -/
def TableEdit.weight : TableEdit → Nat
  | addType type => type.params.length + type.results.length + 1
  | addElement segment => segment.items.length + 1
  | addData segment => segment.bytes.length + 1
  | setStart _ | setDataCount _ | setFunctionName .. => 0
  | _ => 1

/-- The bytes of an entry are at least as many as the things that it adds, and at least one. -/
theorem EntryForm.weight_le {k : SectionKind} {e : TableEdit} {bytes : Bytes}
    (h : EntryForm k e bytes) : e.weight ≤ bytes.length ∧ 0 < bytes.length := by
  -- Each entry has a number or a byte in it, and its lists take a byte for each item.
  cases h with
  | type form => exact ⟨form.length_lt, Nat.zero_lt_of_lt form.length_lt⟩
  | imported first second form =>
    have := first.length_lt
    simp only [TableEdit.weight, List.length_append]
    omega
  | function form => exact ⟨UnsignedForm.length_pos form, UnsignedForm.length_pos form⟩
  | table form => exact ⟨form.length_pos, form.length_pos⟩
  | memory form => exact ⟨form.length_pos, form.length_pos⟩
  | global type form =>
    have := form.length_pos
    simp only [TableEdit.weight, List.length_append]
    omega
  | exported first form =>
    simp only [TableEdit.weight, List.length_append, List.length_cons]
    omega
  | start form => exact ⟨Nat.zero_le _, UnsignedForm.length_pos form⟩
  | element form => exact ⟨form.length_lt, Nat.zero_lt_of_lt form.length_lt⟩
  | data form => exact ⟨form.length_lt, Nat.zero_lt_of_lt form.length_lt⟩
  | dataCount form => exact ⟨Nat.zero_le _, UnsignedForm.length_pos form⟩

/-- The bytes of an edit are at least as many as the things that it adds. -/
theorem EditForm.weight_le {e : TableEdit} {bytes : Bytes} (h : EditForm e bytes) :
    e.weight ≤ bytes.length := by
  cases h with
  | entry form => exact form.weight_le.1
  | name => exact Nat.zero_le _

/-! ## Tables that fit -/

/-- The function types that an edit adds. -/
def TableEdit.types : TableEdit → List FuncType
  | addType type => [type]
  | _ => []

namespace ModuleTable

variable {t u : ModuleTable} {e : TableEdit} {size : Nat}

/-- Types are added at the end, and only by edits that add types. -/
private theorem edit_types (h : t.edit e = .ok u) : u.types.toList = t.types.toList ++ e.types := by
  cases e with
  | addType type =>
    obtain rfl := Except.ok.inj h
    exact Array.toList_push
  | addImport module name desc =>
    -- An import adds an entry of its kind, and no type.
    obtain ⟨-, v, hv, rfl⟩ := addImport_eq_ok.1 h
    obtain ⟨-, htypes, -⟩ := addImported_effect hv
    simp [withImport, htypes, TableEdit.types]
  | addFunction typeIndex =>
    obtain ⟨-, rfl⟩ := addFunction_eq_ok.1 h
    simp [TableEdit.types]
  | addMemory limits =>
    obtain ⟨-, rfl⟩ := pushMemory_eq_ok.1 h
    simp [TableEdit.types]
  | addExport name code index =>
    obtain ⟨_, -, -, rfl⟩ := addExport_eq_ok.1 h
    simp [TableEdit.types]
  | setStart index =>
    obtain ⟨-, rfl⟩ := setStart_eq_ok.1 h
    simp [TableEdit.types]
  | setFunctionName index name =>
    obtain ⟨-, rfl⟩ := setFunctionName_eq_ok.1 h
    simp [TableEdit.types]
  | addTable | addGlobal | addElement | addData | setDataCount =>
    obtain rfl := Except.ok.inj h
    simp [TableEdit.types, addTable, addGlobal, addElement, addData, setDataCount]

/-- What is in a table after an edit was there before, or is what the edit adds. -/
theorem mem_types_edit (h : t.edit e = .ok u) {type : FuncType} (hmem : type ∈ u.types) :
    type ∈ t.types ∨ e = .addType type := by
  rw [← Array.mem_toList_iff, edit_types h, List.mem_append, Array.mem_toList_iff] at hmem
  refine hmem.imp_right fun hadded => ?_
  cases e with
  | addType added =>
    obtain rfl : type = added := by simpa [TableEdit.types] using hadded
    rfl
  | _ => simp [TableEdit.types] at hadded

/-- An element segment was there before, or it is the one that is added. -/
theorem mem_elements_edit (h : t.edit e = .ok u) {segment : ElementSegment}
    (hmem : segment ∈ u.elements) : segment ∈ t.elements ∨ e = .addElement segment := by
  have helements : u.elements = (e.segmented t.segments).elements :=
    congrArg Segments.elements (edit_segments h)
  rw [helements] at hmem
  cases e with
  | addElement added => exact (Array.mem_push.1 hmem).imp_right fun heq => by rw [heq]
  | _ => exact .inl hmem

/-- A data segment was there before, or it is the one that is added. -/
theorem mem_data_edit (h : t.edit e = .ok u) {segment : DataSegment} (hmem : segment ∈ u.data) :
    segment ∈ t.data ∨ e = .addData segment := by
  have hdata : u.data = (e.segmented t.segments).data :=
    congrArg Segments.data (edit_segments h)
  rw [hdata] at hmem
  cases e with
  | addData added => exact (Array.mem_push.1 hmem).imp_right fun heq => by rw [heq]
  | _ => exact .inl hmem

/-- All numbers of things in a table are below a bound. -/
structure Fits (t : ModuleTable) (bound : Nat) : Prop where
  types : t.types.size < bound
  entries : ∀ k, (t.entries k).length < bound
  imports : ∀ k, (t.imports.get k).size < bound
  exports : t.exports.length < bound
  elements : t.elements.size < bound
  data : t.data.size < bound
  valueTypes : ∀ type ∈ t.types, type.params.length + type.results.length < bound
  items : ∀ segment ∈ t.elements, segment.items.length < bound
  bytes : ∀ segment ∈ t.data, segment.bytes.length < bound

/-- What fits below a bound fits below a larger one. -/
theorem Fits.mono {bound : Nat} (h : t.Fits size) (hle : size ≤ bound) : t.Fits bound where
  types := h.types.trans_le hle
  entries k := (h.entries k).trans_le hle
  imports k := (h.imports k).trans_le hle
  exports := h.exports.trans_le hle
  elements := h.elements.trans_le hle
  data := h.data.trans_le hle
  valueTypes type hmem := (h.valueTypes type hmem).trans_le hle
  items segment hmem := (h.items segment hmem).trans_le hle
  bytes segment hmem := (h.bytes segment hmem).trans_le hle

/-- Nothing is in an empty table. -/
private theorem fits_empty : Fits {} 1 where
  types := by decide
  entries k := by cases k <;> decide
  imports k := by cases k <;> decide
  exports := by decide
  elements := by decide
  data := by decide
  valueTypes type hmem := by simp at hmem
  items segment hmem := by simp at hmem
  bytes segment hmem := by simp at hmem

/-- An export replaces one of its name, or is new. -/
private theorem length_insert_le (name : Bytes) (x : Export) (m : ExportMap) :
    (ExportMap.insert name x m).length ≤ m.length + 1 := by
  induction m with
  | nil => exact Nat.le_refl _
  | cons head rest ih =>
    obtain ⟨other, y⟩ := head
    simp only [ExportMap.insert]
    -- The name is found, or the export goes before a larger name or further on.
    split
    · simp
    · split
      · simp
      · simpa using ih

/-- Each part of a table grows by at most the weight of an edit. -/
theorem Fits.edit (fits : t.Fits size) (h : t.edit e = .ok u) : u.Fits (size + e.weight) := by
  have effect := edit_effect h
  have helements : u.elements = (e.segmented t.segments).elements :=
    congrArg Segments.elements (edit_segments h)
  have hdata : u.data = (e.segmented t.segments).data :=
    congrArg Segments.data (edit_segments h)
  -- What was in the table before the edit fits all the more, so the cases are about what is new.
  have grown : t.Fits (size + e.weight) := fits.mono (Nat.le_add_right ..)
  constructor
  case types =>
    have hsize := congrArg List.length (edit_types h)
    have hfew : e.types.length ≤ e.weight := by
      cases e <;> simp [TableEdit.types, TableEdit.weight]
    simp only [Array.length_toList, List.length_append] at hsize
    have := fits.types
    omega
  case entries =>
    intro k
    have hfew : (e.imports k).length + (e.own k).length ≤ e.weight := by
      cases e <;> simp only [TableEdit.imports, TableEdit.own, TableEdit.weight] <;>
        (try split) <;> simp
    have := fits.entries k
    rw [effect.entries k]
    simp only [List.length_append, List.length_map]
    omega
  case imports =>
    intro k
    have hsize := congrArg List.length (effect.imports k)
    have hfew : (e.imports k).length ≤ e.weight := by
      cases e <;> simp only [TableEdit.imports, TableEdit.weight] <;> (try split) <;> simp
    simp only [Array.length_toList, List.length_append, List.length_map] at hsize
    have := fits.imports k
    omega
  case exports =>
    rw [effect.exports]
    cases e with
    -- A name may be exported twice, in which case the number stays.
    | addExport name code index =>
      simp only [TableEdit.exported, TableEdit.weight]
      have := fits.exports
      split
      · exact (length_insert_le ..).trans_lt (by omega)
      · omega
    | _ => exact grown.exports
  case elements =>
    rw [helements]
    cases e with
    | addElement segment =>
      have := fits.elements
      simp only [TableEdit.segmented, TableEdit.weight, segments, Array.size_push]
      omega
    | _ => exact grown.elements
  case data =>
    rw [hdata]
    cases e with
    | addData segment =>
      have := fits.data
      simp only [TableEdit.segmented, TableEdit.weight, segments, Array.size_push]
      omega
    | _ => exact grown.data
  case valueTypes =>
    intro type hmem
    obtain hmem | rfl := mem_types_edit h hmem
    · exact grown.valueTypes type hmem
    · have := fits.types
      simp only [TableEdit.weight]
      omega
  case items =>
    intro segment hmem
    obtain hmem | rfl := mem_elements_edit h hmem
    · exact grown.items segment hmem
    · have := fits.elements
      simp only [TableEdit.weight]
      omega
  case bytes =>
    intro segment hmem
    obtain hmem | rfl := mem_data_edit h hmem
    · exact grown.bytes segment hmem
    · have := fits.data
      simp only [TableEdit.weight]
      omega

/-- A table with a history fits into the bytes of its history. -/
theorem History.fits (h : t.History size) : t.Fits (size + 1) := by
  induction h with
  | empty => exact fits_empty.mono (by omega)
  | edit _ form accepted ih =>
    have := form.weight_le
    exact (ih.edit accepted).mono (by omega)

/-- Imported functions are functions. -/
theorem History.imports_le (h : t.History size) :
    (t.imports.get .func).size ≤ t.functions.size := by
  induction h with
  | empty => exact Nat.le_refl _
  | edit _ _ accepted ih =>
    have := size_edit accepted
    omega

/-- In a table with a history, what the entries refer to exists. -/
theorem History.recorded (h : t.History size) (small : t.Small) : ∃ log, t.Recorded log := by
  induction h with
  | empty => exact ⟨[], recorded_empty⟩
  | edit _ _ accepted ih =>
    obtain ⟨log, recorded⟩ := ih ((edit_effect accepted).small small)
    exact ⟨_, recorded.edit small accepted⟩

theorem Fits.small (h : t.Fits (2 ^ 32)) : t.Small :=
  h.entries

theorem Fits.toNat_importedCount (h : t.Fits (2 ^ 32)) (k : ExternalKind) :
    (t.importedCount k).toNat = (t.imports.get k).size :=
  UInt32.toNat_ofNat_of_lt' (h.imports k)

end ModuleTable

/-! ## Bodies -/

namespace Loader

variable {l l' : Loader} {f : Frame} {input : Bytes} {count : UInt32} {n : Nat} {left : Bytes}

/-- At every point of a parse, the table fits into the input. -/
theorem Reached.fits (h : Reached input l) : l.table.Fits input.length := by
  obtain ⟨size, history, hsize⟩ := h.history
  exact history.fits.mono (by omega)

/-- The functions of the bodies follow the imported ones, and there is one for each body. -/
theorem Next.size_functions (next : Next input l f) (reads : l.ReadsBodies f count n l' left) :
    l'.functions.size = n ∧
      l'.table.functions.size = (l'.table.imports.get .func).size + count.toNat := by
  have counted := next.counted
  obtain ⟨functions, _, rfl, hsize⟩ := reads.eq
  have hnone : l.bodies = 0 := counted.bodies reads.rank
  have hlowered := counted.lowered
  exact ⟨by simp only; omega, by rw [reads.declared]; exact counted.functions⟩

/-- The function of a body exists, and its index is that of the body behind the imports. -/
theorem Next.bodyFunction (next : Next input l f) (reads : l.ReadsBodies f count n l' left)
    (more : n < count.toNat) (fits : l'.table.Fits (2 ^ 32)) :
    (l'.table.bodyFunction (.ofNat n)).toNat = (l'.table.imports.get .func).size + n ∧
      (l'.table.imports.get .func).size + n < l'.table.functions.size := by
  obtain ⟨-, hsize⟩ := next.size_functions reads
  -- Neither the count of the imports nor the index wraps around.
  have himports := fits.toNat_importedCount .func
  have hn : (UInt32.ofNat n).toNat = n :=
    UInt32.toNat_ofNat_of_lt' (more.trans count.toNat_lt)
  have hfunctions : l'.table.functions.size < 2 ^ 32 := by
    simpa [ModuleTable.entries] using fits.entries .func
  refine ⟨?_, by omega⟩
  rw [ModuleTable.bodyFunction, UInt32.toNat_add, himports, hn, Nat.mod_eq_of_lt (by omega)]

end Loader

/-! ## Declared numbers -/

/-- The bytes start with a number that is larger than the number of bytes behind it. -/
def Overdrawn (bytes : Bytes) : Prop :=
  ∃ count rest, Decoder.u32.run bytes = (.ok count, rest) ∧ rest.length < count.toNat

namespace Decoder

variable {α σ : Type} {step : σ → Decoder σ} {s t u : σ} {input rest left : Bytes} {n m : Nat}

/-- A decoder reads the same from the same bytes. -/
private theorem run_unique {d : Decoder α} {a b : α} (h : d.run input = (.ok a, rest))
    (h' : d.run input = (.ok b, left)) : a = b ∧ rest = left := by
  obtain ⟨hvalue, hrest⟩ := Prod.mk.inj (h.symm.trans h')
  exact ⟨Except.ok.inj hvalue, hrest⟩

/-- Steps that consume something each. -/
private theorem length_of_iterate
    (consumes : ∀ s input t rest, (step s).run input = (.ok t, rest) → rest.length < input.length)
    (h : (iterate step n s).run input = (.ok t, rest)) : n + rest.length ≤ input.length := by
  induction n generalizing s input with
  | zero =>
    obtain ⟨-, rfl⟩ := pure_run h
    omega
  | succ n ih =>
    obtain ⟨u, mid, hfirst, hmore⟩ := run_bind_eq_ok.1 h
    have := consumes _ _ _ _ hfirst
    have := ih hmore
    omega

/-- In a repetition that succeeds, the next step at any point does. -/
private theorem step_of_iterate (whole : (iterate step m s).run input = (.ok u, rest))
    (part : (iterate step n s).run input = (.ok t, left)) (hlt : n < m) :
    ∃ v mid, (step t).run left = (.ok v, mid) := by
  induction n generalizing m s input with
  | zero =>
    obtain ⟨rfl, rfl⟩ := pure_run part
    obtain ⟨m, rfl⟩ := Nat.exists_eq_succ_of_ne_zero (Nat.ne_of_gt hlt)
    obtain ⟨v, mid, hfirst, -⟩ := run_bind_eq_ok.1 whole
    exact ⟨v, mid, hfirst⟩
  | succ n ih =>
    obtain ⟨m, rfl⟩ := Nat.exists_eq_succ_of_ne_zero (Nat.ne_of_gt (Nat.zero_lt_of_lt hlt))
    obtain ⟨v, mid, hv, whole⟩ := run_bind_eq_ok.1 whole
    obtain ⟨w, mid', hw, part⟩ := run_bind_eq_ok.1 part
    obtain ⟨rfl, rfl⟩ := run_unique hv hw
    exact ih whole part (by omega)

/-- Every entry takes a byte at least. -/
private theorem consumes_ofKind (k : SectionKind) (t : ModuleTable) (input : Bytes)
    (u : ModuleTable)
    (rest : Bytes) (h : (ofKind k t).run input = (.ok u, rest)) : rest.length < input.length := by
  obtain ⟨bytes, rfl, e, -, form⟩ := sound_ofKind k t h
  have := form.weight_le.2
  rw [List.length_append]
  omega

/-- A number that is checked against the number of bytes that are left does not exceed it. -/
private theorem not_overdrawn_checked {f : UInt32 → Decoder α} {a : α}
    (h : (do
      let count ← u32
      check (count.toNat ≤ (← remaining))
      f count : Decoder α).run input = (.ok a, rest)) : ¬ Overdrawn input := by
  rintro ⟨count, left, hcount, few⟩
  obtain ⟨other, mid, hother, hmore⟩ := run_bind_eq_ok.1 h
  obtain ⟨_, mid', hleft, hcheck⟩ := run_bind_eq_ok.1 hmore
  obtain ⟨_, _, henough, -⟩ := run_bind_eq_ok.1 hcheck
  obtain ⟨rfl, rfl⟩ := run_unique hcount hother
  obtain ⟨hlength, rfl⟩ := Prod.mk.inj hleft
  obtain rfl := Except.ok.inj hlength
  obtain ⟨enough, -⟩ := check_run henough
  exact Nat.not_lt.2 (by simpa using enough) few

/-- A size that is larger than what is left cannot be met. -/
private theorem not_overdrawn_sized {s : Bytes} (h : Decoder.sized.run input = (.ok s, rest)) :
    ¬ Overdrawn input := by
  rintro ⟨count, left, hcount, few⟩
  obtain ⟨other, mid, hother, htake⟩ := run_bind_eq_ok.1 h
  obtain ⟨rfl, rfl⟩ := run_unique hcount hother
  obtain ⟨rfl, hlength⟩ := take_run htake
  rw [List.length_append] at few
  omega

/-- A function type is its parameters and its results behind the form byte. -/
private theorem typeEntry_run {t u : ModuleTable}
    (h : (typeEntry t).run (funcTypeForm :: input) = (.ok u, rest)) :
    ∃ params mid results, valueTypes.run input = (.ok params, mid) ∧
      valueTypes.run mid = (.ok results, rest) := by
  obtain ⟨form, left, hform, hmore⟩ := run_bind_eq_ok.1 h
  obtain ⟨rfl, rfl⟩ := List.cons.inj (byte_run hform)
  rw [if_pos (beq_self_eq_true _)] at hmore
  obtain ⟨params, mid, hparams, hrest⟩ := run_bind_eq_ok.1 hmore
  obtain ⟨results, hresults, -⟩ := run_bind_pure_eq_ok hrest
  exact ⟨params, mid, results, hparams, hresults⟩

end Decoder

namespace Loader

variable {l l' : Loader} {f : Frame} {input place : Bytes}

/-- The places in a section where a number is declared, when the loader has come to it: of the
    entries, of the parameters and the results of a type, of the items of an element segment, and of
    the bytes of a data segment. -/
inductive DeclaresAt (l : Loader) (f : Frame) : Bytes → Prop where
  | entries {k : SectionKind} (id : f.id = k.id) (list : k.listsEntries = true ∨ k = .code) :
      DeclaresAt l f f.payload
  | params {count : UInt32} {n : Nat} {table : ModuleTable} {place : Bytes}
      (reads : l.ReadsEntries f .types count n table (Decoder.funcTypeForm :: place))
      (more : n < count.toNat) : DeclaresAt l f place
  | results {count : UInt32} {n : Nat} {table : ModuleTable} {params : List ValueType}
      {left place : Bytes}
      (reads : l.ReadsEntries f .types count n table (Decoder.funcTypeForm :: left))
      (more : n < count.toNat) (first : Decoder.valueTypes.run left = (.ok params, place)) :
      DeclaresAt l f place
  | items {count flags : UInt32} {n : Nat} {table : ModuleTable} {segment : ElementSegment}
      {type : ValueType} {left in₁ in₂ place : Bytes}
      (reads : l.ReadsEntries f .elements count n table left) (more : n < count.toNat)
      (number : Decoder.u32.run left = (.ok flags, in₁))
      (placed : (Decoder.elementPlace flags).run in₁ = (.ok segment, in₂))
      (typed : (Decoder.elementType flags).run in₂ = (.ok type, place)) : DeclaresAt l f place
  | content {count flags : UInt32} {n : Nat} {table : ModuleTable} {segment : DataSegment}
      {left in₁ place : Bytes} (reads : l.ReadsEntries f .data count n table left)
      (more : n < count.toNat) (number : Decoder.u32.run left = (.ok flags, in₁))
      (placed : (Decoder.dataPlace flags).run in₁ = (.ok segment, place)) : DeclaresAt l f place

/-- A section that lists entries is their number and as many entries. -/
private theorem entries_of_section {k : SectionKind} (list : k.listsEntries = true)
    {payload : Bytes} (h : (l.sectionDecoder k).run payload = (.ok l', [])) :
    ∃ count rest table, Decoder.u32.run payload = (.ok count, rest) ∧
      (Decoder.iterate (Decoder.ofKind k) count.toNat l.table).run rest = (.ok table, []) := by
  cases k with
  | custom | start | code | dataCount => cases list
  -- The number of functions is kept for the bodies.
  | functions =>
    obtain ⟨count, rest, hcount, hmore⟩ := Decoder.run_bind_eq_ok.1 h
    obtain ⟨table, htable, -⟩ := Decoder.run_bind_pure_eq_ok hmore
    exact ⟨count, rest, table, hcount, htable⟩
  -- The number of data segments may have been announced before.
  | data =>
    obtain ⟨table, htable, -⟩ := Decoder.run_bind_pure_eq_ok h
    obtain ⟨count, rest, hcount, hmore⟩ := Decoder.run_bind_eq_ok.1 htable
    obtain ⟨_, _, hcheck, hentries⟩ := Decoder.run_bind_eq_ok.1 hmore
    obtain ⟨-, rfl⟩ := Decoder.check_run hcheck
    exact ⟨count, _, table, hcount, hentries⟩
  | types | imports | tables | memories | globals | exports | elements =>
    obtain ⟨table, htable, -⟩ := Decoder.run_bind_pure_eq_ok h
    obtain ⟨count, rest, hcount, hentries⟩ := Decoder.run_bind_eq_ok.1 htable
    exact ⟨count, rest, table, hcount, hentries⟩

/-- In a section that is accepted, the next entry at any point is read. -/
theorem ReadsEntries.entry {k : SectionKind} {count : UInt32} {n : Nat} {table : ModuleTable}
    {left : Bytes} (reads : l.ReadsEntries f k count n table left) (more : n < count.toNat)
    (h : l.frame f = .ok l') : ∃ u rest, (Decoder.ofKind k table).run left = (.ok u, rest) := by
  have hk : k ≠ .custom := by
    rintro rfl
    cases reads.list
  obtain ⟨-, hrun⟩ := frame_run reads.id hk h
  obtain ⟨other, rest, done, hother, whole⟩ := entries_of_section reads.list hrun
  obtain ⟨rest', hcount, part⟩ := reads.read
  obtain ⟨rfl, rfl⟩ := Decoder.run_unique hother hcount
  exact Decoder.step_of_iterate whole part more

/-- Every body takes a byte at least. -/
private theorem consumes_bodyEntry (l : Loader) (input : Bytes) (l' : Loader) (rest : Bytes)
    (h : l.bodyEntry.run input = (.ok l', rest)) : rest.length < input.length := by
  obtain ⟨bytes, rfl, _, -, form⟩ := sound_bodyEntry l h
  have := form.length_lt
  rw [List.length_append]
  omega

/-- Where a section is accepted, no number that it declares exceeds the bytes behind it. -/
theorem DeclaresAt.not_overdrawn (declares : l.DeclaresAt f place) (h : l.frame f = .ok l') :
    ¬ Overdrawn place := by
  cases declares with
  | @entries k id list =>
    rintro ⟨count, rest, hcount, few⟩
    -- Nothing is checked here; but each entry and each body takes a byte at least.
    obtain list | rfl := list
    · have hk : k ≠ .custom := by
        rintro rfl
        cases list
      obtain ⟨-, hrun⟩ := frame_run id hk h
      obtain ⟨other, rest', table, hother, hentries⟩ := entries_of_section list hrun
      obtain ⟨rfl, rfl⟩ := Decoder.run_unique hcount hother
      have := Decoder.length_of_iterate (Decoder.consumes_ofKind k) hentries
      omega
    -- The bodies are counted like entries.
    · obtain ⟨-, hrun⟩ := frame_run id (by decide) h
      obtain ⟨other, rest', hother, hmore⟩ := Decoder.run_bind_eq_ok.1 hrun
      obtain ⟨_, _, hcheck, hbodies⟩ := Decoder.run_bind_eq_ok.1 hmore
      obtain ⟨loaded, hentries, -⟩ := Decoder.run_bind_pure_eq_ok hbodies
      obtain ⟨-, rfl⟩ := Decoder.check_run hcheck
      obtain ⟨rfl, rfl⟩ := Decoder.run_unique hcount hother
      have := Decoder.length_of_iterate consumes_bodyEntry hentries
      omega
  | params reads more =>
    obtain ⟨u, rest, hentry⟩ := reads.entry more h
    obtain ⟨params, mid, results, hparams, -⟩ := Decoder.typeEntry_run hentry
    exact Decoder.not_overdrawn_checked hparams
  | results reads more first =>
    obtain ⟨u, rest, hentry⟩ := reads.entry more h
    obtain ⟨params, mid, results, hparams, hresults⟩ := Decoder.typeEntry_run hentry
    obtain ⟨-, rfl⟩ := Decoder.run_unique first hparams
    exact Decoder.not_overdrawn_checked hresults
  | items reads more number placed typed =>
    obtain ⟨u, rest, hentry⟩ := reads.entry more h
    obtain ⟨flags, _, hflags, h₁⟩ := Decoder.run_bind_eq_ok.1 hentry
    obtain ⟨_, _, hcheck, h₂⟩ := Decoder.run_bind_eq_ok.1 h₁
    obtain ⟨segment, _, hplace, h₃⟩ := Decoder.run_bind_eq_ok.1 h₂
    obtain ⟨type, _, htype, h₄⟩ := Decoder.run_bind_eq_ok.1 h₃
    -- The entry is read from the same bytes as before, so it comes to the same place.
    obtain ⟨-, rfl⟩ := Decoder.check_run hcheck
    obtain ⟨rfl, rfl⟩ := Decoder.run_unique number hflags
    obtain ⟨rfl, rfl⟩ := Decoder.run_unique placed hplace
    obtain ⟨rfl, rfl⟩ := Decoder.run_unique typed htype
    exact Decoder.not_overdrawn_checked h₄
  | content reads more number placed =>
    obtain ⟨u, rest, hentry⟩ := reads.entry more h
    obtain ⟨flags, _, hflags, h₁⟩ := Decoder.run_bind_eq_ok.1 hentry
    obtain ⟨_, _, hcheck, h₂⟩ := Decoder.run_bind_eq_ok.1 h₁
    obtain ⟨segment, _, hplace, h₃⟩ := Decoder.run_bind_eq_ok.1 h₂
    obtain ⟨content, hcontent, -⟩ := Decoder.run_bind_pure_eq_ok h₃
    obtain ⟨-, rfl⟩ := Decoder.check_run hcheck
    obtain ⟨rfl, rfl⟩ := Decoder.run_unique number hflags
    obtain ⟨rfl, rfl⟩ := Decoder.run_unique placed hplace
    exact Decoder.not_overdrawn_sized hcontent

end Loader

/-! ## Main result -/

/-- At every point of a parse there are fewer things of each sort than bytes of the input. If these
    are less than 2 ^ 32, then counts in 32 bits are exact, and the functions of the module itself
    are those that are not imported; the function of each body that is lowered is the one with the
    index of the body behind the imports, and it has a type. A declared number that is larger than
    the number of bytes behind it ends in an error. -/
theorem counts_do_not_wrap (input : Bytes) :
    (∀ l, Loader.Reached input l → l.table.Fits input.length) ∧
    (input.length < 2 ^ 32 →
      (∀ l, Loader.Reached input l →
        (∀ k, (l.table.count k).toNat = (l.table.entries k).length ∧
          (l.table.importedCount k).toNat = (l.table.imports.get k).size) ∧
        l.table.importedCount .func ≤ l.table.count .func ∧
        l.table.localFunctionCount.toNat =
          l.table.functions.size - (l.table.imports.get .func).size) ∧
      ∀ l f count i l' left, Loader.Next input l f → l.ReadsBodies f count i l' left →
        i < count.toNat → l'.functions.size = i ∧
        (l'.table.bodyFunction (.ofNat i)).toNat = (l'.table.imports.get .func).size + i ∧
        (l'.table.imports.get .func).size + i < l'.table.functions.size ∧
        ∃ type, l'.table.functionType (l'.table.bodyFunction (.ofNat i)) = .ok type) ∧
    ∀ l f place, Loader.Next input l f → l.DeclaresAt f place → Overdrawn place →
      ∀ name, ∃ fault, (compile name input).outcome = .error fault := by
  refine ⟨fun l reached => reached.fits, fun hsize => ⟨fun l reached => ?_, ?_⟩,
    fun l f place next declares overdrawn name => ?_⟩
  -- With fewer than `2 ^ 32` bytes no count wraps, so the words are the sizes.
  · have fits := reached.fits.mono hsize.le
    obtain ⟨_, history, -⟩ := reached.history
    have hcount := l.table.toNat_count .func fits.small
    have himported := fits.toNat_importedCount .func
    have hle : l.table.importedCount .func ≤ l.table.count .func := by
      rw [UInt32.le_iff_toNat_le, hcount, himported]
      simpa [ModuleTable.entries] using history.imports_le
    refine ⟨fun k => ⟨l.table.toNat_count k fits.small, fits.toNat_importedCount k⟩, hle, ?_⟩
    rw [ModuleTable.localFunctionCount, UInt32.toNat_sub_of_le _ _ hle, hcount, himported]
    simp [ModuleTable.entries]
  -- A body belongs to the function that has its number after the imported ones.
  · intro l f count i l' left next reads more
    have reached := Loader.Reached.bodies next reads
    have fits := reached.fits.mono hsize.le
    obtain ⟨hfunc, hlt⟩ := next.bodyFunction reads more fits
    obtain ⟨_, history, -⟩ := reached.history
    obtain ⟨_, recorded⟩ := history.recorded fits.small
    refine ⟨(next.size_functions reads).1, hfunc, hlt, recorded.functionType ?_⟩
    simpa [ModuleTable.entries, hfunc] using hlt
  -- A module that compiles has read everything it declares.
  · cases hout : (compile name input).outcome with
    | error fault => exact ⟨fault, rfl⟩
    | ok m =>
      obtain ⟨_, hload, -⟩ := compile_eq_ok hout
      obtain ⟨_, hframe⟩ := next.loads hload
      exact absurd overdrawn (declares.not_overdrawn hframe)

/-- A module whose only type declares five parameters with one byte behind their number. -/
def overdrawnModule : Bytes :=
  [0x00, 0x61, 0x73, 0x6D, 0x01, 0x00, 0x00, 0x00,
    0x01, 0x04, 0x01, 0x60, 0x05, 0x7F]

/-- The only body of a module with an import is that of its second function, and a module that
    declares too many parameters does not compile. -/
theorem counts_do_not_wrap_exporting :
    Module.exportingModule.length < 2 ^ 32 ∧
    (∃ l f l' left, Loader.Next Module.exportingModule l f ∧ l.ReadsBodies f 1 0 l' left ∧
      (l'.table.imports.get .func).size = 1 ∧ (l'.table.bodyFunction 0).toNat = 1 ∧
      ∃ type, l'.table.functionType (l'.table.bodyFunction 0) = .ok type) ∧
    ∃ fault, (compile [] overdrawnModule).outcome = .error fault := by
  have hsmall : Module.exportingModule.length < 2 ^ 32 := by decide
  refine ⟨hsmall, ?_, ?_⟩
  -- The sections before the code, and the code with its only body.
  · let before : List Frame := [⟨1, [1, 0x60, 0, 1, 0x7F]⟩, ⟨2, [1, 1, 0x6D, 1, 0x66, 0, 0]⟩,
      ⟨3, [1, 0]⟩, ⟨7, [3, 1, 0x66, 0, 0, 1, 0x67, 0, 0, 1, 0x66, 0, 1]⟩]
    let code : Frame := ⟨10, [1, 4, 0, 0x41, 7, 0x0B]⟩
    have hsplit : (Framing.split (Module.exportingModule.drop 8)).frames = before ++ [code] := by
      decide +kernel
    have hparts : (({} : Loader).frames before).toOption.map
        (fun l => (decide (l.rank < sectionRank 10), l.declared,
          (l.table.imports.get .func).size)) = some (true, 1, 1) := by
      decide +kernel
    cases hload : ({} : Loader).frames before with
    | error failure => simp [hload, Except.toOption] at hparts
    | ok l =>
      simp only [hload, Except.toOption, Option.map_some, Option.some.injEq, Prod.mk.injEq,
        decide_eq_true_eq] at hparts
      obtain ⟨hrank, hdeclared, himports⟩ := hparts
      have next : Loader.Next Module.exportingModule l code := ⟨_, before, [], rfl, hsplit, hload⟩
      have reads : l.ReadsBodies code 1 0 { l with rank := sectionRank SectionKind.code.id }
          [4, 0, 0x41, 7, 0x0B] :=
        ⟨rfl, hrank, hdeclared.symm, Nat.zero_le _, _, rfl, rfl⟩
      obtain ⟨-, small, -⟩ := counts_do_not_wrap Module.exportingModule
      obtain ⟨-, hfunc, -, htype⟩ := (small hsmall).2 l code 1 0 _ _ next reads (by decide)
      exact ⟨l, code, _, _, next, reads, himports, hfunc.trans (by rw [himports]), htype⟩
  · obtain ⟨-, -, declared⟩ := counts_do_not_wrap overdrawnModule
    refine declared {} ⟨1, [0x01, 0x60, 0x05, 0x7F]⟩ [0x05, 0x7F] ⟨_, [], [], rfl, ?_, rfl⟩ ?_ ?_ []
    · decide +kernel
    · exact .params ⟨rfl, rfl, by decide, by simp, Nat.zero_le _, _, rfl, rfl⟩ (by decide)
    · exact ⟨5, [0x7F], rfl, by decide⟩

end WasmLowering
