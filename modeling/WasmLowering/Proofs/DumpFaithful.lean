import WasmLowering.Module.Dump
import WasmLowering.Proofs.Counts
import WasmLowering.Proofs.RoundTrip

/-!
# Dumps are faithful

The dump of a module table leaves out what does not apply: a maximum that there is not, the name of
a function without one, an absent initializer. It also leaves out whether addresses have 64 bits,
and it shows all unknown codes alike. In the table of a module that compiles none of this makes a
difference, so that the dump of the table determines the table.

Dumps are compared as JSON values, whose objects are maps: the order of their fields is of no
account.

## Key results

- `JsonValue.Same`, `JsonValue.Faithful`: equality of JSON values, and dumps that lose nothing
- `ModuleTable.faithful_dump`: dumps of regular tables are faithful
- `ModuleTable.History.regular`: the tables of a parse are regular
- `dump_same_iff`: modules that compile have the same dump only if they declare the same
-/

namespace WasmLowering

/-! ## Texts -/

/-- Texts are told apart by their bytes. -/
theorem Bytes.ofString_injective : Function.Injective Bytes.ofString := by
  intro s t h
  exact String.toByteArray_inj.1 (ByteArray.ext (Array.toList_inj.1 h))

/-- Sixteen digits are told apart. -/
private theorem digitChar_injOn {m n : Nat} (hm : m < 16) (hn : n < 16)
    (h : Nat.digitChar m = Nat.digitChar n) : m = n := by
  have hall : ∀ i j : Fin 16, Nat.digitChar i = Nat.digitChar j → i = j := by decide
  exact congrArg Fin.val (hall ⟨m, hm⟩ ⟨n, hn⟩ h)

/-- Byte strings are told apart by their digits. -/
theorem Bytes.hex_injective : Function.Injective Bytes.hex := by
  intro s t h
  have hdigits := String.ofList_inj.1 h
  clear h
  induction s generalizing t with
  | nil =>
    cases t with
    | nil => rfl
    | cons c t => simp at hdigits
  | cons b s ih =>
    cases t with
    | nil => simp at hdigits
    | cons c t =>
      -- Each byte has two digits, so that the two lists of digits split at the same places.
      simp only [List.flatMap_cons, List.cons_append, List.nil_append, List.cons.injEq] at hdigits
      obtain ⟨hhigh, hlow, hrest⟩ := hdigits
      have hb := b.toNat_lt
      have hc := c.toNat_lt
      have hhigh := digitChar_injOn (by omega) (by omega) hhigh
      have hlow := digitChar_injOn (by omega) (by omega) hlow
      rw [ih hrest, UInt8.toNat_inj.1 (by omega : b.toNat = c.toNat)]

namespace ValueType

/-- Known types have different names. -/
private theorem name_injOn {t u : ValueType} (ht : t.isKnown = true) (hu : u.isKnown = true)
    (h : t.name = u.name) : t = u := by
  cases t <;> cases u <;> first
    | rfl
    | exact absurd h (by decide)
    | exact absurd ht Bool.false_ne_true
    | exact absurd hu Bool.false_ne_true

end ValueType

/-- Whether the code of a mode is one of the three known ones. -/
def SegmentMode.isKnown : SegmentMode → Bool
  | other _ => false
  | _ => true

/-- Known modes have different names. -/
theorem SegmentMode.name_injOn {m n : SegmentMode} (hm : m.isKnown = true) (hn : n.isKnown = true)
    (h : m.name = n.name) : m = n := by
  cases m <;> cases n <;> first
    | rfl
    | exact absurd h (by decide)
    | exact absurd hm Bool.false_ne_true
    | exact absurd hn Bool.false_ne_true

/-- Kinds have different names. -/
theorem ExternalKind.name_injective : Function.Injective ExternalKind.name := by
  intro k k' h
  cases k <;> cases k' <;> first | rfl | exact absurd h (by decide)

/-! ## Equality of JSON values -/

/-- Looking up a key after keys and values have been mapped. -/
private theorem lookup_map {α β γ δ : Type} [BEq α] [LawfulBEq α] [BEq γ] [LawfulBEq γ]
    {g : α → γ} (hg : Function.Injective g) (f : β → δ) (l : List (α × β)) (key : α) :
    (l.map fun p => (g p.1, f p.2)).lookup (g key) = (l.lookup key).map f := by
  induction l with
  | nil => rfl
  | cons head rest ih =>
    obtain ⟨other, b⟩ := head
    rw [List.map_cons, List.lookup_cons, List.lookup_cons, ih]
    by_cases hkey : key = other
    · simp [hkey]
    · have hne : (g key == g other) = false := beq_eq_false_iff_ne.2 (hg.ne hkey)
      have hne' : (key == other) = false := beq_eq_false_iff_ne.2 hkey
      rw [hne, hne']

namespace JsonValue

/-- Two values are the same if they are equal up to the order of the fields of objects. -/
inductive Same : JsonValue → JsonValue → Prop where
  | null : Same .null .null
  | bool (value : Bool) : Same (.bool value) (.bool value)
  | number (value : Nat) : Same (.number value) (.number value)
  | text (value : Bytes) : Same (.text value) (.text value)
  | array {items items' : List JsonValue} (same : List.Forall₂ Same items items') :
      Same (.array items) (.array items')
  | object {fields fields' : List (Bytes × JsonValue)}
      (same : ∀ key, Option.Rel Same (fields.lookup key) (fields'.lookup key)) :
      Same (.object fields) (.object fields')

/-- Every value is the same as itself. -/
theorem Same.refl (j : JsonValue) : j.Same j := by
  -- The nested lists need hypotheses of their own: all values in them are the same as themselves.
  refine @JsonValue.rec (fun j => j.Same j) (fun items => ∀ j ∈ items, j.Same j)
    (fun fields => ∀ p ∈ fields, p.2.Same p.2) (fun p => p.2.Same p.2) .null .bool .number .text
    ?array ?object ?nil ?cons ?none ?field ?pair j
  case array => exact fun items ih => .array (List.forall₂_same.2 ih)
  case object =>
    refine fun fields ih => .object fun key => ?_
    cases hkey : fields.lookup key with
    | none => exact .none
    | some value =>
      obtain ⟨before, after, rfl, -⟩ := List.lookup_eq_some_iff.1 hkey
      exact .some (ih (key, value) (by simp))
  case nil => exact fun j hj => absurd hj (List.not_mem_nil)
  case cons => exact fun item items hitem hitems => List.forall_mem_cons.2 ⟨hitem, hitems⟩
  case none => exact fun p hp => absurd hp (List.not_mem_nil)
  case field => exact fun p fields hp hfields => List.forall_mem_cons.2 ⟨hp, hfields⟩
  case pair => exact fun key value h => h

private theorem same_bool {a b : Bool} : (JsonValue.bool a).Same (.bool b) ↔ a = b :=
  ⟨fun h => by cases h; rfl, fun h => h ▸ .bool a⟩

private theorem same_number {m n : Nat} : (number m).Same (.number n) ↔ m = n :=
  ⟨fun h => by cases h; rfl, fun h => h ▸ .number m⟩

private theorem same_text {s t : Bytes} : (text s).Same (.text t) ↔ s = t :=
  ⟨fun h => by cases h; rfl, fun h => h ▸ .text s⟩

private theorem same_ofString {s t : String} : (ofString s).Same (.ofString t) ↔ s = t :=
  same_text.trans Bytes.ofString_injective.eq_iff

private theorem same_ofUInt32 {m n : UInt32} : (ofUInt32 m).Same (.ofUInt32 n) ↔ m = n :=
  same_number.trans UInt32.toNat_inj

/-- The fields of records are compared one by one. -/
theorem Same.fields {fs gs : List (String × JsonValue)} (h : (record fs).Same (record gs))
    (key : String) : Option.Rel Same (fs.lookup key) (gs.lookup key) := by
  cases h with
  | object same =>
    have hkey : Option.Rel Same
        ((fs.map fun p => (Bytes.ofString p.1, id p.2)).lookup (.ofString key))
        ((gs.map fun p => (Bytes.ofString p.1, id p.2)).lookup (.ofString key)) :=
      same (.ofString key)
    rwa [lookup_map Bytes.ofString_injective, lookup_map Bytes.ofString_injective, Option.map_id]
      at hkey

/-- A field that both records have. -/
theorem Same.field {fs gs : List (String × JsonValue)} {a b : JsonValue}
    (h : (record fs).Same (record gs)) (key : String) (ha : fs.lookup key = some a)
    (hb : gs.lookup key = some b) : a.Same b := by
  have hkey := h.fields key
  rwa [ha, hb, Option.rel_some_some] at hkey

/-- The dump tells things with a property apart. -/
def Faithful {α : Type} (P : α → Prop) (dump : α → JsonValue) : Prop :=
  ∀ ⦃a b : α⦄, P a → P b → (dump a).Same (dump b) → a = b

/-- Lists are told apart by the dumps of their items. -/
theorem Faithful.array {α : Type} {P : α → Prop} {dump : α → JsonValue} (h : Faithful P dump) :
    Faithful (fun items : List α => ∀ a ∈ items, P a) fun items => .array (items.map dump) := by
  intro as bs has hbs hsame
  -- The items are compared in pairs; the induction is on these.
  have same : List.Forall₂ (fun a b => (dump a).Same (dump b)) as bs := by
    cases hsame with
    | array same => simpa using same
  clear hsame
  induction same with
  | nil => rfl
  | cons first _ ih =>
    rw [List.forall_mem_cons] at has hbs
    rw [h has.1 hbs.1 first, ih has.2 hbs.2]

/-- The same for the arrays in which a table keeps its entries. -/
theorem Faithful.entries {α : Type} {P : α → Prop} {dump : α → JsonValue} (h : Faithful P dump) :
    Faithful (fun items : Array α => ∀ a ∈ items, P a) fun items =>
      .array (items.toList.map dump) :=
  fun _ _ has hbs hsame => Array.toList_inj.1 (h.array
    (fun a ha => has a (Array.mem_toList_iff.1 ha)) (fun b hb => hbs b (Array.mem_toList_iff.1 hb))
    hsame)

/-- A value that may be missing is told apart by its dump, which is missing with it. -/
theorem Faithful.option {α : Type} {dump : α → JsonValue} (h : Faithful (fun _ => True) dump)
    {a b : Option α} (same : Option.Rel Same (a.map dump) (b.map dump)) : a = b := by
  cases a with
  | none =>
    cases b with
    | none => rfl
    | some y => cases same
  | some x =>
    cases b with
    | none => cases same
    | some y => rw [h trivial trivial (Option.rel_some_some.1 same)]

/-- An index that may be missing is told apart by its dump. -/
private theorem faithful_index : Faithful (fun _ => True) (ofOption ofUInt32) := by
  intro a b _ _ h
  -- An index that is missing is dumped as null.
  cases a with
  | none =>
    cases b with
    | none => rfl
    | some n => cases h
  | some m =>
    cases b with
    | none => cases h
    | some n => rw [same_ofUInt32.1 h]

end JsonValue

/-! ## Dumps of entries -/

open JsonValue

/-- Lists of known types are told apart by their dumps. -/
theorem ValueType.faithful_dumpAll :
    Faithful (fun ts : List ValueType => ∀ t ∈ ts, t.isKnown = true) ValueType.dumpAll := by
  have hname : Faithful (fun t : ValueType => t.isKnown = true) fun t => .ofString t.name :=
    fun t u ht hu h => name_injOn ht hu (same_ofString.1 h)
  exact hname.array

/-- Function types are told apart by their dumps. -/
theorem FuncType.faithful_dump : Faithful FuncType.Known FuncType.dump := by
  intro t u ht hu h
  have hparams := ValueType.faithful_dumpAll ht.1 hu.1 (h.field "params" rfl rfl)
  have hresults := ValueType.faithful_dumpAll ht.2 hu.2 (h.field "results" rfl rfl)
  cases t
  cases u
  exact congrArg₂ FuncType.mk hparams hresults

namespace Limits

variable {l m : Limits}

/-- The field for the maximum is there if the maximum is. -/
private theorem lookup_max (l : Limits) :
    l.fields.lookup "max" = l.max.map fun max => .number max.toNat := by
  obtain ⟨min, max, shared, is64⟩ := l
  cases max <;> cases shared <;> rfl

/-- The field for sharing is there only if the entry is shared. -/
private theorem lookup_shared (l : Limits) :
    l.fields.lookup "shared" = if l.shared then some (.bool true) else none := by
  obtain ⟨min, max, shared, is64⟩ := l
  cases max <;> cases shared <;> rfl

/-- Limits have no field for the type of elements. -/
private theorem lookup_elem (l : Limits) : l.fields.lookup "elem" = none := by
  obtain ⟨min, max, shared, is64⟩ := l
  cases max <;> cases shared <;> rfl

/-- The fields of limits say everything about them but the width of addresses. -/
private theorem eq_of_fields (hl : l.is64 = false) (hm : m.is64 = false)
    (h : ∀ key, key ≠ "elem" → Option.Rel Same (l.fields.lookup key) (m.fields.lookup key)) :
    l = m := by
  have hmin : Option.Rel Same (some (.number l.min.toNat)) (some (.number m.min.toNat)) :=
    h "min" (by decide)
  have hmax := h "max" (by decide)
  have hshared := h "shared" (by decide)
  rw [Option.rel_some_some, same_number, UInt64.toNat_inj] at hmin
  rw [lookup_max, lookup_max] at hmax
  rw [lookup_shared, lookup_shared] at hshared
  obtain ⟨min, max, shared, is64⟩ := l
  obtain ⟨min', max', shared', is64'⟩ := m
  obtain rfl : min = min' := hmin
  obtain rfl : is64 = is64' := hl.trans hm.symm
  obtain rfl : max = max' :=
    Faithful.option (fun _ _ _ _ h => UInt64.toNat_inj.1 (same_number.1 h)) hmax
  -- A field that is missing on one side only would be a difference.
  have hshared : shared = shared' := by
    cases shared <;> cases shared' <;> simp at hshared ⊢
  rw [hshared]

private theorem faithful_dump : Faithful (fun l : Limits => l.is64 = false) Limits.dump :=
  fun _ _ hl hm h => eq_of_fields hl hm fun key _ => h.fields key

end Limits

/-- Tables are told apart by their dumps. -/
theorem TableType.faithful_dump :
    Faithful (fun t : TableType => t.element.isKnown = true ∧ t.limits.is64 = false)
      TableType.dump := by
  intro t u ht hu h
  -- The element type stands behind the limits, which have no field of this name.
  have helem := h.fields "elem"
  rw [List.lookup_append, List.lookup_append, Limits.lookup_elem, Limits.lookup_elem,
    Option.none_or, Option.none_or] at helem
  have helement := ValueType.name_injOn ht.1 hu.1 (same_ofString.1 (Option.rel_some_some.1 helem))
  have hlimits : t.limits = u.limits := by
    refine Limits.eq_of_fields ht.2 hu.2 fun key hkey => ?_
    have hfield := h.fields key
    have hnone : ∀ value : JsonValue, [("elem", value)].lookup key = none := fun value => by
      rw [List.lookup_cons, beq_eq_false_iff_ne.2 hkey]
      rfl
    rwa [List.lookup_append, List.lookup_append, hnone, hnone, Option.or_none, Option.or_none]
      at hfield
  cases t
  cases u
  exact congrArg₂ TableType.mk helement hlimits

namespace ConstExpr

/-- Only the absent initializer has the opcode that marks it. -/
def Regular (e : ConstExpr) : Prop :=
  e.isAbsent = true → e = .absent

/-- Regular initializers are told apart by their dumps. -/
private theorem faithful_dump : Faithful Regular ConstExpr.dump := by
  intro e f he hf h
  simp only [dump] at h
  split at h
  -- The absent initializer is dumped as no object at all.
  · next habsent =>
    split at h
    · next habsent' => rw [he habsent, hf habsent']
    · cases h
  · split at h
    · cases h
    · have hopcode := UInt8.toNat_inj.1 (same_number.1 (h.field "opcode" rfl rfl))
      have hvalue := UInt64.toNat_inj.1 (same_number.1 (h.field "value" rfl rfl))
      cases e
      cases f
      exact congrArg₂ ConstExpr.mk hopcode hvalue

private theorem regular_absent : absent.Regular :=
  fun _ => rfl

end ConstExpr

theorem Initializer.regular_constExpr (init : Initializer) : init.constExpr.Regular := by
  intro h
  cases init <;> exact absurd h Bool.false_ne_true

/-- Imports are told apart by their dumps. -/
theorem Import.faithful_dump : Faithful (fun _ => True) Import.dump := by
  intro i j _ _ h
  have hmodule := same_text.1 (h.field "module" rfl rfl)
  have hname := same_text.1 (h.field "name" rfl rfl)
  have hindex := same_ofUInt32.1 (h.field "index" rfl rfl)
  cases i
  cases j
  simp_all

/-- The name of a function is empty if it has none. -/
theorem FunctionEntry.faithful_dump (imported : Nat) :
    Faithful (fun _ => True) fun p : FunctionEntry × Nat => p.1.dump p.2 imported := by
  rintro ⟨f, i⟩ ⟨g, j⟩ - - h
  have hindex := same_number.1 (h.field "index" rfl rfl)
  have htype := same_ofUInt32.1 (h.field "type" rfl rfl)
  have hname := h.fields "name"
  obtain ⟨typeIndex, name⟩ := f
  obtain ⟨typeIndex', name'⟩ := g
  -- There is a field for a name only if it is not empty.
  have hname : name = name' := by
    cases name with
    | nil =>
      cases name' with
      | nil => rfl
      | cons => cases hname
    | cons =>
      cases name' with
      | nil => cases hname
      | cons => exact same_text.1 (Option.rel_some_some.1 hname)
  simp_all

/-- Globals are told apart by their dumps. -/
theorem Global.faithful_dump :
    Faithful (fun g : Global => g.type.type.isKnown = true ∧ g.init.Regular) Global.dump := by
  intro g h hg hh same
  have htype := ValueType.name_injOn hg.1 hh.1 (same_ofString.1 (same.field "type" rfl rfl))
  have hmutable := same_bool.1 (same.field "mutable" rfl rfl)
  have hinit := ConstExpr.faithful_dump hg.2 hh.2 (same.field "init" rfl rfl)
  obtain ⟨⟨type, mutable⟩, init⟩ := g
  obtain ⟨⟨type', mutable'⟩, init'⟩ := h
  simp_all

/-- Exports are told apart by their dumps. -/
theorem Export.faithful_dump : Faithful (fun _ => True) Export.dump := by
  intro e f _ _ h
  have hkind := ExternalKind.name_injective (same_ofString.1 (h.field "kind" rfl rfl))
  have hindex := same_ofUInt32.1 (h.field "index" rfl rfl)
  cases e
  cases f
  exact congrArg₂ Export.mk hkind hindex

/-- The mode and the type of the segment are known, and its expressions are regular. -/
structure ElementSegment.Regular (s : ElementSegment) : Prop where
  mode : s.mode.isKnown = true
  offset : s.offset.Regular
  type : s.type.isKnown = true
  items : ∀ item ∈ s.items, item.Regular

/-- Regular element segments are told apart by their dumps. -/
theorem ElementSegment.faithful_dump : Faithful ElementSegment.Regular ElementSegment.dump := by
  intro s t hs ht h
  have hmode := SegmentMode.name_injOn hs.mode ht.mode (same_ofString.1 (h.field "mode" rfl rfl))
  have htable := same_ofUInt32.1 (h.field "table" rfl rfl)
  have hoffset := ConstExpr.faithful_dump hs.offset ht.offset (h.field "offset" rfl rfl)
  have htype := ValueType.name_injOn hs.type ht.type (same_ofString.1 (h.field "type" rfl rfl))
  have hitems := ConstExpr.faithful_dump.array hs.items ht.items (h.field "items" rfl rfl)
  cases s
  cases t
  simp_all

/-- The mode of the segment is known, and its offset is regular. -/
structure DataSegment.Regular (s : DataSegment) : Prop where
  mode : s.mode.isKnown = true
  offset : s.offset.Regular

/-- Regular data segments are told apart by their dumps. -/
theorem DataSegment.faithful_dump : Faithful DataSegment.Regular DataSegment.dump := by
  intro s t hs ht h
  have hmode := SegmentMode.name_injOn hs.mode ht.mode (same_ofString.1 (h.field "mode" rfl rfl))
  have hmemory := same_ofUInt32.1 (h.field "memory" rfl rfl)
  have hoffset := ConstExpr.faithful_dump hs.offset ht.offset (h.field "offset" rfl rfl)
  have hbytes := Bytes.hex_injective (same_ofString.1 (h.field "bytes" rfl rfl))
  cases s
  cases t
  simp_all

/-! ## Dumps of tables -/

/-- In a map with increasing names, an entry is what is found under its name. -/
theorem ExportMap.mem_iff_lookup {map : ExportMap} (h : (map.map Prod.fst).Pairwise (· < ·))
    {name : Bytes} {e : Export} : (name, e) ∈ map ↔ map.lookup name = some e := by
  rw [List.lookup_eq_some_iff]
  constructor
  · intro hmem
    obtain ⟨before, after, rfl⟩ := List.append_of_mem hmem
    refine ⟨before, after, rfl, fun p hp => ?_⟩
    -- All names before it are smaller.
    rw [List.map_append, List.pairwise_append] at h
    have hlt : p.1 < name := h.2.2 _ (List.mem_map_of_mem hp) _ (by simp)
    rw [bne_iff_ne]
    exact fun heq => List.lt_irrefl _ (heq ▸ hlt)
  · rintro ⟨before, after, rfl, -⟩
    simp

/-- Maps with increasing names are equal if the same is found in them. -/
theorem ExportMap.ext_lookup {map map' : ExportMap} (h : (map.map Prod.fst).Pairwise (· < ·))
    (h' : (map'.map Prod.fst).Pairwise (· < ·))
    (same : ∀ name, map.lookup name = map'.lookup name) : map = map' := by
  have hmem : ∀ p, p ∈ map ↔ p ∈ map' := by
    rintro ⟨name, e⟩
    rw [mem_iff_lookup h, mem_iff_lookup h', same]
  rw [List.pairwise_map] at h h'
  have hirrefl : ∀ p q : Bytes × Export, p.1 < q.1 → p ≠ q := by
    rintro p _ hlt rfl
    exact List.lt_irrefl _ hlt
  -- The same entries, each once, and in increasing order: there is only one such list.
  have hperm := (List.perm_ext_iff_of_nodup (h.imp (hirrefl _ _)) (h'.imp (hirrefl _ _))).2 hmem
  exact hperm.eq_of_pairwise
    (fun p q _ _ hpq hqp => absurd (List.lt_trans hpq hqp) (List.lt_irrefl _)) h h'

/-- Four fields that are equal kind by kind are equal. -/
theorem PerKind.ext_get {α : Type} {p q : PerKind α} (h : ∀ k, p.get k = q.get k) : p = q := by
  cases p
  cases q
  exact (PerKind.mk.injEq ..).mpr ⟨h .func, h .table, h .memory, h .global⟩

/-- Types are known, initializers are regular, and addresses do not have 64 bits. -/
def IndexEntry.Regular : IndexEntry → Prop
  | func _ => True
  | table type => type.element.isKnown = true ∧ type.limits.is64 = false
  | memory limits => limits.is64 = false
  | global type init => type.type.isKnown = true ∧ init.Regular

namespace ModuleTable

/-- What the dump of a table leaves out is the same in all regular tables. -/
structure Regular (t : ModuleTable) : Prop where
  types : ∀ type ∈ t.types, type.Known
  entries : ∀ k, ∀ x ∈ t.entries k, x.Regular
  exports : (t.exports.map Prod.fst).Pairwise (· < ·)
  elements : ∀ segment ∈ t.elements, segment.Regular
  data : ∀ segment ∈ t.data, segment.Regular

variable {t u : ModuleTable}

theorem Regular.tables (regular : t.Regular) :
    ∀ type ∈ t.tables, type.element.isKnown = true ∧ type.limits.is64 = false :=
  fun _ hmem => regular.entries .table _ (List.mem_map_of_mem (Array.mem_toList_iff.2 hmem))

theorem Regular.memories (regular : t.Regular) : ∀ limits ∈ t.memories, limits.is64 = false :=
  fun _ hmem => regular.entries .memory _ (List.mem_map_of_mem (Array.mem_toList_iff.2 hmem))

theorem Regular.globals (regular : t.Regular) :
    ∀ g ∈ t.globals, g.type.type.isKnown = true ∧ g.init.Regular :=
  fun _ hmem => regular.entries .global _ (List.mem_map_of_mem (Array.mem_toList_iff.2 hmem))

private theorem imports_of_dump (h : t.dump.Same u.dump) : t.imports = u.imports := by
  refine PerKind.ext_get fun k => ?_
  have hkind : (JsonValue.array ((t.imports.get k).toList.map Import.dump)).Same
      (.array ((u.imports.get k).toList.map Import.dump)) :=
    (h.field "imports" rfl rfl).field k.name (by cases k <;> rfl) (by cases k <;> rfl)
  exact Import.faithful_dump.entries (fun _ _ => trivial) (fun _ _ => trivial) hkind

/-- The functions can be read off the dump. -/
private theorem functions_of_dump (h : t.dump.Same u.dump) : t.functions = u.functions := by
  have hfield := h.field "functions" rfl rfl
  -- Whether a function is imported depends on the imports, which are equal already.
  rw [imports_of_dump h] at hfield
  have hzip := (FunctionEntry.faithful_dump u.imports.func.size).array (fun _ _ => trivial)
    (fun _ _ => trivial) hfield
  have hfirst := congrArg (List.map Prod.fst) hzip
  rwa [List.zipIdx_map_fst, List.zipIdx_map_fst, Array.toList_inj] at hfirst

/-- The exports can be read off the dump. -/
private theorem exports_of_dump (ht : t.Regular) (hu : u.Regular) (h : t.dump.Same u.dump) :
    t.exports = u.exports := by
  refine ExportMap.ext_lookup ht.exports hu.exports fun name => ?_
  have hfield : (JsonValue.object (t.exports.map fun p => (id p.1, p.2.dump))).Same
      (.object (u.exports.map fun p => (id p.1, p.2.dump))) := h.field "exports" rfl rfl
  -- The dump has the exports as an object, whose fields are looked up by name.
  cases hfield with
  | object same =>
    have hname := same (id name)
    rw [lookup_map Function.injective_id, lookup_map Function.injective_id] at hname
    exact Export.faithful_dump.option hname

/-- Regular tables are told apart by their dumps. -/
private theorem faithful_dump : Faithful Regular ModuleTable.dump := by
  intro t u ht hu h
  -- Each field of the table has a field in the dump.
  have htypes := FuncType.faithful_dump.entries ht.types hu.types (h.field "types" rfl rfl)
  have himports := imports_of_dump h
  have hfunctions := functions_of_dump h
  have htables := TableType.faithful_dump.entries ht.tables hu.tables (h.field "tables" rfl rfl)
  have hmemories :=
    Limits.faithful_dump.entries ht.memories hu.memories (h.field "memories" rfl rfl)
  have hglobals := Global.faithful_dump.entries ht.globals hu.globals (h.field "globals" rfl rfl)
  have hexports := exports_of_dump ht hu h
  have helements :=
    ElementSegment.faithful_dump.entries ht.elements hu.elements (h.field "elements" rfl rfl)
  have hdata := DataSegment.faithful_dump.entries ht.data hu.data (h.field "data" rfl rfl)
  have hstart := faithful_index trivial trivial (h.field "start" rfl rfl)
  have hcount := faithful_index trivial trivial (h.field "data_count" rfl rfl)
  cases t
  cases u
  exact (ModuleTable.mk.injEq ..).mpr ⟨htypes, himports, hfunctions, htables, hmemories, hglobals,
    hexports, helements, hdata, hstart, hcount⟩

end ModuleTable

/-! ## Regular tables -/

/-- What an edit adds is regular. -/
def TableEdit.Regular : TableEdit → Prop
  | addType type => type.Known
  | addImport _ _ desc => desc.entry.Regular
  | addTable type => (IndexEntry.table type).Regular
  | addMemory limits => (IndexEntry.memory limits).Regular
  | addGlobal type init => (IndexEntry.global type init).Regular
  | addElement segment => segment.Regular
  | addData segment => segment.Regular
  | _ => True

/-- The types in a written function type are known. -/
theorem FuncTypeForm.known {t : FuncType} {bytes : Bytes} (h : FuncTypeForm t bytes) : t.Known := by
  obtain ⟨params, results⟩ := h
  refine ⟨fun x hx => ?_, fun x hx => ?_⟩
  · obtain ⟨_, ⟨known⟩⟩ := params.exists_part hx
    exact known
  · obtain ⟨_, ⟨known⟩⟩ := results.exists_part hx
    exact known

/-- What is written as a table is regular. -/
theorem TableTypeForm.regular {t : TableType} {bytes : Bytes} (h : TableTypeForm t bytes) :
    (IndexEntry.table t).Regular := by
  obtain ⟨element, -, flags⟩ := h
  refine ⟨ValueType.isKnown_of_isReference element, ?_⟩
  by_contra hwide
  -- The bit for 64-bit addresses alone is more than the flags of a table may be.
  have hlarge : ∀ bounded shared : Bool,
      ¬(if bounded then (1 : UInt8) else 0) + (if shared then 2 else 0) + 4 < 2 := by decide
  rw [Limits.flags, Bool.eq_true_of_not_eq_false hwide, if_pos rfl] at flags
  exact hlarge _ _ flags

/-- What is written as a global is regular. -/
theorem GlobalTypeForm.regular {t : GlobalType} {bytes : Bytes} (h : GlobalTypeForm t bytes)
    {init : ConstExpr} (hinit : init.Regular) : (IndexEntry.global t init).Regular := by
  obtain ⟨known⟩ := h
  exact ⟨known, hinit⟩

/-- What is written as an element segment is regular. -/
theorem ElementForm.regular {s : ElementDesc} {bytes : Bytes} (h : ElementForm s bytes) :
    s.segment.Regular := by
  obtain ⟨-, -, -, typed⟩ := h
  obtain ⟨place, items⟩ := s
  constructor
  case mode => cases place <;> rfl
  -- Segments that are not active have no offset.
  case offset =>
    cases place with
    | active offset => exact offset.regular_constExpr
    | activeIn table offset => exact offset.regular_constExpr
    | passive => exact ConstExpr.regular_absent
    | declarative => exact ConstExpr.regular_absent
  case type =>
    cases items with
    | functions indices => rfl
    | references type items => exact ValueType.isKnown_of_isReference typed.1
  case items =>
    intro item hitem
    cases items with
    | functions indices =>
      obtain ⟨index, -, rfl⟩ := List.mem_map.1 hitem
      exact (Initializer.refFunc index).regular_constExpr
    | references type items =>
      obtain ⟨init, -, rfl⟩ := List.mem_map.1 hitem
      exact init.regular_constExpr

/-- What is written as a data segment is regular. -/
theorem DataDesc.regular_segment (s : DataDesc) : s.segment.Regular := by
  obtain ⟨place, bytes⟩ := s
  cases place with
  | active offset => exact ⟨rfl, offset.regular_constExpr⟩
  | passive => exact ⟨rfl, ConstExpr.regular_absent⟩
  | activeIn memory offset => exact ⟨rfl, offset.regular_constExpr⟩

/-- The entries that a regular edit adds are regular. -/
theorem TableEdit.Regular.entries {e : TableEdit} {k : ExternalKind} {x : IndexEntry}
    (h : e.Regular) (hx : x ∈ (e.imports k).map (·.2.2.entry) ++ e.own k) : x.Regular := by
  -- The kind of the index space says which entry is meant.
  cases e with
  | addImport module name desc =>
    obtain ⟨-, rfl⟩ : desc.kind = k ∧ desc.entry = x := by
      simpa [TableEdit.imports, TableEdit.own] using hx
    exact h
  | addFunction typeIndex =>
    obtain ⟨-, rfl⟩ : k = .func ∧ x = .func typeIndex := by
      simpa [TableEdit.imports, TableEdit.own] using hx
    trivial
  | addTable type =>
    obtain ⟨-, rfl⟩ : k = .table ∧ x = .table type := by
      simpa [TableEdit.imports, TableEdit.own] using hx
    exact h
  | addMemory limits =>
    obtain ⟨-, rfl⟩ : k = .memory ∧ x = .memory limits := by
      simpa [TableEdit.imports, TableEdit.own] using hx
    exact h
  | addGlobal type init =>
    obtain ⟨-, rfl⟩ : k = .global ∧ x = .global type init := by
      simpa [TableEdit.imports, TableEdit.own] using hx
    exact h
  | _ => simp [TableEdit.imports, TableEdit.own] at hx

namespace ModuleTable

variable {t u : ModuleTable} {e : TableEdit} {bytes : Bytes} {size : Nat}

/-- What a module says is regular, if it is accepted. -/
private theorem regular_of_accepted (form : EditForm e bytes) (h : t.edit e = .ok u) :
    e.Regular := by
  cases form with
  | name => trivial
  | entry form =>
    cases form with
    | type form => exact form.known
    | @imported module name _ _ _ desc _ _ form =>
      cases form with
      | func => trivial
      | table form => exact form.regular
      | memory =>
        -- Whether a memory has 64-bit addresses is checked by the table.
        obtain ⟨-, v, hv, -⟩ := addImport_eq_ok.1 h
        exact (addImported_isOk_iff t _).1 ⟨v, hv⟩
      | global form => exact form.regular ConstExpr.regular_absent
    | table form => exact form.regular
    | @memory limits _ form =>
      exact (pushMemory_eq_ok.1 h).1
    | @global type init _ _ form => exact form.regular init.regular_constExpr
    | element form => exact form.regular
    | @data s => exact s.regular_segment
    | _ => trivial

private theorem regular_empty : Regular {} where
  types type hmem := by simp at hmem
  entries k x hmem := by cases k <;> simp [ModuleTable.entries] at hmem
  exports := .nil
  elements segment hmem := by simp at hmem
  data segment hmem := by simp at hmem

/-- Regular edits keep tables regular. -/
theorem Regular.edit (regular : t.Regular) (he : e.Regular) (h : t.edit e = .ok u) :
    u.Regular := by
  have effect := edit_effect h
  -- What an edit adds is regular, and what was there stays.
  constructor
  case types =>
    intro type hmem
    obtain hmem | rfl := mem_types_edit h hmem
    · exact regular.types type hmem
    · exact he
  case entries =>
    intro k x hx
    rw [effect.entries k, List.append_assoc, List.mem_append] at hx
    obtain hx | hx := hx
    · exact regular.entries k x hx
    · exact he.entries hx
  case exports =>
    rw [effect.exports]
    cases e with
    | addExport name code index =>
      simp only [TableEdit.exported]
      split
      · exact ExportMap.pairwise_insert name _ regular.exports
      · exact regular.exports
    | _ => exact regular.exports
  case elements =>
    intro segment hmem
    obtain hmem | rfl := mem_elements_edit h hmem
    · exact regular.elements segment hmem
    · exact he
  case data =>
    intro segment hmem
    obtain hmem | rfl := mem_data_edit h hmem
    · exact regular.data segment hmem
    · exact he

/-- The tables of a parse are regular. -/
theorem History.regular (h : t.History size) : t.Regular := by
  induction h with
  | empty => exact regular_empty
  | edit _ form accepted ih => exact ih.edit (regular_of_accepted form accepted) accepted

end ModuleTable

private theorem regular_of_compile {name input : Bytes} {m : Module}
    (h : (compile name input).outcome = .ok m) : m.table.Regular := by
  obtain ⟨l, hload, htable, -⟩ := compile_eq_ok h
  obtain ⟨frames, -, -, -, hframes, -⟩ := loadModule_eq_ok hload
  rw [htable]
  exact (Loader.history_frames (.empty 0) (Loader.frames_eq_ok.1 hframes)).regular

/-! ## Main result -/

/-- Two modules that compile have the same dump exactly if their tables are equal in every field. No
    difference between what they declare is lost in the dump. -/
theorem dump_same_iff {name name' input input' : Bytes} {m m' : Module}
    (h : (compile name input).outcome = .ok m) (h' : (compile name' input').outcome = .ok m') :
    m.table.dump.Same m'.table.dump ↔ m.table = m'.table := by
  constructor
  · exact ModuleTable.faithful_dump (regular_of_compile h) (regular_of_compile h')
  · intro heq
    rw [heq]
    exact .refl _

/-- A module with a memory of no pages, which may not grow. -/
def limitedModule : Bytes :=
  [0x00, 0x61, 0x73, 0x6D, 0x01, 0x00, 0x00, 0x00, 0x05, 0x04, 0x01, 0x01, 0x00, 0x00]

/-- A module with a memory of no pages, whose number is written in one byte or, with `padded`, in
    two. -/
def unlimitedModule (padded : Bool) : Bytes :=
  [0x00, 0x61, 0x73, 0x6D, 0x01, 0x00, 0x00, 0x00] ++
    if padded then [0x05, 0x04, 0x01, 0x00, 0x80, 0x00] else [0x05, 0x03, 0x01, 0x00, 0x00]

/-- A maximum of zero is not lost, and the bytes of a number make no difference. -/
theorem dump_same_of_limited :
    ∃ m m' m'' : Module, (compile [] limitedModule).outcome = .ok m ∧
      (compile [] (unlimitedModule false)).outcome = .ok m' ∧
      (compile [] (unlimitedModule true)).outcome = .ok m'' ∧
      ¬m.table.dump.Same m'.table.dump ∧ m'.table.dump.Same m''.table.dump := by
  have hlimited : (compile [] limitedModule).outcome.toOption.map (·.table) =
      some { memories := #[{ max := some 0 }] } := by decide +kernel
  -- Both ways to write the number give the same table.
  have hunlimited : ∀ padded, (compile [] (unlimitedModule padded)).outcome.toOption.map (·.table) =
      some { memories := #[{}] } := by decide +kernel
  obtain ⟨m, hm, htable⟩ := exists_ok_of_map hlimited
  obtain ⟨m', hm', htable'⟩ := exists_ok_of_map (hunlimited false)
  obtain ⟨m'', hm'', htable''⟩ := exists_ok_of_map (hunlimited true)
  refine ⟨m, m', m'', hm, hm', hm'', ?_, ?_⟩
  · rw [dump_same_iff hm hm', htable, htable']
    decide
  · rw [dump_same_iff hm' hm'', htable', htable'']

end WasmLowering
