import WasmLowering.Instance
import WasmLowering.Proofs.ModuleLife

/-!
# Instantiation

A host adds bindings for names one after the other, and makes instances of a module. For names it is
the last binding that counts, whatever its kind, so that a binding of another kind takes an earlier
one away. An instance resolves all imports of the module, kind by kind and in order, and stops at
the first import that it cannot resolve. Once it is made it keeps its values, whatever is added
later.

## Key results

- `Bindings.find?_ofAdds`: what was added last for names is found
- `mapM_eq_ok`, `mapM_eq_error`: a list of computations succeeds, or one of them fails first
- `Instance.create_eq_ok`, `Instance.create_eq_error`: when there is an instance
- `Host.run_instantiate`: an instance stays as it is when bindings are added
- `instantiation_resolves_imports`: which instance there is, or which import is named
-/

namespace WasmLowering

/-! ## Bindings -/

namespace Bindings

/-- The bindings after some have been added one after the other. -/
def ofAdds (adds : List ((Bytes × Bytes) × Binding)) : Bindings :=
  adds.foldl (fun bs a => bs.insert a.1 a.2) []

/-- The first binding is found for its names, and the others for other names. -/
private theorem find?_cons (key other : Bytes × Bytes) (x : Binding) (rest : Bindings) :
    find? ((other, x) :: rest) key = if key = other then some x else rest.find? key := by
  unfold find?
  rw [List.lookup_cons]
  by_cases h : key = other
  · simp [h]
  · rw [if_neg h, show (key == other) = false from beq_false_of_ne h]

/-- A binding replaces the one for the same names, and no other. -/
private theorem find?_insert (bs : Bindings) (key other : Bytes × Bytes) (b : Binding) :
    (bs.insert key b).find? other = if other = key then some b else bs.find? other := by
  induction bs with
  | nil => exact find?_cons other key b []
  | cons head rest ih =>
    obtain ⟨first, x⟩ := head
    simp only [insert]
    split
    · next hfirst =>
      subst hfirst
      simp only [find?_cons]
      split <;> rfl
    · next hfirst =>
      -- The first names are not those of the binding, which goes behind them.
      simp only [find?_cons, ih]
      by_cases h : other = first
      · simp [h, Ne.symm hfirst]
      · simp [h]

end Bindings

/-- The binding that was added last for names. -/
def lastAdded (adds : List ((Bytes × Bytes) × Binding)) (key : Bytes × Bytes) : Option Binding :=
  (adds.filter (·.1 = key)).getLast?.map Prod.snd

/-- The binding that is found is the one that was added last. -/
theorem Bindings.find?_ofAdds (adds : List ((Bytes × Bytes) × Binding)) (key : Bytes × Bytes) :
    (ofAdds adds).find? key = lastAdded adds key := by
  -- From the end, where the last binding for the names is.
  induction adds using List.reverseRecOn with
  | nil => rfl
  | append_singleton adds a ih =>
    have hsnoc : ofAdds (adds ++ [a]) = (ofAdds adds).insert a.1 a.2 := by simp [ofAdds]
    rw [hsnoc, find?_insert, ih]
    by_cases h : key = a.1
    · simp [lastAdded, h]
    · simp [lastAdded, h, Ne.symm h]

/-! ## Lists of computations -/

section Lists

variable {α β : Type} {f : α → Except Fault β} {xs : List α}

/-- A list of computations succeeds if all of them do, with their values in order. -/
theorem mapM_eq_ok {ys : List β} :
    xs.mapM f = .ok ys ↔ List.Forall₂ (fun x y => f x = .ok y) xs ys := by
  induction xs generalizing ys with
  | nil =>
    constructor
    · intro h
      obtain rfl := Except.ok.inj h
      exact .nil
    · rintro ⟨⟩
      rfl
  | cons x xs ih =>
    -- The first computation succeeds, and then the others do.
    rw [List.mapM_cons, bind_eq_ok]
    constructor
    · rintro ⟨y, hy, h⟩
      obtain ⟨ys, hys, h⟩ := bind_eq_ok.1 h
      obtain rfl := Except.ok.inj h
      exact .cons hy (ih.1 hys)
    · intro h
      cases h with
      | cons hy hys => exact ⟨_, hy, bind_eq_ok.2 ⟨_, ih.2 hys, rfl⟩⟩

/-- A list of computations fails as the first one of them that does. -/
theorem mapM_eq_error {e : Fault} :
    xs.mapM f = .error e ↔ ∃ before x after, xs = before ++ x :: after ∧
      (∀ y ∈ before, ∃ b, f y = .ok b) ∧ f x = .error e := by
  induction xs with
  | nil =>
    constructor
    · intro h
      cases h
    · rintro ⟨before, x, after, h, -⟩
      simp at h
  | cons x xs ih =>
    cases hx : f x with
    | error fault =>
      -- Nothing can come before the first computation, so it is the one that fails.
      have hmap : (x :: xs).mapM f = .error fault := by
        rw [List.mapM_cons, hx]
        rfl
      rw [hmap]
      constructor
      · intro h
        exact ⟨[], x, xs, rfl, by simp, hx.trans (congrArg _ (Except.error.inj h))⟩
      · rintro ⟨before, y, after, heq, hbefore, hy⟩
        cases before with
        | nil =>
          obtain ⟨rfl, rfl⟩ := List.cons.inj heq
          exact congrArg _ (Except.error.inj (hx.symm.trans hy))
        | cons z before =>
          obtain ⟨rfl, -⟩ := List.cons.inj heq
          obtain ⟨b, hb⟩ := hbefore x List.mem_cons_self
          cases hx.symm.trans hb
    | ok b =>
      -- The first computation belongs to those before the one that fails.
      have hmap : (x :: xs).mapM f = .error e ↔ xs.mapM f = .error e := by
        rw [List.mapM_cons, hx]
        cases xs.mapM f <;> simp [bind, Except.bind, pure, Except.pure]
      rw [hmap, ih]
      constructor
      · rintro ⟨before, y, after, rfl, hbefore, hy⟩
        exact ⟨x :: before, y, after, rfl, List.forall_mem_cons.2 ⟨⟨b, hx⟩, hbefore⟩, hy⟩
      · rintro ⟨before, y, after, heq, hbefore, hy⟩
        cases before with
        | nil =>
          obtain ⟨rfl, rfl⟩ := List.cons.inj heq
          cases hx.symm.trans hy
        | cons z before =>
          obtain ⟨rfl, rfl⟩ := List.cons.inj heq
          exact ⟨before, y, after, rfl, fun w hw => hbefore w (List.mem_cons_of_mem _ hw), hy⟩

end Lists

/-! ## Imports -/

/-- The last binding for the names of an import has its kind. -/
def Import.ResolvedBy (adds : List ((Bytes × Bytes) × Binding)) (kind : ExternalKind)
    (x : Import) : Prop :=
  ∃ value, lastAdded adds (x.module, x.name) = some { kind, value }

/-- What is said of an import that cannot be resolved, given what was found for its names. -/
def unresolvedText (found : Option Binding) (kind : ExternalKind) (x : Import) : Bytes :=
  .ofString (if found.isNone then "missing " else "kind mismatch for ") ++
    .ofString kind.name ++ .ofString " import " ++ x.module ++ .ofString "." ++ x.name

section Resolution

variable {bs : Bindings} {kind : ExternalKind} {x : Import}

/-- An import is resolved by a binding of its kind. -/
private theorem resolveImport_eq_ok {value : UInt64} :
    resolveImport bs kind x = .ok value ↔ bs.find? (x.module, x.name) = some { kind, value } := by
  unfold resolveImport
  cases bs.find? (x.module, x.name) with
  | none => simp
  | some b =>
    obtain ⟨other, v⟩ := b
    by_cases h : other = kind <;> simp [h]

/-- Why an import is not resolved: its names have no binding, or one of another kind. -/
private theorem resolveImport_eq_error {fault : Fault}
    (h : resolveImport bs kind x = .error fault) :
    (¬ ∃ value, bs.find? (x.module, x.name) = some { kind, value }) ∧
      fault.kind = .unresolvedImport ∧ fault.trail = [] ∧
      fault.cause.text = unresolvedText (bs.find? (x.module, x.name)) kind x := by
  unfold resolveImport at h
  cases hfind : bs.find? (x.module, x.name) with
  | none =>
    rw [hfind] at h
    obtain rfl := Except.error.inj h
    exact ⟨by simp, rfl, rfl, rfl⟩
  | some b =>
    rw [hfind] at h
    by_cases hkind : b.kind = kind
    · simp [hkind] at h
    · simp only [hkind, if_false] at h
      obtain rfl := Except.error.inj h
      refine ⟨?_, rfl, rfl, rfl⟩
      rintro ⟨value, heq⟩
      exact hkind (by rw [Option.some.inj heq])

end Resolution

namespace ModuleTable

/-- The imports of all kinds, by kind and then by index. -/
def orderedImports (t : ModuleTable) : List (ExternalKind × Import) :=
  ExternalKind.all.flatMap fun kind => (t.imports.get kind).toList.map (kind, ·)

/-- The ordered imports are those of all kinds. -/
private theorem mem_orderedImports {t : ModuleTable} {kind : ExternalKind} {x : Import} :
    (kind, x) ∈ t.orderedImports ↔ x ∈ t.imports.get kind := by
  have hall : kind ∈ ExternalKind.all := by cases kind <;> decide
  simp [orderedImports, hall]

/-- The import is the first one, by kind and then by index, that is not resolved. -/
def FirstUnresolved (t : ModuleTable) (adds : List ((Bytes × Bytes) × Binding))
    (kind : ExternalKind) (x : Import) : Prop :=
  ∃ before after, t.orderedImports = before ++ (kind, x) :: after ∧
    (∀ p ∈ before, p.2.ResolvedBy adds p.1) ∧ ¬ x.ResolvedBy adds kind

end ModuleTable

/-! ## Instances -/

namespace Instance

variable {m : Module} {bs : Bindings} {i : Instance} {fault : Fault}

/-- There is an instance if the imports of each kind are resolved, and it has their values. -/
private theorem create_eq_ok :
    create m bs = .ok i ↔ ∀ kind, resolveKind bs m.table kind = .ok (i.bindings.get kind) := by
  simp only [create, inContext_eq_ok, bind_eq_ok]
  constructor
  · rintro ⟨func, hfunc, table, htable, memory, hmemory, global, hglobal, h⟩ kind
    obtain rfl := Except.ok.inj h
    cases kind <;> assumption
  · intro h
    exact ⟨_, h .func, _, h .table, _, h .memory, _, h .global, rfl⟩

/-- There is no instance if resolving the imports one after the other fails. -/
private theorem create_eq_error :
    create m bs = .error fault ↔ ∃ e, fault = e.within .instantiate ∧
      m.table.orderedImports.mapM (fun p => resolveImport bs p.1 p.2) = .error e := by
  -- Resolving the imports of one kind is a part of resolving them all.
  have hkind : ∀ kind, ((m.table.imports.get kind).toList.map (kind, ·)).mapM
      (fun p => resolveImport bs p.1 p.2) = resolveKind bs m.table kind := by
    intro kind
    rw [List.mapM_map]
    rfl
  simp only [ModuleTable.orderedImports, ExternalKind.all, List.flatMap_cons, List.flatMap_nil,
    List.mapM_append, hkind, create]
  -- The first kind that fails decides on both sides.
  cases resolveKind bs m.table .func with
  | error e => simp [inContext, bind, Except.bind, eq_comm]
  | ok func =>
    cases resolveKind bs m.table .table with
    | error e => simp [inContext, bind, Except.bind, eq_comm]
    | ok table =>
      cases resolveKind bs m.table .memory with
      | error e => simp [inContext, bind, Except.bind, eq_comm]
      | ok memory =>
        cases resolveKind bs m.table .global with
        | error e => simp [inContext, bind, Except.bind, eq_comm]
        | ok global => simp [inContext, bind, Except.bind, pure, Except.pure]

private theorem bindings_of_create (h : create m bs = .ok i) (kind : ExternalKind) :
    List.Forall₂ (fun x value => bs.find? (x.module, x.name) = some { kind, value })
      (m.table.imports.get kind).toList (i.bindings.get kind) :=
  (mapM_eq_ok.1 (create_eq_ok.1 h kind)).imp fun _ _ => resolveImport_eq_ok.1

/-- No binding stands behind the last one of its kind. -/
private theorem binding_eq_malformed {kind : ExternalKind} {index : UInt32} :
    i.binding kind index = .error .malformed ↔ (i.bindings.get kind).length ≤ index.toNat := by
  unfold binding
  cases hget : (i.bindings.get kind)[index.toNat]? with
  | none => simpa using hget
  | some value => simpa using (List.getElem?_eq_some_iff.1 hget).1

/-- An instance has the value of each import at the index of the import. -/
private theorem binding_of_create (h : create m bs = .ok i) {kind : ExternalKind} {index : UInt32}
    {x : Import} (hx : (m.table.imports.get kind)[index.toNat]? = some x) :
    ∃ value, bs.find? (x.module, x.name) = some { kind, value } ∧
      i.binding kind index = .ok value := by
  have hbindings := bindings_of_create h kind
  rw [← Array.getElem?_toList] at hx
  obtain ⟨hindex, rfl⟩ := List.getElem?_eq_some_iff.1 hx
  -- There is a value for each import, so the index is one of a value too.
  have hvalue : index.toNat < (i.bindings.get kind).length := hbindings.length_eq ▸ hindex
  refine ⟨_, hbindings.get hindex hvalue, ?_⟩
  unfold binding
  rw [List.getElem?_eq_getElem hvalue]
  rfl

/-- The fault of an instance that cannot be made names the first import that is not resolved. -/
private theorem fault_of_create {adds : List ((Bytes × Bytes) × Binding)}
    (h : create m (.ofAdds adds) = .error fault) :
    fault.kind = .unresolvedImport ∧ ∃ kind x, m.table.FirstUnresolved adds kind x ∧
      fault.message = (unresolvedText (lastAdded adds (x.module, x.name)) kind x).untilNul ++
        .ofString ": <- wasm/instantiate" := by
  have hfind := Bindings.find?_ofAdds adds
  obtain ⟨e, rfl, hmap⟩ := create_eq_error.1 h
  -- The first import that fails is the one that the fault names.
  obtain ⟨before, ⟨kind, x⟩, after, horder, hbefore, hx⟩ := mapM_eq_error.1 hmap
  obtain ⟨unresolved, hkind, htrail, htext⟩ := resolveImport_eq_error hx
  simp only [hfind] at unresolved htext
  refine ⟨hkind, kind, x, ⟨before, after, horder, fun p hp => ?_, unresolved⟩, ?_⟩
  · obtain ⟨value, hvalue⟩ := hbefore p hp
    exact ⟨value, hfind _ ▸ resolveImport_eq_ok.1 hvalue⟩
  · simp only [Fault.message, Fault.within, htrail, htext, List.append_assoc]
    rfl

end Instance

/-! ## Hosts -/

/-- What a host does. -/
inductive HostStep where
  | add (binding : (Bytes × Bytes) × Binding)
  | instantiate

/-- The bindings of a host, and the instance of a module that it has made last. -/
structure Host where
  bindings : Bindings := []
  inst : Option Instance := none

namespace Host

/-- One step. An instance that cannot be made leaves the one before it. -/
def step (m : Module) (h : Host) : HostStep → Host
  | .add a => { h with bindings := h.bindings.insert a.1 a.2 }
  | .instantiate => { h with inst := (Instance.create m h.bindings).toOption.or h.inst }

/-- The host after some steps. -/
def run (m : Module) (steps : List HostStep) : Host :=
  steps.foldl (step m) {}

/-- Adding bindings changes no instance. -/
private theorem foldl_adds (m : Module) (h : Host) (adds : List ((Bytes × Bytes) × Binding)) :
    (adds.map .add).foldl (step m) h =
      { h with bindings := adds.foldl (fun bs a => bs.insert a.1 a.2) h.bindings } := by
  induction adds generalizing h with
  | nil => rfl
  | cons a adds ih => exact ih _

/-- The last instance is kept while bindings are added. -/
private theorem run_instantiate {m : Module} {adds : List ((Bytes × Bytes) × Binding)}
    {i : Instance}
    (h : Instance.create m (.ofAdds adds) = .ok i) (later : List ((Bytes × Bytes) × Binding)) :
    run m (adds.map .add ++ .instantiate :: later.map .add) =
      { bindings := .ofAdds (adds ++ later), inst := some i } := by
  have hadds : run m (adds.map .add) = { bindings := .ofAdds adds } := foldl_adds m {} adds
  unfold run at hadds ⊢
  rw [List.foldl_append, hadds, List.foldl_cons, foldl_adds, step, h]
  simp only [Except.toOption, Option.some_or, Bindings.ofAdds, List.foldl_append]

end Host

/-- For every module and all bindings that a host has added, there is an instance exactly if the
    last binding for the names of each import has the kind of the import. The instance has the
    values of these bindings in the order of the imports, has no others, and keeps them whatever the
    host adds later. If there is none, the message names the first import in order that is not
    resolved, and says whether there is no binding for its names or one of another kind. -/
theorem instantiation_resolves_imports (m : Module) (adds : List ((Bytes × Bytes) × Binding)) :
    ((∃ i, Instance.create m (.ofAdds adds) = .ok i) ↔
      ∀ kind, ∀ x ∈ m.table.imports.get kind, x.ResolvedBy adds kind) ∧
    (∀ i, Instance.create m (.ofAdds adds) = .ok i →
      (∀ later, Host.run m (adds.map .add ++ .instantiate :: later.map .add) =
        { bindings := .ofAdds (adds ++ later), inst := some i }) ∧
      ∀ kind index,
        (∀ x, (m.table.imports.get kind)[index.toNat]? = some x → ∃ value,
          lastAdded adds (x.module, x.name) = some { kind, value } ∧
            i.binding kind index = .ok value) ∧
        (i.binding kind index = .error .malformed ↔
          (m.table.imports.get kind).size ≤ index.toNat)) ∧
    ∀ fault, Instance.create m (.ofAdds adds) = .error fault →
      fault.kind = .unresolvedImport ∧ ∃ kind x, m.table.FirstUnresolved adds kind x ∧
        fault.message = (unresolvedText (lastAdded adds (x.module, x.name)) kind x).untilNul ++
          .ofString ": <- wasm/instantiate" := by
  have hfind := Bindings.find?_ofAdds adds
  refine ⟨⟨?_, fun resolved => ?_⟩, fun i hcreate => ⟨Host.run_instantiate hcreate, ?_⟩,
    fun fault => Instance.fault_of_create⟩
  -- An import has a place among those of its kind, and so has its value.
  · rintro ⟨i, hcreate⟩ kind x hx
    have hbindings := Instance.bindings_of_create hcreate kind
    obtain ⟨n, hn, rfl⟩ := List.getElem_of_mem (Array.mem_toList_iff.2 hx)
    exact ⟨_, hfind _ ▸ hbindings.get hn (hbindings.length_eq ▸ hn)⟩
  · cases hcreate : Instance.create m (.ofAdds adds) with
    | ok i => exact ⟨i, rfl⟩
    | error fault =>
      -- The import that the fault names is one of those that are resolved.
      obtain ⟨-, kind, x, ⟨before, after, horder, -, unresolved⟩, -⟩ :=
        Instance.fault_of_create hcreate
      have hmem : (kind, x) ∈ m.table.orderedImports := by simp [horder]
      exact absurd (resolved kind x (ModuleTable.mem_orderedImports.1 hmem)) unresolved
  · intro kind index
    refine ⟨fun x hx => ?_, ?_⟩
    · obtain ⟨value, hvalue, hbinding⟩ := Instance.binding_of_create hcreate hx
      exact ⟨value, hfind _ ▸ hvalue, hbinding⟩
    · rw [Instance.binding_eq_malformed, ← (Instance.bindings_of_create hcreate kind).length_eq,
        Array.length_toList]

/-- A module that imports a function `m.f` and a global `m.g`. -/
def hostedModule : Bytes :=
  [0x00, 0x61, 0x73, 0x6D, 0x01, 0x00, 0x00, 0x00,
    0x01, 0x04, 0x01, 0x60, 0x00, 0x00,
    0x02, 0x0E, 0x02, 0x01, 0x6D, 0x01, 0x66, 0x00, 0x00,
    0x01, 0x6D, 0x01, 0x67, 0x03, 0x7F, 0x00]

/-- Bindings for both imports, the first of which replaces a global of the same names. -/
def replacingAdds : List ((Bytes × Bytes) × Binding) :=
  [(([0x6D], [0x66]), { kind := .global, value := 1 }),
    (([0x6D], [0x67]), { kind := .global, value := 7 }),
    (([0x6D], [0x66]), { kind := .func, value := 5 })]

/-- A table under the names of the imported function. -/
def maskingAdd : (Bytes × Bytes) × Binding :=
  (([0x6D], [0x66]), { kind := .table, value := 9 })

/-- The function that was added last is bound, and stays so when a table takes its names. The next
    instance then finds the table. -/
theorem instantiation_resolves_replaced :
    (∃ i, Instance.create (Module.compiled [([], hostedModule)]) (.ofAdds replacingAdds) = .ok i ∧
      i.binding .func 0 = .ok 5 ∧ i.binding .global 0 = .ok 7 ∧
      i.binding .func 1 = .error .malformed ∧
      (Host.run (Module.compiled [([], hostedModule)])
        (replacingAdds.map .add ++ .instantiate :: [maskingAdd].map .add)).inst = some i) ∧
    ∃ fault, Instance.create (Module.compiled [([], hostedModule)])
        (.ofAdds (replacingAdds ++ [maskingAdd])) = .error fault ∧
      fault.message = .ofString "kind mismatch for func import m.f: <- wasm/instantiate" := by
  generalize hm : Module.compiled [([], hostedModule)] = m
  have himports : m.table.imports =
      { func := #[⟨[0x6D], [0x66], 0⟩], table := #[], memory := #[],
        global := #[⟨[0x6D], [0x67], 0⟩] } := by
    rw [← hm]
    decide +kernel
  have h := instantiation_resolves_imports m
  constructor
  -- Of two bindings with one name, the later one is used.
  · obtain ⟨i, hi⟩ := (h replacingAdds).1.2 fun kind x hx => by
      rw [himports] at hx
      cases kind <;> simp [PerKind.get] at hx <;> subst hx
      · exact ⟨5, by decide⟩
      · exact ⟨7, by decide⟩
    obtain ⟨kept, bound⟩ := (h replacingAdds).2.1 i hi
    obtain ⟨f, hf, hfunc⟩ := (bound .func 0).1 ⟨[0x6D], [0x66], 0⟩ (by rw [himports]; rfl)
    obtain ⟨g, hg, hglobal⟩ := (bound .global 0).1 ⟨[0x6D], [0x67], 0⟩ (by rw [himports]; rfl)
    obtain rfl : f = 5 := by
      have : lastAdded replacingAdds ([0x6D], [0x66]) = some ⟨.func, 5⟩ := by decide
      simpa [this, eq_comm] using hf
    obtain rfl : g = 7 := by
      have : lastAdded replacingAdds ([0x6D], [0x67]) = some ⟨.global, 7⟩ := by decide
      simpa [this, eq_comm] using hg
    refine ⟨i, hi, hfunc, hglobal, (bound .func 1).2.2 (by rw [himports]; decide), ?_⟩
    rw [kept]
  -- A later binding of another kind hides the function.
  · have horder : m.table.orderedImports =
        [(.func, ⟨[0x6D], [0x66], 0⟩), (.global, ⟨[0x6D], [0x67], 0⟩)] := by
      simp [ModuleTable.orderedImports, ExternalKind.all, PerKind.get, himports]
    obtain ⟨resolved, -, refused⟩ := h (replacingAdds ++ [maskingAdd])
    have hf : ¬ Import.ResolvedBy (replacingAdds ++ [maskingAdd])
        .func ⟨[0x6D], [0x66], 0⟩ := by
      rintro ⟨value, hvalue⟩
      simp [lastAdded, replacingAdds, maskingAdd] at hvalue
    cases hcreate : Instance.create m (.ofAdds (replacingAdds ++ [maskingAdd])) with
    | ok i =>
      exact absurd (resolved.1 ⟨i, hcreate⟩ .func _ (by rw [himports]; simp [PerKind.get])) hf
    | error fault =>
      obtain ⟨-, kind, x, ⟨before, after, hfirst, hbefore, -⟩, hmessage⟩ := refused fault hcreate
      rw [horder] at hfirst
      -- The function is the first import, so it is the one that the message names.
      cases before with
      | nil =>
        cases (List.cons.inj hfirst).1
        exact ⟨fault, rfl, hmessage.trans (by decide +kernel)⟩
      | cons p before =>
        cases (List.cons.inj hfirst).1
        exact absurd (hbefore _ List.mem_cons_self) hf

end WasmLowering
