import WasmLowering.Proofs.AcceptedModules
import WasmLowering.Proofs.Independence
import WasmLowering.Proofs.ModuleFormat

/-!
# Modularity

A function is lowered from its type and its body alone. The loader lowers the bodies one after the
other with a growing table of intrinsics, so what has to be shown is that the function at a place of
the result comes from the body at this place, and that its type is the one that the finished module
gives it, although sections and names may follow the code.

## Key results

- `moduleBodies_of_form`: the bodies of a module are those of its code section
- `Loader.lowered_getElem?`: the function at a place comes from the body at this place
- `loaded_functions`: the functions of a module, in the order of their bodies
- `compile_modular`: equal bodies of equal types give equal functions in any two modules
-/

namespace WasmLowering

/-- The bodies in the payload of a code section. -/
def Decoder.bodies : Decoder (List Bytes) := do
  replicate sized (← u32).toNat

/-- The bodies in the code section of a module. -/
def moduleBodies (input : Bytes) : List Bytes :=
  let frames := (Framing.split (input.drop 8)).frames
  ((frames.find? (·.id = SectionKind.code.id)).bind fun f =>
    (Decoder.bodies.decodeAll f.payload).toOption).getD []

/-- A number of items and the items are read as a list. -/
theorem Decoder.recovers_vector {α : Type} {d : Decoder α} {items : List α} {payload : Bytes}
    (h : VectorForm (fun a bytes => d.Recovers bytes a) items payload) :
    (do replicate d (← u32).toNat : Decoder (List α)).Recovers payload items := by
  obtain ⟨number, forms⟩ := h
  have hcount : (UInt32.ofNat items.length).toNat = items.length :=
    UInt32.toNat_ofNat_of_lt' number.lt
  rw [← hcount] at number
  have hitems : ∀ {items : List α} {parts : List Bytes},
      List.Forall₂ (fun a bytes => d.Recovers bytes a) items parts →
        (replicate d items.length).Recovers parts.flatten items := by
    intro items parts forms
    induction forms with
    | nil => exact recovers_pure []
    | cons form _ ih => exact form.bind (ih.bind_pure (recovers_pure _))
  refine Recovers.bind (fun _ => u32_run number) ?_
  rw [hcount]
  exact hitems forms

/-- The bodies of a code section are read one by one. -/
private theorem bodies_decodeAll {bodies : List Bytes} {payload : Bytes}
    (h : VectorForm SizedForm bodies payload) :
    Decoder.bodies.decodeAll payload = .ok bodies := by
  obtain ⟨number, forms⟩ := h
  have hforms := forms.imp fun _ _ form => sized_run form
  exact (Decoder.recovers_vector (.mk number hforms)).decodeAll

/-- The frames of a module stand behind its header. -/
theorem frames_of_form {frames : List Frame} {parts : List Bytes}
    (forms : List.Forall₂ FrameForm frames parts) :
    (Framing.split ((moduleMagic ++ (moduleVersion ++ parts.flatten)).drop 8)).frames = frames := by
  have hsplit : Framing.split parts.flatten = ⟨frames, true⟩ := by
    simpa [Framing.split] using Framing.split_flatten_append forms []
  have hdrop : (moduleMagic ++ (moduleVersion ++ parts.flatten)).drop 8 = parts.flatten := rfl
  rw [hdrop, hsplit]

/-- The bodies of a module are found in its code section. -/
theorem moduleBodies_of_form {frames : List Frame} {parts : List Bytes}
    (forms : List.Forall₂ FrameForm frames parts) :
    moduleBodies (moduleMagic ++ (moduleVersion ++ parts.flatten)) =
      ((frames.find? (·.id = SectionKind.code.id)).bind fun f =>
        (Decoder.bodies.decodeAll f.payload).toOption).getD [] := by
  rw [moduleBodies, frames_of_form forms]

namespace Loader

variable {l l' : Loader} {bodies : List Bytes}

/-- Functions that were lowered stay. -/
private theorem lowered_getElem?_lt (h : Chain LowersBody l bodies l') {i : Nat}
    (hi : i < l.functions.size) : l'.functions[i]? = l.functions[i]? := by
  induction h with
  | nil l => rfl
  | cons first _ ih =>
    obtain ⟨_, function, _, -, -, -, rfl⟩ := first
    rw [ih (by simp only [Array.size_push]; omega), Array.getElem?_push_lt hi,
      Array.getElem?_eq_getElem hi]

/-- The function at a place comes from the body at this place. -/
private theorem lowered_getElem? (h : Chain LowersBody l bodies l') {i : Nat} {body : Bytes}
    (hbody : bodies[i]? = some body) :
    ∃ type function intrinsics intrinsics',
      l.table.functionType (l.table.bodyFunction (.ofNat (l.functions.size + i))) = .ok type ∧
      Lowering.lowerFunction l.table.types (l.functions.size + i)
        (l.table.bodyFunction (.ofNat (l.functions.size + i))) type intrinsics body =
          .ok (function, intrinsics') ∧
      l'.functions[l.functions.size + i]? = some function := by
  induction h generalizing i with
  | nil l => simp at hbody
  | cons first rest ih =>
    obtain ⟨type, function, intrinsics, htype, hlower, -, rfl⟩ := first
    cases i with
    -- It is the next body, and its function stays at its place.
    | zero =>
      obtain rfl := Option.some.inj hbody
      refine ⟨type, function, _, _, htype, hlower, ?_⟩
      rw [lowered_getElem?_lt rest (by simp)]
      simp
    -- It is a later body, and the first one only adds a function.
    | succ i =>
      have hlater := ih (by simpa using hbody)
      simpa only [Array.size_push, Nat.add_assoc, Nat.add_comm 1 i] using hlater

/-- What follows the code section changes no lowered function and no type of a function. -/
private theorem same_after_code {fs : List Frame}
    (h : Chain (fun l l' f => l.frame f = .ok l') l fs l')
    (tail : ∀ f ∈ fs, f.id = 0 ∨ f.id = SectionKind.data.id) :
    l'.functions = l.functions ∧ l'.table.types = l.table.types ∧
      l'.table.bodyFunction = l.table.bodyFunction ∧
      l'.table.functionType = l.table.functionType := by
  obtain ⟨data, rank, hlast⟩ := unnamed_of_data h tail
  -- The tables agree up to names and data segments.
  have htable : l'.table.unnamed = { l.table.unnamed with data } :=
    congrArg (fun l : Loader => l.table) hlast
  have hfunctions := congrArg (fun l : Loader => l.functions) hlast
  have htypes := congrArg (fun t : ModuleTable => t.types) htable
  have hfunc := congrArg (fun t : ModuleTable => t.bodyFunction) htable
  refine ⟨hfunctions, htypes, hfunc, ?_⟩
  funext index
  rw [← ModuleTable.functionType_unnamed, htable, ← ModuleTable.functionType_unnamed l.table]
  rfl

end Loader

/-- The functions of a loaded module, in the order of their bodies. -/
theorem loaded_functions {input : Bytes} {l : Loader} (h : loadModule input = .ok l) :
    l.functions.size = (moduleBodies input).length ∧
      ∀ i body, (moduleBodies input)[i]? = some body →
        ∃ type function intrinsics intrinsics',
          l.table.functionType (l.table.bodyFunction (.ofNat i)) = .ok type ∧
          Lowering.lowerFunction l.table.types i (l.table.bodyFunction (.ofNat i)) type intrinsics
            body = .ok (function, intrinsics') ∧
          l.functions[i]? = some function := by
  obtain ⟨frames, parts, rfl, forms, hframes, -⟩ := loadModule_eq_ok h
  have chain := Loader.frames_eq_ok.1 hframes
  rw [moduleBodies_of_form forms]
  cases hfind : frames.find? (·.id = SectionKind.code.id) with
  -- Without a code section there are no bodies.
  | none =>
    have hbodies := Loader.bodies_of_no_code chain (by simpa using hfind)
    rw [(Loader.counted_of_frames chain).lowered, hbodies]
    simp
  | some f =>
    obtain ⟨before, after, mid, done, rfl, hbefore, rank, takes, hafter, tail⟩ :=
      Loader.exists_code chain (List.mem_of_find?_eq_some hfind)
        (by simpa using List.find?_some hfind)
    -- Later sections change nothing that the bodies depend on.
    obtain ⟨hfunctions, htypes, hfunc, htype⟩ := Loader.same_after_code hafter tail
    have counted := Loader.counted_of_frames hbefore
    have hempty : mid.functions.size = 0 := counted.lowered.trans (counted.bodies rank)
    cases takes with
    | entries list => cases list
    | number single => simp at single
    | @code _ bodies lowered form _ chain =>
      obtain ⟨functions, _, rfl, hsize⟩ := Loader.lowered_bodies chain
      simp only [Option.bind_some, bodies_decodeAll form, Except.toOption, Option.getD_some]
      rw [hfunctions, htypes, hfunc, htype]
      refine ⟨by simp only [hsize, hempty, Nat.zero_add], fun i body hbody => ?_⟩
      have hplace := Loader.lowered_getElem? chain hbody
      simpa only [hempty, Nat.zero_add] using hplace

/-- The body of the function at a place is the body at this place. -/
theorem body_of_loaded {input : Bytes} {l : Loader} (h : loadModule input = .ok l) {i : Nat}
    {f : Ssa.Function} (hf : l.functions[i]? = some f) : f.body = i := by
  obtain ⟨hsize, hall⟩ := loaded_functions h
  have hi : i < (moduleBodies input).length := hsize ▸ (Array.getElem?_eq_some_iff.1 hf).1
  obtain ⟨_, function, _, _, -, hlower, hfunction⟩ := hall i _ (List.getElem?_eq_getElem hi)
  obtain ⟨_, _, _, _, -, -, -, -, -, rfl, -⟩ := Lowering.lowerFunction_eq_ok.1 hlower
  rw [Option.some.inj (hf.symm.trans hfunction)]

/-- The functions of a compiled module are named after the places of their bodies. -/
private theorem names_of_loaded {input : Bytes} {l : Loader} (h : loadModule input = .ok l) :
    l.functions.toList.map Ssa.Function.name =
      (List.range (moduleBodies input).length).map fun i => "func_" ++ decimalDigits 1 i := by
  obtain ⟨hsize, hall⟩ := loaded_functions h
  refine List.ext_getElem? fun i => ?_
  by_cases hi : i < (moduleBodies input).length
  -- The name is made from the place of the body.
  · obtain ⟨type, function, _, _, -, hlower, hfunction⟩ :=
      hall i _ (List.getElem?_eq_getElem hi)
    obtain ⟨_, _, _, _, -, -, -, -, -, rfl, -⟩ := Lowering.lowerFunction_eq_ok.1 hlower
    rw [List.getElem?_map, Array.getElem?_toList, hfunction, List.getElem?_map,
      List.getElem?_range hi]
    rfl
  · rw [List.getElem?_eq_none (by simpa [hsize] using hi),
      List.getElem?_eq_none (by simpa using hi)]

/-- The type of a function is the one at its type index. -/
theorem ModuleTable.functionType_eq_ok {t : ModuleTable} {index : UInt32} {f : FunctionEntry}
    {type : FuncType} (hf : t.functions[index.toNat]? = some f)
    (h : t.functionType index = .ok type) : t.types[f.typeIndex.toNat]? = some type := by
  rw [functionType, hf] at h
  simp only at h
  split at h
  · cases h
  · next hget => rw [hget, Except.ok.inj h]

/-- In any two modules with the same types, functions with the same type index and the same body are
    lowered to the same function up to its name. In each module there is one function for each body,
    and they are named in the order of the bodies. -/
theorem compile_modular {name name' input input' : Bytes} {m m' : Module}
    (h : (compile name input).outcome = .ok m) (h' : (compile name' input').outcome = .ok m')
    (types : m.table.types = m'.table.types) :
    ∃ lowered lowered', m.lowered = some lowered ∧ m'.lowered = some lowered' ∧
      (lowered.functions.toList.map Ssa.Function.name =
        (List.range (moduleBodies input).length).map fun i => "func_" ++ decimalDigits 1 i) ∧
      ∀ (i j : Nat) (f f' : FunctionEntry) (body : Bytes),
        (moduleBodies input)[i]? = some body → (moduleBodies input')[j]? = some body →
        m.table.functions[(m.table.bodyFunction (.ofNat i)).toNat]? = some f →
        m'.table.functions[(m'.table.bodyFunction (.ofNat j)).toNat]? = some f' →
        f.typeIndex = f'.typeIndex →
        ∃ g, lowered.functions[i]? = some g ∧
          lowered'.functions[j]? = some { g with body := j } := by
  obtain ⟨l, hload, htable, hlowered⟩ := compile_eq_ok h
  obtain ⟨l', hload', htable', hlowered'⟩ := compile_eq_ok h'
  refine ⟨_, _, hlowered, hlowered', names_of_loaded hload, ?_⟩
  intro i j f f' body hbody hbody' hf hf' index
  rw [htable] at hf types
  rw [htable'] at hf' types
  obtain ⟨type, g, _, _, htype, hlower, hg⟩ := (loaded_functions hload).2 i body hbody
  obtain ⟨type', g', intrinsics', _, htype', hlower', hg'⟩ :=
    (loaded_functions hload').2 j body hbody'
  -- It is the same index in the same list of types.
  have hsame : type = type' := by
    have hget := ModuleTable.functionType_eq_ok hf htype
    have hget' := ModuleTable.functionType_eq_ok hf' htype'
    rw [types, index, hget'] at hget
    exact (Option.some.inj hget).symm
  -- The lines do not depend on the intrinsics that were declared before.
  obtain ⟨_, hindependent⟩ := Lowering.lowerFunction_independent hlower j
    (l'.table.bodyFunction (.ofNat j)) intrinsics'
  rw [types, hsame, hlower'] at hindependent
  obtain ⟨rfl, -⟩ := Prod.mk.inj (Except.ok.inj hindependent)
  exact ⟨g, hg, hg'⟩

/-- A module with two functions, the second of which counts leading zeros. -/
def localModule : Bytes :=
  [0x00, 0x61, 0x73, 0x6D, 0x01, 0x00, 0x00, 0x00,
    0x01, 0x05, 0x01, 0x60, 0x00, 0x01, 0x7F,
    0x03, 0x03, 0x02, 0x00, 0x00,
    0x0A, 0x0C, 0x02, 0x04, 0x00, 0x41, 0x07, 0x0B, 0x05, 0x00, 0x41, 0x07, 0x67, 0x0B]

/-- A module with an import and a function that counts leading zeros. -/
def importingModule : Bytes :=
  [0x00, 0x61, 0x73, 0x6D, 0x01, 0x00, 0x00, 0x00,
    0x01, 0x05, 0x01, 0x60, 0x00, 0x01, 0x7F,
    0x02, 0x07, 0x01, 0x01, 0x6D, 0x01, 0x66, 0x00, 0x00,
    0x03, 0x02, 0x01, 0x00,
    0x0A, 0x07, 0x01, 0x05, 0x00, 0x41, 0x07, 0x67, 0x0B]

/-- The second function of one module is the first one of the other. -/
theorem compile_modular_importing :
    ∃ m m' lowered lowered' g, (compile [] localModule).outcome = .ok m ∧
      (compile [] importingModule).outcome = .ok m' ∧ m.table.types = m'.table.types ∧
      m.lowered = some lowered ∧ m'.lowered = some lowered' ∧
      lowered.functions.toList.map Ssa.Function.name = ["func_0", "func_1"] ∧
      lowered.functions[1]? = some g ∧ lowered'.functions[0]? = some { g with body := 0 } := by
  have hlocal : (compile [] localModule).outcome.toOption.map (fun m =>
      (m.table.types, m.table.functions[(m.table.bodyFunction (.ofNat 1)).toNat]?)) =
        some (#[{ results := [.i32] }], some { typeIndex := 0 }) := by decide +kernel
  have himporting : (compile [] importingModule).outcome.toOption.map (fun m =>
      (m.table.types, m.table.functions[(m.table.bodyFunction (.ofNat 0)).toNat]?)) =
        some (#[{ results := [.i32] }], some { typeIndex := 0 }) := by decide +kernel
  have hbodies : moduleBodies localModule =
      [[0x00, 0x41, 0x07, 0x0B], [0x00, 0x41, 0x07, 0x67, 0x0B]] := by decide +kernel
  have hbodies' : moduleBodies importingModule = [[0x00, 0x41, 0x07, 0x67, 0x0B]] := by
    decide +kernel
  cases hm : (compile [] localModule).outcome with
  | error fault => simp [hm, Except.toOption] at hlocal
  | ok m =>
    cases hm' : (compile [] importingModule).outcome with
    | error fault => simp [hm', Except.toOption] at himporting
    | ok m' =>
      simp only [hm, hm', Except.toOption, Option.map_some, Option.some.injEq, Prod.mk.injEq]
        at hlocal himporting
      have types : m.table.types = m'.table.types := hlocal.1.trans himporting.1.symm
      -- The bodies are equal, and so are the indices of their types.
      obtain ⟨lowered, lowered', hlowered, hlowered', hnames, hsame⟩ := compile_modular hm hm' types
      obtain ⟨g, hg, hg'⟩ := hsame 1 0 _ _ [0x00, 0x41, 0x07, 0x67, 0x0B] (by rw [hbodies]; rfl)
        (by rw [hbodies']; rfl) hlocal.2 himporting.2 rfl
      rw [hbodies] at hnames
      exact ⟨m, m', lowered, lowered', g, rfl, rfl, types, hlowered, hlowered',
        hnames.trans (by decide +kernel), hg, hg'⟩

end WasmLowering
