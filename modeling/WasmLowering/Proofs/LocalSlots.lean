import WasmLowering.Proofs.SemanticPreservation
import WasmLowering.Proofs.Soundness
import WasmLowering.Proofs.Reading

/-!
# Slots of parameters and locals

A body declares its locals in runs. The declaration is accepted if all types are known and the
numbers of the runs add up to no more than the limit. The total so far is a word of 32 bits, but it
stays within the limit, so that neither it nor the room that it leaves wraps around, not even for
numbers close to the largest ones. Parameters and locals then have slots in the order of the
parameters and the expanded runs. An index that has no slot is refused when it is read, so that it
does not matter whether the code around it can be reached.

## Key results

- `localRuns_declared`: the declarations that are accepted
- `lowerBody_localIndex`: the fault of an index without a slot
-/

namespace WasmLowering

/-! ## Declarations -/

/-- A run of locals as it is declared: their number, and the code of their type. -/
structure DeclaredRun where
  count : UInt32
  code : UInt8
  deriving Repr, DecidableEq

namespace DeclaredRun

/-- The run, whose type may be unknown. -/
def run (r : DeclaredRun) : LocalRun :=
  { count := r.count, type := .ofCode r.code }

/-- The forms of a run: its number and the code. -/
inductive Form : DeclaredRun → Bytes → Prop where
  | mk {r : DeclaredRun} {number : Bytes} (form : UnsignedForm 32 r.count.toNat number) :
      Form r (number ++ [r.code])

/-- The types of the locals that runs declare. -/
def expand (runs : List DeclaredRun) : List ValueType :=
  runs.flatMap fun r => List.replicate r.count.toNat (.ofCode r.code)

/-- The number of locals that runs declare. -/
def total (runs : List DeclaredRun) : Nat :=
  (runs.map (·.count.toNat)).sum

end DeclaredRun

/-- The forms of a declaration of locals: the runs behind their number. -/
inductive DeclarationForm : List DeclaredRun → Bytes → Prop where
  | mk {runs : List DeclaredRun} {count : Bytes} {parts : List Bytes}
      (number : UnsignedForm 32 runs.length count)
      (each : List.Forall₂ DeclaredRun.Form runs parts) :
      DeclarationForm runs (count ++ parts.flatten)

section Declarations

variable {r : DeclaredRun} {runs : List DeclaredRun} {bytes declaration rest mid : Bytes}
  {parts : List Bytes} {declared : UInt32}

/-- The locals of runs are those that are declared. -/
private theorem expandRuns_run (runs : List DeclaredRun) :
    expandRuns (runs.map DeclaredRun.run) = DeclaredRun.expand runs := by
  rw [expandRuns, List.flatMap_map]
  rfl

/-- The number of locals is the declared one. -/
private theorem declaredLocals_run (runs : List DeclaredRun) :
    declaredLocals (runs.map DeclaredRun.run) = DeclaredRun.total runs := by
  rw [declaredLocals, List.map_map]
  rfl

/-- Every local has the type of some run. -/
theorem DeclaredRun.mem_expand {t : ValueType} (h : t ∈ DeclaredRun.expand runs) :
    ∃ r ∈ runs, t = .ofCode r.code := by
  obtain ⟨r, hr, ht⟩ := List.mem_flatMap.1 h
  exact ⟨r, hr, List.eq_of_mem_replicate ht⟩

/-- A run of a known type has a form. -/
theorem DeclaredRun.Form.localRunForm (h : r.Form bytes)
    (known : (ValueType.ofCode r.code).isKnown = true) : LocalRunForm r.run bytes := by
  cases h with
  | @mk number form =>
    have hcode : r.run.type.code = r.code := ValueType.code_ofCode r.code
    have hform : LocalRunForm r.run (number ++ [r.run.type.code]) := .mk form known
    rwa [hcode] at hform

/-- A run is read only if its type is known and its locals are not too many. -/
private theorem localRun_declared (h : r.Form bytes) {run : LocalRun}
    (hrun : (Decoder.localRun declared).run (bytes ++ rest) = (.ok run, mid)) :
    (ValueType.ofCode r.code).isKnown = true ∧ r.count ≤ UInt32.ofNat maxLocals - declared ∧
      run = r.run ∧ mid = rest := by
  cases h with
  | @mk number form =>
    -- The count, the type, and then the check.
    rw [List.append_assoc] at hrun
    obtain ⟨count, mid₁, hcount, hrest⟩ := Decoder.run_bind_eq_ok.1 hrun
    obtain ⟨heq, rfl⟩ := Prod.mk.inj ((u32_run form).symm.trans hcount)
    obtain rfl := Except.ok.inj heq
    obtain ⟨type, mid₂, htype, hbound⟩ := Decoder.run_bind_eq_ok.1 hrest
    obtain ⟨_, mid₃, hcheck, hpure⟩ := Decoder.run_bind_eq_ok.1 hbound
    obtain ⟨_, hbytes, rfl, known⟩ := Decoder.sound_valueType htype
    obtain ⟨hcode, rfl⟩ := List.cons.inj hbytes
    obtain ⟨few, rfl⟩ := Decoder.check_run hcheck
    obtain ⟨rfl, rfl⟩ := Decoder.pure_run hpure
    have htype : ValueType.ofCode r.code = type := by
      rw [hcode]
      cases type with
      | other code => cases known
      | _ => rfl
    exact ⟨htype ▸ known, by simpa using few, by rw [DeclaredRun.run, htype], rfl⟩

/-- What runs are read if all of them are. The running total is the sum so far. -/
private theorem localRunsFrom_declared (h : List.Forall₂ DeclaredRun.Form runs parts)
    {result : List LocalRun} (few : declared.toNat ≤ maxLocals)
    (hrun : (Decoder.localRunsFrom runs.length declared).run (parts.flatten ++ rest) =
      (.ok result, mid)) :
    (∀ r ∈ runs, (ValueType.ofCode r.code).isKnown = true) ∧
      declared.toNat + DeclaredRun.total runs ≤ maxLocals := by
  induction h generalizing declared result mid with
  | nil => simpa [DeclaredRun.total] using few
  | @cons r bytes runs parts hr hruns ih =>
    rw [List.flatten_cons, List.append_assoc] at hrun
    obtain ⟨run, mid₁, hfirst, hrun⟩ := Decoder.run_bind_eq_ok.1 hrun
    obtain ⟨known, hroom, rfl, rfl⟩ := localRun_declared hr hfirst
    obtain ⟨more, mid₂, hmore, -⟩ := Decoder.run_bind_eq_ok.1 hrun
    -- The running total does not wrap around.
    -- The new total is within the limit too, so it is the sum.
    have few' := (le_room_iff few).1 hroom
    have hsum := toNat_add_of_le_maxLocals few'
    obtain ⟨hknown, htotal⟩ := ih (hsum ▸ few') hmore
    refine ⟨List.forall_mem_cons.2 ⟨known, hknown⟩, ?_⟩
    rw [DeclaredRun.total, List.map_cons, List.sum_cons, ← Nat.add_assoc, ← hsum]
    exact htotal

/-- The declarations that are accepted, and what is read of them. -/
theorem localRuns_declared (h : DeclarationForm runs declaration) {result : List LocalRun} :
    Decoder.localRuns.run (declaration ++ rest) = (.ok result, mid) ↔
      (∀ r ∈ runs, (ValueType.ofCode r.code).isKnown = true) ∧
        DeclaredRun.total runs ≤ maxLocals ∧ result = runs.map DeclaredRun.run ∧ mid = rest := by
  cases h with
  | @mk count parts number each =>
    rw [List.append_assoc]
    -- What is known and not too much is read as it was declared.
    have haccept (known : ∀ r ∈ runs, (ValueType.ofCode r.code).isKnown = true)
        (few : DeclaredRun.total runs ≤ maxLocals) :
        Decoder.localRuns.run (count ++ (parts.flatten ++ rest)) =
          (.ok (runs.map DeclaredRun.run), rest) := by
      refine localRuns_run (by rwa [List.length_map]) ?_ (by rwa [declaredLocals_run])
      rw [List.forall₂_map_left_iff]
      exact ((List.forall₂_and_left _ _).2 ⟨known, each⟩).imp fun r bytes hr =>
        hr.2.localRunForm hr.1
    constructor
    -- The number of runs is read back, and the limit was checked at each of them.
    · intro hrun
      have hlength : (UInt32.ofNat runs.length).toNat = runs.length :=
        UInt32.toNat_ofNat_of_lt' number.lt
      obtain ⟨n, mid₁, hn, hfrom⟩ := Decoder.run_bind_eq_ok.1 hrun
      rw [← hlength] at number
      obtain ⟨heq, rfl⟩ := Prod.mk.inj ((u32_run number).symm.trans hn)
      obtain rfl := Except.ok.inj heq
      rw [hlength] at hfrom
      obtain ⟨known, few⟩ := localRunsFrom_declared each (Nat.zero_le _) hfrom
      rw [UInt32.toNat_zero, Nat.zero_add] at few
      obtain ⟨hresult, hmid⟩ := Prod.mk.inj ((haccept known few).symm.trans hrun)
      exact ⟨known, few, (Except.ok.inj hresult).symm, hmid.symm⟩
    · rintro ⟨known, few, rfl, rfl⟩
      exact haccept known few

/-- What the operators behind a declaration may refer to. -/
def declaredScope (types : Array FuncType) (type : FuncType) (runs : List DeclaredRun) :
    BodyScope :=
  { types, localCount := type.params.length + (DeclaredRun.expand runs).length }

/-- The bodies behind a declaration that can be read. -/
theorem Body.read_declared (h : DeclarationForm runs declaration) {types : Array FuncType}
    {type : FuncType} {code : Bytes} {body : Body} :
    Body.read types type.params (declaration ++ code) = .ok body ↔
      (∀ r ∈ runs, (ValueType.ofCode r.code).isKnown = true) ∧
        DeclaredRun.total runs ≤ maxLocals ∧
        body = { locals := DeclaredRun.expand runs,
                 stream := .read (declaredScope types type runs) 0 0 code } := by
  -- What is read once the declaration is accepted.
  have haccept (hrun : Decoder.localRuns.run (declaration ++ code) =
      (.ok (runs.map DeclaredRun.run), code)) :
      Body.read types type.params (declaration ++ code) = .ok
        { locals := DeclaredRun.expand runs,
          stream := .read (declaredScope types type runs) 0 0 code } := by
    rw [Body.read_eq hrun, bodyScope, expandRuns_run]
    rfl
  constructor
  · intro hread
    -- A body was read, so its declaration was.
    obtain ⟨result, mid, hrun⟩ : ∃ result mid,
        Decoder.localRuns.run (declaration ++ code) = (.ok result, mid) := by
      unfold Body.read at hread
      split at hread
      · cases hread
      · exact ⟨_, _, by assumption⟩
    obtain ⟨known, few, rfl, rfl⟩ := (localRuns_declared h).1 hrun
    exact ⟨known, few, Except.ok.inj (hread.symm.trans (haccept hrun))⟩
  · rintro ⟨known, few, rfl⟩
    exact haccept ((localRuns_declared h).2 ⟨known, few, rfl, rfl⟩)

end Declarations

/-! ## Indices -/

section Indices

variable {scope : BodyScope} {number more : Bytes} {k : UInt32}

/-- An index that has no slot is refused. -/
private theorem localIndex_run_error (form : UnsignedForm 32 k.toNat number)
    (beyond : scope.localCount ≤ k.toNat) :
    (Decoder.localIndex scope).run (number ++ more) = (.error .malformed, more) := by
  refine (Decoder.run_bind_ok (u32_run form)).trans ?_
  refine Decoder.run_bind_eq_error.2 (.inl ?_)
  rw [decide_eq_false (Nat.not_lt.2 beyond)]
  rfl

/-- The operators that refer to a slot, by opcode. -/
def localOpcodes : List UInt8 :=
  [0x20, 0x21, 0x22]

/-- All operators on locals refuse an index without a slot. -/
private theorem operator_localIndex_error {opcode : UInt8} (hopcode : opcode ∈ localOpcodes)
    (form : UnsignedForm 32 k.toNat number) (beyond : scope.localCount ≤ k.toNat) :
    (Decoder.operator scope opcode).run (number ++ more) = (.error .malformed, more) := by
  have hindex := @localIndex_run_error scope number more k form beyond
  simp only [localOpcodes, List.mem_cons, List.not_mem_nil, or_false] at hopcode
  rcases hopcode with rfl | rfl | rfl <;> exact Decoder.run_bind_eq_error.2 (.inl hindex)

/-- A stream stops where an operator cannot be read. -/
private theorem read_stops {depth : Nat} {last opcode : UInt8} {input tail : Bytes} {fault : Fault}
    (h : (Decoder.operator scope opcode).run input = (.error fault, tail)) :
    OperatorStream.read scope depth last (opcode :: input) = ⟨[], some (opcode, fault)⟩ := by
  rw [OperatorStream.read]
  split
  · next fault' tail' heq =>
    obtain ⟨hfault, -⟩ := Prod.mk.inj (h.symm.trans heq)
    rw [Except.error.inj hfault]
  · next heq => simp [h] at heq

end Indices

namespace Lowering

open Ssa Draft

/-! ## Slots -/

/-- The lines that make slots from number `index` on, each with its first value. -/
def slotLines (index : Nat) (slots : List (ScalarType × Operand)) : List Line :=
  (slots.zipIdx index).flatMap fun ((type, first), i) =>
    [.alloca i (.scalar type) (.ofLocal i), .store first i]

section Slots

variable {s t : State} {types : List ValueType} {slots : List (ScalarType × Operand)}

/-- Types with a native counterpart are known. -/
private theorem known_of_scalar {type : ValueType} {scalar : ScalarType}
    (h : type.scalar hostPointerBits = .ok scalar) : type.isKnown = true := by
  cases type with
  | other code => cases h
  | _ => rfl

/-- Lists of types with native counterparts are known. -/
private theorem known_of_mapM {scalars : List ScalarType}
    (h : types.mapM (ValueType.scalar hostPointerBits) = .ok scalars) :
    ∀ type ∈ types, type.isKnown = true := by
  induction types generalizing scalars with
  | nil => simp
  | cons type types ih =>
    obtain ⟨scalar, more, hscalar, hmore, -⟩ := mapM_scalar_cons.1 h
    exact List.forall_mem_cons.2 ⟨known_of_scalar hscalar, ih hmore⟩

/-- There is one native type for each type. -/
private theorem length_mapM {scalars : List ScalarType}
    (h : types.mapM (ValueType.scalar hostPointerBits) = .ok scalars) :
    scalars.length = types.length := by
  induction types generalizing scalars with
  | nil =>
    obtain rfl : [] = scalars := Except.ok.inj h
    rfl
  | cons type types ih =>
    obtain ⟨scalar, more, -, hmore, rfl⟩ := mapM_scalar_cons.1 h
    rw [List.length_cons, List.length_cons, ih hmore]

/-- What making slots adds to the block, if slots are the only numbered values so far. -/
private theorem allotAll_fields (ha : s.draft.Arranged s.waiting)
    (hnext : s.draft.nextValue = s.locals.size) :
    (s.allotAll slots).draft.code s.draft.current =
        s.draft.code s.draft.current ++ slotLines s.locals.size slots ∧
      (s.allotAll slots).locals.toList = s.locals.toList ++
        ((slots.map Prod.fst).zipIdx s.locals.size).map fun (type, i) => ⟨type, i⟩ := by
  induction slots generalizing s with
  | nil => simp [State.allotAll, slotLines]
  | cons slot slots ih =>
    obtain ⟨type, first⟩ := slot
    -- Each slot takes the next number, which is its index.
    have hsize : (s.allotted type first).locals.size = s.locals.size + 1 := Array.size_push _
    have hcode := code_allotted ha type first
    have hlocals : (s.allotted type first).locals.toList =
        s.locals.toList ++ [⟨type, s.draft.nextValue⟩] := Array.toList_push
    obtain ⟨hcodes, hslots⟩ := @ih (s.allotted type first)
      ((ha.skipValue.append _).append _) (hsize.symm ▸ congrArg (· + 1) hnext)
    rw [hsize] at hcodes hslots
    rw [hnext] at hcode hlocals
    constructor
    · refine hcodes.trans ?_
      rw [show (s.allotted type first).draft.current = s.draft.current from rfl, hcode]
      simp [slotLines]
    · refine hslots.trans ?_
      rw [hlocals]
      simp

/-- The number of a slot is its index. -/
private theorem getElem?_allotAll {type : FuncType} {intrinsics : IntrinsicTable} {k : Nat}
    {scalar : ScalarType} (h : (slots.map Prod.fst)[k]? = some scalar) :
    ((State.initial type intrinsics).allotAll slots).locals[k]? = some ⟨scalar, k⟩ := by
  have hd := State.disciplined_initial type intrinsics
  obtain ⟨-, hlocals⟩ := @allotAll_fields (State.initial type intrinsics) slots
    hd.sound.toArranged rfl
  have hempty : (State.initial type intrinsics).locals = #[] := rfl
  rw [← Array.getElem?_toList, hlocals, hempty]
  simp [List.getElem?_zipIdx, h]

end Slots

/-! ## Bodies -/

section Bodies

variable {types : Array FuncType} {type : FuncType} {intrinsics : IntrinsicTable}
  {runs : List DeclaredRun} {declaration code : Bytes} {body : Body} {s u : State}

/-- A declaration is accepted, and its slots can be made, if all types are known and the locals are
    not too many. -/
private theorem exists_start_iff (h : DeclarationForm runs declaration) :
    (∃ body s, Body.read types type.params (declaration ++ code) = .ok body ∧
        State.start type body.locals intrinsics = .ok s) ↔
      (∀ t ∈ type.params, t.isKnown = true) ∧
        (∀ r ∈ runs, (ValueType.ofCode r.code).isKnown = true) ∧
        DeclaredRun.total runs ≤ maxLocals := by
  constructor
  · rintro ⟨body, s, hread, hstart⟩
    obtain ⟨known, few, rfl⟩ := (Body.read_declared h).1 hread
    obtain ⟨params, scalars, hparams, -, -⟩ := start_eq_ok.1 hstart
    exact ⟨known_of_mapM hparams, known, few⟩
  · rintro ⟨hparams, known, few⟩
    obtain ⟨params, hparams⟩ := exists_mapM_scalar (List.all_eq_true.2 hparams)
    -- A run of a known type declares locals of a known type.
    have hlocals : ∀ t ∈ DeclaredRun.expand runs, t.isKnown = true := by
      intro t ht
      obtain ⟨r, hr, rfl⟩ := DeclaredRun.mem_expand ht
      exact known r hr
    obtain ⟨scalars, hscalars⟩ := exists_mapM_scalar (List.all_eq_true.2 hlocals)
    exact ⟨_, _, (Body.read_declared h).2 ⟨known, few, rfl⟩,
      start_eq_ok.2 ⟨params, scalars, hparams, hscalars, rfl⟩⟩

/-- Whether the code can be reached or not, an operator whose index has no slot is a fault. -/
theorem lowerBody_localIndex (h : DeclarationForm runs declaration)
    (hread : Body.read types type.params (declaration ++ code) = .ok body)
    (hstart : State.start type body.locals intrinsics = .ok s) {func : UInt32}
    {ops : List (UInt8 × Operator)} {opcode : UInt8} {k : UInt32} {number more : Bytes}
    (hopcode : opcode ∈ localOpcodes)
    (hreads : Reads (declaredScope types type runs) code ops (opcode :: (number ++ more)))
    (hsteps : s.steps (ops.map Prod.snd) = .ok u) (hphase : u.phase ≠ .finished)
    (form : UnsignedForm 32 k.toNat number)
    (beyond : type.params.length + (DeclaredRun.expand runs).length ≤ k.toNat) :
    lowerBody types func type intrinsics (declaration ++ code) =
      .error (Fault.malformed.within (.inBody func ops.length opcode)) := by
  obtain ⟨-, -, rfl⟩ := (Body.read_declared h).1 hread
  -- The function is still open here, so that the stream goes on with the operator.
  obtain ⟨-, live, -, hnone, -, -⟩ := start_moves hstart
  have hdepth := (steps_depth (by simp [live]) hsteps).1
  rw [State.depth_of_live live, hnone, List.length_nil] at hdepth
  obtain ⟨depth, hdepth'⟩ := Option.ne_none_iff_exists'.1 (mt State.depth_eq_none.1 hphase)
  obtain ⟨last, hstream⟩ := read_of_reads hreads (hdepth.symm.trans hdepth') 0
  rw [read_stops (operator_localIndex_error hopcode form beyond), List.append_nil] at hstream
  have hrun : s.run func 0 ops = .ok u := run_eq_ok.2 hsteps
  rw [lowerBody, hread]
  show (inContext _ (State.start type (DeclaredRun.expand runs) intrinsics) >>= _) = _
  rw [hstart]
  show s.runStream func (.read (declaredScope types type runs) 0 0 code) = _
  rw [hstream, State.runStream, hrun]
  rfl

/-- The entry block of a function keeps its lines, behind the slots of returned structures. -/
theorem Boundary.entry {input : Bytes} {done : List Operator} {index : Nat} {func : UInt32}
    {table : IntrinsicTable} {f : Ssa.Function}
    (h : lowerFunction types index func type intrinsics input = .ok (f, table))
    (hs : Boundary types type intrinsics input done s) :
    ∃ b ∈ f.blocks, b.label = entryLabel ∧
      ∃ front back, b.lines.toList = front ++ s.draft.code entryLabel ++ back ∧
        ∀ line ∈ front, line.isReturnSlot = true := by
  obtain ⟨hm, hf⟩ := hs.moves
  have hd := hs.disciplined
  obtain ⟨rest, last, hlast, hsteps, hblocks⟩ := hs.last h
  -- Later operators add lines behind these, and slots of returned structures before.
  obtain ⟨front, back, hcode, -, hfront, -⟩ :=
    Moves.extended (steps_moves hf hsteps) hd hd.sound.entry_mem hd.sound.entry_placed
  have hl : Lowered f last := by
    obtain ⟨_, start, -, hstart, -, hall⟩ := hlast
    exact lowered_of_steps hstart hall hblocks
  obtain ⟨b, blocks, hfirst, hlabel, hlines⟩ := hl.first_block hlast.moves.1
  exact ⟨b, hfirst ▸ List.mem_cons_self, hlabel, front, back, hlines.trans hcode, hfront⟩

/-- A declaration of locals is accepted exactly if all types are known and the numbers of its runs
    add up to no more than the limit. The entry block then makes the slots of the parameters, which
    get the arguments, and those of the expanded runs, which get zero, and nothing else is before
    them in the function than slots of returned structures. The operators on locals refer to the
    slot with the number of their index, and an index without a slot is malformed, also in code that
    cannot be reached. -/
theorem slots_follow_declaration (h : DeclarationForm runs declaration) :
    ((∃ body s, Body.read types type.params (declaration ++ code) = .ok body ∧
        State.start type body.locals intrinsics = .ok s) ↔
      (∀ t ∈ type.params, t.isKnown = true) ∧
        (∀ r ∈ runs, (ValueType.ofCode r.code).isKnown = true) ∧
        DeclaredRun.total runs ≤ 50000) ∧
    ∀ body s, Body.read types type.params (declaration ++ code) = .ok body →
      State.start type body.locals intrinsics = .ok s →
      ∃ params locals, type.params.mapM (ValueType.scalar hostPointerBits) = .ok params ∧
        (DeclaredRun.expand runs).mapM (ValueType.scalar hostPointerBits) = .ok locals ∧
        s.draft.code entryLabel = slotLines 0 (argSlots 0 params ++ zeroSlots locals) ∧
        (∀ index func f table,
          lowerFunction types index func type intrinsics (declaration ++ code) = .ok (f, table) →
          ∃ b ∈ f.blocks, b.label = entryLabel ∧
            ∃ front back, b.lines.toList =
                front ++ slotLines 0 (argSlots 0 params ++ zeroSlots locals) ++ back ∧
              ∀ line ∈ front, line.isReturnSlot = true) ∧
        (∀ ops u (k : UInt32) scalar, s.steps ops = .ok u → u.phase = .live →
          (params ++ locals)[k.toNat]? = some scalar →
          u.step (.localGet k) = .ok (u.computePush (.load scalar k.toNat)) ∧
          u.step (.localSet k) = u.pop.map (fun p => p.2.append (.store p.1 k.toNat)) ∧
          u.step (.localTee k) = u.peek.map (fun v => u.append (.store v k.toNat))) ∧
        ∀ func ops u opcode (k : UInt32) number more, opcode ∈ localOpcodes →
          Reads (declaredScope types type runs) code ops (opcode :: (number ++ more)) →
          s.steps (ops.map Prod.snd) = .ok u → u.phase ≠ .finished →
          UnsignedForm 32 k.toNat number → (params ++ locals).length ≤ k.toNat →
          lowerBody types func type intrinsics (declaration ++ code) =
            .error (Fault.malformed.within (.inBody func ops.length opcode)) := by
  refine ⟨exists_start_iff h, fun body s hread hstart => ?_⟩
  obtain ⟨params, locals, hparams, hlocals, hs⟩ := start_eq_ok.1 hstart
  have hexpand : body.locals = DeclaredRun.expand runs := by
    obtain ⟨-, -, rfl⟩ := (Body.read_declared h).1 hread
    rfl
  rw [hexpand] at hlocals
  have hcode : s.draft.code entryLabel = slotLines 0 (argSlots 0 params ++ zeroSlots locals) := by
    have hd := State.disciplined_initial type intrinsics
    rw [hs]
    exact (@allotAll_fields (State.initial type intrinsics) _ hd.sound.toArranged rfl).1
  refine ⟨params, locals, hparams, hlocals, hcode, fun index func f table hf => ?_,
    fun ops u k scalar hsteps live hk => ?_,
    fun func ops u opcode k number more hopcode hreads hsteps hphase form beyond => ?_⟩
  -- In the finished function, only slots for results stand before those of the locals.
  · rw [← hcode]
    exact Boundary.entry hf ⟨body, s, hread, hstart, List.nil_prefix, rfl⟩
  -- A local has the slot with its number.
  · have hslot : u.locals[k.toNat]? = some ⟨scalar, k.toNat⟩ := by
      rw [steps_locals hsteps, hs]
      refine getElem?_allotAll ?_
      rwa [List.map_append, map_fst_argSlots, map_fst_zeroSlots]
    simp only [State.step, live, State.lower, State.localGet, State.localSet, State.localTee, hslot]
    exact ⟨trivial, by cases u.pop <;> rfl, by cases u.peek <;> rfl⟩
  -- As many locals are in scope while the operators are read.
  · rw [List.length_append, length_mapM hparams, length_mapM hlocals] at beyond
    exact lowerBody_localIndex h hread hstart hopcode hreads hsteps hphase form beyond

/-- Three runs, the first of them empty and with numbers that are not of the shortest form, behind a
    parameter. In code that cannot be reached, the index behind the last slot is refused. Numbers
    whose sum is a multiple of `2 ^ 32` are too many. -/
theorem slots_follow_declaration_runs :
    DeclarationForm [⟨0, 0x7D⟩, ⟨2, 0x7B⟩, ⟨1, 0x70⟩]
        [0x83, 0x00, 0x00, 0x7D, 0x82, 0x00, 0x7B, 0x01, 0x70] ∧
      (∃ body s, Body.read #[] [.i32] ([0x83, 0x00, 0x00, 0x7D, 0x82, 0x00, 0x7B, 0x01, 0x70] ++
            [0x00, 0x22, 0x04, 0x0B]) = .ok body ∧
        State.start { params := [.i32] } body.locals {} = .ok s ∧
        s.draft.code entryLabel =
          [.alloca 0 (.scalar (.int 32)) (.ofLocal 0), .store (.arg 0 (.int 32)) 0,
            .alloca 1 (.scalar (.int 128)) (.ofLocal 1), .store (.int 128 0) 1,
            .alloca 2 (.scalar (.int 128)) (.ofLocal 2), .store (.int 128 0) 2,
            .alloca 3 (.scalar (.int 64)) (.ofLocal 3), .store (.int 64 0) 3] ∧
        s.step (.localGet 2) = .ok (s.computePush (.load (.int 128) 2)) ∧
        lowerBody #[] 7 { params := [.i32] } {}
            ([0x83, 0x00, 0x00, 0x7D, 0x82, 0x00, 0x7B, 0x01, 0x70] ++ [0x00, 0x22, 0x04, 0x0B]) =
          .error (Fault.malformed.within (.inBody 7 1 0x22))) ∧
      DeclarationForm [⟨0xFFFFFFFF, 0x7F⟩, ⟨1, 0x7F⟩]
        [0x02, 0xFF, 0xFF, 0xFF, 0xFF, 0x0F, 0x7F, 0x01, 0x7F] ∧
      ¬ ∃ body s, Body.read #[] [] ([0x02, 0xFF, 0xFF, 0xFF, 0xFF, 0x0F, 0x7F, 0x01, 0x7F] ++
            [0x0B]) = .ok body ∧ State.start {} body.locals {} = .ok s := by
  have hthree : UnsignedForm 32 3 [0x83, 0x00] :=
    .more 0x83 (by decide) (by decide) (.last 0 (by decide) (by decide))
  have htwo : UnsignedForm 32 2 [0x82, 0x00] :=
    .more 0x82 (by decide) (by decide) (.last 0 (by decide) (by decide))
  have hform : DeclarationForm [⟨0, 0x7D⟩, ⟨2, 0x7B⟩, ⟨1, 0x70⟩]
      [0x83, 0x00, 0x00, 0x7D, 0x82, 0x00, 0x7B, 0x01, 0x70] :=
    @DeclarationForm.mk [⟨0, 0x7D⟩, ⟨2, 0x7B⟩, ⟨1, 0x70⟩] _ _ hthree
      (.cons (@DeclaredRun.Form.mk ⟨0, 0x7D⟩ [0x00] (.last 0 (by decide) (by decide)))
        (.cons (@DeclaredRun.Form.mk ⟨2, 0x7B⟩ _ htwo)
          (.cons (@DeclaredRun.Form.mk ⟨1, 0x70⟩ [0x01] (.last 1 (by decide) (by decide))) .nil)))
  have hlarge : DeclarationForm [⟨0xFFFFFFFF, 0x7F⟩, ⟨1, 0x7F⟩]
      [0x02, 0xFF, 0xFF, 0xFF, 0xFF, 0x0F, 0x7F, 0x01, 0x7F] := by
    have hnumber : UnsignedForm 32 4294967295 [0xFF, 0xFF, 0xFF, 0xFF, 0x0F] :=
      .more 0xFF (by decide) (by decide) <| .more 0xFF (by decide) (by decide) <|
        .more 0xFF (by decide) (by decide) <| .more 0xFF (by decide) (by decide) <|
          .last 0x0F (by decide) (by decide)
    exact @DeclarationForm.mk _ [0x02] _ (.last 2 (by decide) (by decide))
      (.cons (@DeclaredRun.Form.mk ⟨0xFFFFFFFF, 0x7F⟩ _ hnumber)
        (.cons (@DeclaredRun.Form.mk ⟨1, 0x7F⟩ [0x01] (.last 1 (by decide) (by decide))) .nil))
  obtain ⟨hiff, hslots⟩ := @slots_follow_declaration #[] { params := [.i32] } {} _ _
    [0x00, 0x22, 0x04, 0x0B] hform
  obtain ⟨body, s, hread, hstart⟩ := hiff.2 (by decide)
  obtain ⟨params, locals, hparams, hlocals, hcode, -, hsteps, hbeyond⟩ := hslots body s hread hstart
  obtain rfl : [ScalarType.int 32] = params := Except.ok.inj hparams
  obtain rfl : [ScalarType.int 128, .int 128, .int 64] = locals := Except.ok.inj hlocals
  obtain ⟨-, live, -, hnone, -, -⟩ := start_moves hstart
  refine ⟨hform, ⟨body, s, hread, hstart, hcode, (hsteps [] s 2 _ rfl live rfl).1, ?_⟩, hlarge, ?_⟩
  -- The index is checked although the code is dead.
  · have hreads : Reads (declaredScope #[] { params := [.i32] }
        [⟨0, 0x7D⟩, ⟨2, 0x7B⟩, ⟨1, 0x70⟩]) [0x00, 0x22, 0x04, 0x0B] [(0x00, .unreachable)]
        (0x22 :: ([0x04] ++ [0x0B])) := .cons rfl (.nil _)
    have hbase : s.base = 0 := by rw [State.base, hnone]
    have hdead : (s.append .unreachable).enterDead = .ok _ :=
      enterDead_eq_ok.2 ⟨hbase.trans_le (Nat.zero_le _), rfl⟩
    have hstep : s.step .unreachable = (s.append .unreachable).enterDead := by
      rw [State.step, live]
      rfl
    exact hbeyond 7 [(0x00, .unreachable)] _ 0x22 4 [0x04] [0x0B] (by decide) hreads
      (steps_cons.2 ⟨_, hstep.trans hdead, rfl⟩) (fun h => by cases h)
      (.last 4 (by decide) (by decide)) (by decide)
  -- The sum of the numbers does not wrap.
  · intro hsome
    obtain ⟨-, -, hfew⟩ := (@slots_follow_declaration #[] {} {} _ _ [0x0B] hlarge).1.1 hsome
    exact absurd hfew (by decide)

end Bodies

end Lowering

end WasmLowering
