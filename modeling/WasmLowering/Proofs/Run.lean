import WasmLowering.Proofs.Moves

/-!
# Runs of the lowering

A body is lowered by making the slots and then taking one step for each operator. A boundary is a
state between two operators of a body. Every boundary is reached from the empty state by moves, so
what the empty state has and every move keeps holds at every boundary.

## Key results

- `Move.framed`: the heights of the open constructs stay in order
- `start_eq_ok`: the slots that are made before the first operator
- `step_moves`, `steps_moves`, `start_moves`: every operator and every run is a sequence of moves
- `lowerFunction_eq_ok`: a function is lowered by a run over all its operators
- `Boundary.moves`: every boundary is reached by moves
-/

namespace WasmLowering.Lowering

open Ssa

/-! ## Heights -/

/-- The stack is as high as the innermost construct says at least, and no construct starts below one
    that encloses it. -/
structure State.Framed (s : State) : Prop where
  height : s.base ≤ s.stack.size
  nested : (s.constructs.map Construct.base).Pairwise (· ≥ ·)

section Framed

variable {s t : State}

/-- No open construct starts above the base. -/
theorem State.Framed.base_le (hf : s.Framed) {c : Construct} (hc : c ∈ s.constructs) :
    c.base ≤ s.base := by
  have hn := hf.nested
  unfold State.base
  cases htop : s.constructs with
  | nil => simp [htop] at hc
  | cons c' rest =>
    rw [htop] at hc hn
    -- The constructs below the innermost one have no larger base.
    rw [List.map_cons, List.pairwise_cons] at hn
    obtain rfl | hc := List.mem_cons.1 hc
    · exact Nat.le_refl _
    · exact hn.1 _ (List.mem_map_of_mem hc)

/-- A construct may be opened anywhere between the base and the top of the stack. -/
theorem State.Framed.cons (hf : s.Framed) {c : Construct} (hb : s.base ≤ c.base) :
    ((c :: s.constructs).map Construct.base).Pairwise (· ≥ ·) := by
  rw [List.map_cons, List.pairwise_cons]
  refine ⟨fun b hm => ?_, hf.nested⟩
  obtain ⟨c', hc', rfl⟩ := List.mem_map.1 hm
  exact Nat.le_trans (hf.base_le hc') hb

/-- The constructs around the innermost one. -/
theorem State.Framed.rest (hf : s.Framed) {c : Construct} {rest : List Construct}
    (htop : s.constructs = c :: rest) :
    (rest.map Construct.base).Pairwise (· ≥ ·) ∧ ∀ c' ∈ rest, c'.base ≤ c.base := by
  have hn := hf.nested
  rw [htop, List.map_cons, List.pairwise_cons] at hn
  exact ⟨hn.2, fun c' hc' => hn.1 _ (List.mem_map_of_mem hc')⟩

/-- A move keeps the heights in order. -/
theorem Move.framed (hm : Move s t) (hf : s.Framed) : t.Framed := by
  -- Most moves leave the stack and the constructs alone, and are in the last case.
  have hb := hf.height
  cases hm with
  | compute live operands slots =>
    refine ⟨?_, hf.nested⟩
    rw [State.base_computePush, State.stack_computePush, Array.size_push]
    omega
  | restack base below held => exact ⟨base, hf.nested⟩
  | block live arity =>
    refine ⟨Nat.sub_le .., hf.cons ?_⟩
    show s.base ≤ s.stack.size - _
    omega
  | loop live base => exact ⟨Nat.le_refl _, hf.cons base⟩
  | @fork xs condition params types live stack base arity =>
    refine ⟨Nat.sub_le .., hf.cons ?_⟩
    show s.base ≤ xs.size - params
    omega
  | guard live stack base => exact ⟨base, hf.nested⟩
  -- The stack is cut to the base of the conditional before the parameters are put back.
  | @alternate depth c rest other params dead top kind base =>
    refine ⟨?_, ?_⟩
    · show c.base ≤ (s.stack.take c.base ++ params).size
      simp only [Array.take_eq_extract, Array.size_append, Array.size_extract]
      omega
    · have := hf.nested
      rw [top] at this
      exact this
  | @leave depth c rest dead top kind base =>
    obtain ⟨hn, hle⟩ := hf.rest top
    refine ⟨?_, hn⟩
    -- The construct outside begins at or below the one that is left.
    have hrest : (s.left c rest).base ≤ c.base := by
      cases rest with
      | nil => exact Nat.zero_le _
      | cons c' rest => exact hle _ List.mem_cons_self
    refine Nat.le_trans hrest ?_
    show c.base ≤ (s.stack.take c.base ++ s.resultsAfter c).size
    rw [← Array.length_toList, Array.toList_appendList, List.length_append, Array.length_toList,
      Array.take_eq_extract, Array.size_extract]
    omega
  | _ => exact ⟨hb, hf.nested⟩

/-- What is below an open construct stays there. -/
theorem Move.below (hm : Move s t) (hf : s.Framed) {c : Construct} (hc : c ∈ s.constructs) :
    t.stack.toList.take c.base = s.stack.toList.take c.base := by
  have hle := hf.base_le hc
  have hheight := hf.height
  cases hm with
  | compute live operands slots =>
    rw [State.stack_computePush, Array.toList_push, List.take_append_of_le_length]
    rw [Array.length_toList]
    omega
  | @restack xs base below held =>
    have := congrArg (List.take c.base) below
    rwa [List.take_take, List.take_take, Nat.min_eq_left hle] at this
  | @fork xs condition params types live stack base arity =>
    rw [stack, Array.toList_push, List.take_append_of_le_length]
    · rfl
    · rw [Array.length_toList]
      omega
  | @guard xs condition live stack base =>
    rw [stack, Array.toList_push, List.take_append_of_le_length]
    · rfl
    · rw [Array.length_toList]
      omega
  | @alternate depth c' rest other params dead top kind base =>
    -- The stack is cut where the innermost construct begins, which is at or above this one.
    have hle' : c.base ≤ c'.base := by
      rw [State.base, top] at hle
      exact hle
    show (s.stack.take c'.base ++ params).toList.take c.base = _
    simp [List.take_append_of_le_length, List.take_take, hle', Nat.le_trans hle' base]
  | @leave depth c' rest dead top kind base =>
    have hle' : c.base ≤ c'.base := by
      rw [State.base, top] at hle
      exact hle
    show (s.stack.take c'.base ++ s.resultsAfter c').toList.take c.base = _
    rw [Array.toList_appendList]
    simp [List.take_append_of_le_length, List.take_take, hle', Nat.le_trans hle' base]
  | _ => rfl

/-- A sequence of moves keeps the heights in order. -/
theorem Moves.framed (hm : Moves s t) (hf : s.Framed) : t.Framed := by
  induction hm with
  | refl => exact hf
  | tail _ hm ih => exact hm.framed ih

end Framed

/-! ## Steps -/

section Steps

variable {s t u : State}

/-- An operator is a sequence of moves. -/
theorem step_moves {op : Operator} (hf : s.Framed) (h : s.step op = .ok t) : Moves s t := by
  unfold State.step at h
  split at h
  · next live => exact lower_moves live hf.height h
  · next depth dead => exact skip_moves dead h
  · obtain rfl := Except.ok.inj h
    exact .refl

/-- The state after a list of operators. -/
def State.steps (s : State) (ops : List Operator) : Except Fault State :=
  ops.foldlM State.step s

@[simp] theorem steps_nil : s.steps [] = .ok s := rfl

theorem steps_cons {op : Operator} {ops : List Operator} :
    s.steps (op :: ops) = .ok t ↔ ∃ u, s.step op = .ok u ∧ u.steps ops = .ok t :=
  bind_eq_ok

/-- A run over two lists of operators is a run over each. -/
theorem steps_append {xs ys : List Operator} :
    s.steps (xs ++ ys) = .ok t ↔ ∃ u, s.steps xs = .ok u ∧ u.steps ys = .ok t := by
  unfold State.steps
  rw [List.foldlM_append, bind_eq_ok]

/-- A run is a sequence of moves. -/
theorem steps_moves {ops : List Operator} (hf : s.Framed) (h : s.steps ops = .ok t) :
    Moves s t := by
  induction ops generalizing s with
  | nil =>
    obtain rfl := Except.ok.inj h
    exact .refl
  | cons op ops ih =>
    obtain ⟨u, hu, h⟩ := steps_cons.1 h
    have hm := step_moves hf hu
    exact hm.trans (ih (hm.framed hf) h)

/-- Running the operators of a stream takes one step for each. -/
theorem run_eq_ok {func : UInt32} {completed : Nat} {ops : List (UInt8 × Operator)} :
    s.run func completed ops = .ok t ↔ s.steps (ops.map Prod.snd) = .ok t := by
  induction ops generalizing s completed with
  | nil => rfl
  -- The opcode and the function only say where a fault is.
  | cons entry ops ih =>
    obtain ⟨opcode, op⟩ := entry
    rw [List.map_cons, steps_cons]
    unfold State.run
    rw [bind_eq_ok]
    exact exists_congr fun u => and_congr inContext_eq_ok ih

end Steps

/-! ## Slots -/

/-- The state before the slots are made. -/
def State.initial (type : FuncType) (intrinsics : IntrinsicTable) : State :=
  { results := type.results, intrinsics }

/-- Makes a number of slots, each with its first value. -/
def State.allotAll (s : State) : List (ScalarType × Operand) → State
  | [] => s
  | (type, first) :: slots => (s.allotted type first).allotAll slots

/-- The slots of parameters from number `index` on, which get the arguments. -/
def argSlots (index : Nat) (types : List ScalarType) : List (ScalarType × Operand) :=
  (types.zipIdx index).map fun (type, i) => (type, .arg i type)

/-- The slots of locals, which get zero. -/
def zeroSlots (types : List ScalarType) : List (ScalarType × Operand) :=
  types.map fun type => (type, type.zero)

section Start

variable {s t : State} {types : List ValueType} {slots : List (ScalarType × Operand)}

theorem State.framed_initial (type : FuncType) (intrinsics : IntrinsicTable) :
    (State.initial type intrinsics).Framed :=
  ⟨Nat.le_refl _, List.Pairwise.nil⟩

/-- Slots are made one after the other. -/
theorem State.allotAll_append (s : State) (slots later : List (ScalarType × Operand)) :
    s.allotAll (slots ++ later) = (s.allotAll slots).allotAll later := by
  induction slots generalizing s with
  | nil => rfl
  | cons slot slots ih => exact ih _

theorem map_fst_argSlots (index : Nat) (scalars : List ScalarType) :
    (argSlots index scalars).map Prod.fst = scalars := by
  simp [argSlots, Function.comp_def]

theorem map_fst_zeroSlots (scalars : List ScalarType) :
    (zeroSlots scalars).map Prod.fst = scalars := by
  simp [zeroSlots, Function.comp_def]

/-- The first values of slots are not computed. -/
theorem ids_slots (params scalars : List ScalarType) :
    ∀ slot ∈ argSlots 0 params ++ zeroSlots scalars, slot.2.ids = [] := by
  intro slot hslot
  obtain hslot | hslot := List.mem_append.1 hslot
  · obtain ⟨⟨type, i⟩, -, rfl⟩ := List.mem_map.1 hslot
    rfl
  · obtain ⟨type, -, rfl⟩ := List.mem_map.1 hslot
    exact ScalarType.ids_zero type

/-- Types have native counterparts if each of them has one. -/
theorem mapM_scalar_cons {type : ValueType} {scalars : List ScalarType} :
    (type :: types).mapM (ValueType.scalar hostPointerBits) = .ok scalars ↔
      ∃ scalar more, type.scalar hostPointerBits = .ok scalar ∧
        types.mapM (ValueType.scalar hostPointerBits) = .ok more ∧ scalars = scalar :: more := by
  rw [List.mapM_cons, bind_eq_ok]
  refine exists_congr fun scalar => ?_
  rw [bind_eq_ok]
  constructor
  · rintro ⟨hscalar, more, hmore, h⟩
    exact ⟨more, hscalar, hmore, (Except.ok.inj h).symm⟩
  · rintro ⟨more, hscalar, hmore, rfl⟩
    exact ⟨hscalar, more, hmore, rfl⟩

private theorem addLocal_eq_ok {type : ValueType} {first : ScalarType → Operand} :
    s.addLocal type first = .ok t ↔
      ∃ scalar, type.scalar hostPointerBits = .ok scalar ∧
        t = s.allotted scalar (first scalar) := by
  unfold State.addLocal
  rw [bind_eq_ok]
  refine exists_congr fun scalar => and_congr_right fun _ => ?_
  exact ⟨fun h => (Except.ok.inj h).symm, fun h => h ▸ rfl⟩

/-- A recursion that makes a slot for each type succeeds if all types have native counterparts. -/
private theorem addAll_eq_ok {add : Nat → State → List ValueType → Except Fault State}
    {first : Nat → ScalarType → Operand} (hnil : ∀ i s, add i s [] = .ok s)
    (hcons : ∀ i s type types,
      add i s (type :: types) = s.addLocal type (first i) >>= fun u => add (i + 1) u types)
    {index : Nat} :
    add index s types = .ok t ↔
      ∃ scalars, types.mapM (ValueType.scalar hostPointerBits) = .ok scalars ∧
        t = s.allotAll ((scalars.zipIdx index).map fun p => (p.1, first p.2 p.1)) := by
  induction types generalizing s index with
  | nil =>
    rw [hnil]
    constructor
    · intro h
      exact ⟨[], rfl, (Except.ok.inj h).symm⟩
    · rintro ⟨scalars, hscalars, rfl⟩
      obtain rfl : [] = scalars := Except.ok.inj hscalars
      rfl
  | cons type types ih =>
    rw [hcons, bind_eq_ok]
    simp only [addLocal_eq_ok, ih, mapM_scalar_cons]
    constructor
    · rintro ⟨u, ⟨scalar, hscalar, rfl⟩, more, hmore, rfl⟩
      exact ⟨scalar :: more, ⟨scalar, more, hscalar, hmore, rfl⟩, rfl⟩
    · rintro ⟨_, ⟨scalar, more, hscalar, hmore, rfl⟩, rfl⟩
      exact ⟨_, ⟨scalar, hscalar, rfl⟩, more, hmore, rfl⟩

private theorem addParams_eq_ok {index : Nat} :
    s.addParams index types = .ok t ↔
      ∃ scalars, types.mapM (ValueType.scalar hostPointerBits) = .ok scalars ∧
        t = s.allotAll (argSlots index scalars) :=
  @addAll_eq_ok s t types (fun i s types => s.addParams i types) Operand.arg (fun _ _ => rfl)
    (fun _ _ _ _ => rfl) index

/-- The locals get slots if all of them have native types. -/
private theorem addLocals_eq_ok :
    s.addLocals types = .ok t ↔
      ∃ scalars, types.mapM (ValueType.scalar hostPointerBits) = .ok scalars ∧
        t = s.allotAll (zeroSlots scalars) := by
  -- The number of a local has no part in its first value.
  have hzeros : ∀ scalars : List ScalarType,
      (scalars.zipIdx 0).map (fun p => (p.1, p.1.zero)) = zeroSlots scalars := by
    intro scalars
    rw [zeroSlots, ← List.zipIdx_map_fst 0 scalars, List.map_map, List.zipIdx_map_fst]
    rfl
  simp only [← hzeros]
  exact @addAll_eq_ok s t types (fun _ s types => s.addLocals types) (fun _ => ScalarType.zero)
    (fun _ _ => rfl) (fun _ _ _ _ => rfl) 0

/-- The slots of a function are those of its parameters, then those of its locals. -/
theorem start_eq_ok {type : FuncType} {locals : List ValueType} {intrinsics : IntrinsicTable} :
    State.start type locals intrinsics = .ok s ↔
      ∃ params scalars, type.params.mapM (ValueType.scalar hostPointerBits) = .ok params ∧
        locals.mapM (ValueType.scalar hostPointerBits) = .ok scalars ∧
        s = (State.initial type intrinsics).allotAll (argSlots 0 params ++ zeroSlots scalars) := by
  unfold State.start
  simp only [bind_eq_ok, addParams_eq_ok, addLocals_eq_ok, State.allotAll_append]
  constructor
  · rintro ⟨u, ⟨params, hparams, rfl⟩, scalars, hscalars, rfl⟩
    exact ⟨params, scalars, hparams, hscalars, rfl⟩
  · rintro ⟨params, scalars, hparams, hscalars, rfl⟩
    exact ⟨_, ⟨params, hparams, rfl⟩, scalars, hscalars, rfl⟩

/-- Making slots is a sequence of moves that stays in the entry block. -/
theorem moves_allotAll (live : s.phase = .live) (entry : s.draft.current = Draft.entryLabel)
    (constant : ∀ slot ∈ slots, slot.2.ids = []) :
    Moves s (s.allotAll slots) ∧ (s.allotAll slots).phase = .live ∧
      (s.allotAll slots).draft.current = Draft.entryLabel ∧
      (s.allotAll slots).constructs = s.constructs ∧ (s.allotAll slots).stack = s.stack ∧
      (s.allotAll slots).results = s.results := by
  induction slots generalizing s with
  | nil => exact ⟨.refl, live, entry, rfl, rfl, rfl⟩
  | cons slot slots ih =>
    -- Each slot is one move, after which the state is as before but for the slot.
    obtain ⟨type, first⟩ := slot
    obtain ⟨hfirst, hlater⟩ := List.forall_mem_cons.1 constant
    obtain ⟨hm, hrest⟩ := @ih (s.allotted type first) live entry hlater
    exact ⟨.head (.slot live entry hfirst type) hm, hrest⟩

/-- Making the slots is a sequence of moves, after which nothing is on the stack. -/
theorem start_moves {type : FuncType} {locals : List ValueType} {intrinsics : IntrinsicTable}
    (h : State.start type locals intrinsics = .ok s) :
    Moves (State.initial type intrinsics) s ∧ s.phase = .live ∧
      s.draft.current = Draft.entryLabel ∧ s.constructs = [] ∧ s.stack = #[] ∧
      s.results = type.results := by
  obtain ⟨params, scalars, -, -, rfl⟩ := start_eq_ok.1 h
  exact moves_allotAll rfl rfl (ids_slots params scalars)

end Start

/-! ## Functions -/

/-- A function is lowered by making its slots and running over all its operators, which have to come
    to an end. -/
theorem lowerFunction_eq_ok {types : Array FuncType} {index : Nat} {func : UInt32} {type : FuncType}
    {intrinsics table : IntrinsicTable} {input : Bytes} {f : Ssa.Function} :
    lowerFunction types index func type intrinsics input = .ok (f, table) ↔
      ∃ signature body start s, type.signature hostPointerBits = .ok signature ∧
        Body.read types type.params input = .ok body ∧
        State.start type body.locals intrinsics = .ok start ∧
        start.steps (body.stream.operators.map Prod.snd) = .ok s ∧ body.stream.stop = none ∧
        f = { body := index, signature, blocks := s.draft.finish } ∧ table = s.intrinsics := by
  -- A stream runs to its end if every operator does and nothing stopped the reading.
  have hstream : ∀ (start : State) (stream : OperatorStream) (s : State),
      start.runStream func stream = .ok s ↔
        start.steps (stream.operators.map Prod.snd) = .ok s ∧ stream.stop = none := by
    intro start stream s
    unfold State.runStream
    rw [bind_eq_ok]
    cases hstop : stream.stop with
    | none =>
      constructor
      · intro ⟨u, hu, h⟩
        obtain rfl := Except.ok.inj h
        exact ⟨run_eq_ok.1 hu, rfl⟩
      · intro ⟨h, _⟩
        exact ⟨s, run_eq_ok.2 h, rfl⟩
    | some stop => simp
  unfold lowerFunction lowerBody
  simp only [bind_eq_ok, inContext_eq_ok, hstream]
  constructor
  · intro ⟨signature, hsig, s, ⟨body, hbody, start, hstart, hs, hstop⟩, h⟩
    obtain ⟨rfl, rfl⟩ := Prod.mk.inj (Except.ok.inj h)
    exact ⟨signature, body, start, s, hsig, hbody, hstart, hs, hstop, rfl, rfl⟩
  · intro ⟨signature, body, start, s, hsig, hbody, hstart, hs, hstop, hf, ht⟩
    refine ⟨signature, hsig, s, ⟨body, hbody, start, hstart, hs, hstop⟩, ?_⟩
    rw [hf, ht]
    rfl

/-- The state `s` of lowering a body between two of its operators, after those of the list
    `done`. -/
def Boundary (types : Array FuncType) (type : FuncType) (intrinsics : IntrinsicTable)
    (input : Bytes) (done : List Operator) (s : State) : Prop :=
  ∃ body start, Body.read types type.params input = .ok body ∧
    State.start type body.locals intrinsics = .ok start ∧
    done <+: body.stream.operators.map Prod.snd ∧ start.steps done = .ok s

section Boundary

variable {types : Array FuncType} {type : FuncType} {intrinsics : IntrinsicTable} {input : Bytes}

theorem Boundary.of_steps {body : Body} {start s : State}
    (hbody : Body.read types type.params input = .ok body)
    (hstart : State.start type body.locals intrinsics = .ok start)
    (h : start.steps (body.stream.operators.map Prod.snd) = .ok s) :
    Boundary types type intrinsics input (body.stream.operators.map Prod.snd) s :=
  ⟨body, start, hbody, hstart, List.prefix_rfl, h⟩

/-- Every boundary is reached from the empty state by moves. -/
theorem Boundary.moves {done : List Operator} {s : State}
    (h : Boundary types type intrinsics input done s) :
    Moves (State.initial type intrinsics) s ∧ s.Framed := by
  -- The slots are made by moves, and the operators are run by moves.
  obtain ⟨body, start, -, hstart, -, hs⟩ := h
  have hm := (start_moves hstart).1
  have hf := Moves.framed hm (State.framed_initial ..)
  have hm' := steps_moves hf hs
  exact ⟨hm.trans hm', Moves.framed hm' hf⟩

/-- From one boundary to a later one, the operators in between are run. -/
theorem Boundary.steps {done more : List Operator} {s t : State}
    (hs : Boundary types type intrinsics input done s)
    (ht : Boundary types type intrinsics input (done ++ more) t) : s.steps more = .ok t := by
  obtain ⟨body, start, hbody, hstart, -, hs⟩ := hs
  obtain ⟨body', start', hbody', hstart', -, ht⟩ := ht
  -- Both boundaries belong to the one body that the input is read as, and to its one start.
  obtain rfl := Except.ok.inj (hbody.symm.trans hbody')
  obtain rfl := Except.ok.inj (hstart.symm.trans hstart')
  obtain ⟨u, hu, ht⟩ := steps_append.1 ht
  obtain rfl := Except.ok.inj (hs.symm.trans hu)
  exact ht

/-- From one boundary to the next, one operator is lowered. -/
theorem Boundary.step {done : List Operator} {op : Operator} {s t : State}
    (hs : Boundary types type intrinsics input done s)
    (ht : Boundary types type intrinsics input (done ++ [op]) t) : s.step op = .ok t := by
  obtain ⟨u, hu, hnil⟩ := steps_cons.1 (hs.steps ht)
  obtain rfl := Except.ok.inj hnil
  exact hu

/-- The last boundary of a body has the blocks of the function. -/
theorem Boundary.last {done : List Operator} {s : State} {index : Nat} {func : UInt32}
    {table : IntrinsicTable} {f : Ssa.Function}
    (h : lowerFunction types index func type intrinsics input = .ok (f, table))
    (hs : Boundary types type intrinsics input done s) :
    ∃ rest last, Boundary types type intrinsics input (done ++ rest) last ∧
      s.steps rest = .ok last ∧ f.blocks = last.draft.finish := by
  obtain ⟨signature, body, start, last, -, hbody, hstart, hlast, -, rfl, -⟩ :=
    lowerFunction_eq_ok.1 h
  have hs' := hs
  -- The operators of the boundary are the first of the body, so the run goes on over the others.
  obtain ⟨body', start', hbody', hstart', ⟨rest, hrest⟩, -⟩ := hs'
  obtain rfl := Except.ok.inj (hbody.symm.trans hbody')
  have hb : Boundary types type intrinsics input (done ++ rest) last :=
    ⟨body, start, hbody, hstart, by rw [hrest], by rw [hrest, hlast]⟩
  exact ⟨rest, last, hb, hs.steps hb, rfl⟩

end Boundary

end WasmLowering.Lowering
