import WasmLowering.Proofs.IntrinsicNames
import WasmLowering.Proofs.Layout
import WasmLowering.Proofs.Modularity

/-!
# Declared intrinsics

A line that calls an intrinsic is appended to the insertion block right when the intrinsic is
declared. The insertion block is the last one that was placed, and the blocks that wait call
nothing. So the calls of a function, read in the order of its layout, are in the order in which they
were declared, and a module declares what its functions call, in the order of the first calls.

## Key results

- `Draft.Records.append`, `Draft.Records.place`, …: one lemma for each operation on drafts
- `step_declares`, `steps_declares`: calls and declarations along a run
- `lowerFunction_declares`: a function declares what it calls
- `loaded_intrinsics`: so does a module
-/

namespace WasmLowering.Ssa

/-! ## Calls -/

/-- The intrinsic that a line calls. -/
def Line.intrinsic? : Line → Option Intrinsic
  | .assign _ (.call intrinsic _) => some intrinsic
  | .trap => some { kind := .trap }
  | _ => none

/-- The intrinsics that lines call, in order. -/
def callsOf (lines : List Line) : List Intrinsic :=
  lines.filterMap Line.intrinsic?

/-- The intrinsics that a function calls, in the order of its blocks and lines. -/
def Function.calls (f : Function) : List Intrinsic :=
  f.blocks.flatMap fun b => callsOf b.lines.toList

private theorem intrinsic?_addEdge (value : Operand) (source : Label) (line : Line) :
    (line.addEdge value source).intrinsic? = line.intrinsic? := by
  cases line <;> rfl

/-- Routing values to phis adds no call. -/
private theorem callsOf_routeEdges (source : Label) (values : List Operand) (lines : List Line) :
    callsOf (routeEdges source values lines) = callsOf lines := by
  unfold callsOf
  fun_induction routeEdges source values lines with
  | case1 value values line lines ih =>
    rw [List.filterMap_cons, List.filterMap_cons, intrinsic?_addEdge, ih]
  | case2 => rfl

/-- An empty phi calls nothing. -/
private theorem intrinsic?_of_isEmptyPhi {line : Line} (h : line.isEmptyPhi = true) :
    line.intrinsic? = none := by
  cases line with
  | phi => rfl
  | _ => cases h

namespace Draft

/-- The intrinsics that a block of a draft calls. -/
def callsIn (d : Draft) (label : Label) : List Intrinsic :=
  callsOf (d.code label)

/-- The calls of a finished draft are those of its blocks in the order of the layout. -/
private theorem flatMap_finish (d : Draft) :
    (d.finish.flatMap fun b => callsOf b.lines.toList) = d.layout.flatMap d.callsIn := by
  unfold finish
  induction d.layout with
  | nil => rfl
  | cons l rest ih =>
    rw [List.flatMap_cons, ← ih, List.filterMap_cons]
    unfold callsIn code lines
    cases d.blocks[l.ordinal]? <;> rfl

/-- A change of lines that keeps the calls of any lines keeps those of all blocks. -/
private theorem callsIn_modifyLines (d : Draft) (label : Label) {f : Array Line → Array Line}
    (hf : ∀ lines, callsOf (f lines).toList = callsOf lines.toList) :
    (d.modifyLines label f).callsIn = d.callsIn := by
  funext other
  unfold callsIn code
  rw [lines_modifyLines]
  split
  · exact hf _
  · rfl

/-- The placed blocks call the given intrinsics, in the order of the layout, and the waiting blocks
    call none. -/
structure Records (d : Draft) (waiting : List Label) (made : List Intrinsic) : Prop where
  placed : ∃ placed, d.LaidOut placed waiting ∧ placed.flatMap d.callsIn = made
  silent : ∀ l ∈ waiting, d.callsIn l = []

section Records

variable {d : Draft} {waiting : List Label} {made : List Intrinsic}

/-- An empty draft has made no call. -/
private theorem records_start : Draft.start.Records [] [] where
  placed := ⟨_, laidOut_start, rfl⟩
  silent := by simp

/-- A new number is no call. -/
theorem Records.skipValue (h : d.Records waiting made) : d.skipValue.Records waiting made := by
  obtain ⟨⟨placed, laid, calls⟩, silent⟩ := h
  have laid' := Advances.refl.skipValue.laidOut placed laid
  rw [List.append_nil] at laid'
  exact ⟨⟨placed, laid', calls⟩, silent⟩

/-- A change of lines that keeps their calls keeps those of the draft. -/
theorem Records.modifyLines (h : d.Records waiting made) (label : Label)
    {f : Array Line → Array Line} (hf : ∀ lines, callsOf (f lines).toList = callsOf lines.toList) :
    (d.modifyLines label f).Records waiting made := by
  obtain ⟨⟨placed, laid, calls⟩, silent⟩ := h
  have laid' := (Advances.refl.modifyLines label f).laidOut placed laid
  rw [List.append_nil] at laid'
  have hcalls := d.callsIn_modifyLines label hf
  exact ⟨⟨placed, laid', by rw [hcalls]; exact calls⟩, by rw [hcalls]; exact silent⟩

/-- The insertion block is the last one that was placed, so what it calls next comes last. -/
theorem Records.append (h : d.Records waiting made) (line : Line) :
    (d.append line).Records waiting (made ++ line.intrinsic?.toList) := by
  obtain ⟨⟨placed, laid, calls⟩, silent⟩ := h
  have laid' := (Advances.refl.append line).laidOut placed laid
  rw [List.append_nil] at laid'
  have hcurrent : d.current ∈ placed := List.mem_of_getLast? laid.last
  have hmem : d.current ∈ d.labels := laid.placed_subset hcurrent
  have hself : (d.append line).callsIn d.current =
      d.callsIn d.current ++ line.intrinsic?.toList := by
    unfold callsIn
    rw [code_append line laid.numbered hmem hmem, if_pos rfl]
    cases hline : line.intrinsic? <;> simp [callsOf, hline]
  have hother : ∀ l ∈ d.labels, l ≠ d.current → (d.append line).callsIn l = d.callsIn l := by
    intro l hl hne
    unfold callsIn
    rw [code_append line laid.numbered hmem hl, if_neg hne]
  constructor
  case placed =>
    refine ⟨placed, laid', ?_⟩
    -- The insertion block occurs once, at the end.
    obtain ⟨before, rfl⟩ := List.getLast?_eq_some_iff.1 laid.last
    have hbefore : ∀ l ∈ before, (d.append line).callsIn l = d.callsIn l := by
      intro l hl
      refine hother l (laid.placed_subset (List.mem_append_left _ hl)) ?_
      rintro rfl
      exact List.disjoint_of_nodup_append laid.placed_nodup hl (List.mem_singleton_self _)
    rw [List.flatMap_append, List.flatMap_congr hbefore] at *
    rw [← calls]
    simp [hself]
  case silent =>
    intro l hl
    obtain ⟨hlabel, hunplaced⟩ := (laid.mem_waiting l).1 hl
    rw [hother l hlabel fun heq => hunplaced (heq ▸ hcurrent)]
    exact silent l hl

/-- Appends a line without a call. -/
theorem Records.appendQuiet (h : d.Records waiting made) {line : Line}
    (hline : line.intrinsic? = none) : (d.append line).Records waiting made := by
  have := h.append line
  rwa [hline, Option.toList_none, List.append_nil] at this

/-- A new block waits, and is empty. -/
theorem Records.newBlock (h : d.Records waiting made) (role : BlockRole) :
    (d.newBlock role).2.Records ((d.newBlock role).1 :: waiting) made := by
  obtain ⟨⟨placed, laid, calls⟩, silent⟩ := h
  have laid' := (Advances.refl.newBlock role).laidOut placed laid
  rw [List.append_nil] at laid'
  have hother : ∀ l ∈ d.labels, (d.newBlock role).2.callsIn l = d.callsIn l := by
    intro l hl
    unfold callsIn
    rw [code_newBlock role laid.numbered hl]
  constructor
  case placed =>
    refine ⟨placed, laid', ?_⟩
    rw [← calls]
    exact List.flatMap_congr fun l hl => hother l (laid.placed_subset hl)
  case silent =>
    intro l hl
    obtain rfl | hl := List.mem_cons.1 hl
    · unfold callsIn
      rw [code_newBlock_self]
      rfl
    · rw [hother l ((laid.mem_waiting l).1 hl).1]
      exact silent l hl

/-- A waiting block calls nothing, so it may be placed. -/
theorem Records.place {label : Label} (h : d.Records (label :: waiting) made) :
    (d.place label).Records waiting made := by
  obtain ⟨⟨placed, laid, calls⟩, silent⟩ := h
  refine ⟨⟨placed ++ [label], Advances.refl.place.laidOut placed laid, ?_⟩, ?_⟩
  · rw [List.flatMap_append, List.flatMap_singleton]
    show placed.flatMap d.callsIn ++ d.callsIn label = made
    rw [calls, silent label List.mem_cons_self, List.append_nil]
  · exact fun l hl => silent l (List.mem_cons_of_mem _ hl)

/-- The blocks may wait in any order. -/
theorem Records.perm {waiting' : List Label} (h : d.Records waiting made)
    (hp : waiting.Perm waiting') : d.Records waiting' made := by
  obtain ⟨⟨placed, laid, calls⟩, silent⟩ := h
  have laid' := (Advances.refl.perm hp).laidOut placed laid
  rw [List.append_nil] at laid'
  exact ⟨⟨placed, laid', calls⟩, fun l hl => silent l (hp.mem_iff.2 hl)⟩

/-- With no block waiting, the layout has all calls. -/
theorem Records.all_calls (h : d.Records [] made) :
    (d.finish.flatMap fun b => callsOf b.lines.toList) = made := by
  obtain ⟨⟨placed, laid, calls⟩, -⟩ := h
  rw [flatMap_finish, laid.all_placed, calls]

/-! ## Combined operations -/

/-- Phis call nothing. -/
theorem Records.addPhis (h : d.Records waiting made) (label : Label) (types : List ScalarType) :
    (d.addPhis label types).2.Records waiting made := by
  induction types generalizing d with
  | nil => exact h
  | cons type types ih =>
    rw [addPhis_cons]
    exact ih (h.skipValue.modifyLines label fun lines => by simp [callsOf, Line.intrinsic?])

/-- Edges of phis call nothing. -/
theorem Records.addEdges (h : d.Records waiting made) (label : Label) (values : Array Operand) :
    (d.addEdges label values).Records waiting made := by
  refine h.modifyLines label fun lines => ?_
  have := callsOf_routeEdges d.current values.toList lines.toList
  rw [← mapIdx_addEdge] at this
  rw [Array.toList_mapIdx]
  simp only [Array.getElem?_toList] at this
  exact this

/-- Nothing that is called is lost with the empty phis. -/
theorem Records.dropEmptyPhis (h : d.Records waiting made) (label : Label) :
    (d.dropEmptyPhis label).Records waiting made := by
  refine h.modifyLines label fun lines => ?_
  rw [Array.toList_filter, callsOf, List.filterMap_filter]
  refine List.filterMap_congr fun line _ => ?_
  cases hline : line.isEmptyPhi with
  | false => rfl
  | true => exact (intrinsic?_of_isEmptyPhi hline).symm

theorem Records.newJoin (h : d.Records waiting made) (role : BlockRole) (types : List ScalarType) :
    (d.newJoin role types).Records ((d.newBlock role).1 :: waiting) made :=
  (h.newBlock role).addPhis ..

theorem Records.goOn (h : d.Records waiting made) (role : BlockRole) :
    (d.goOn role).Records waiting made :=
  ((h.newBlock role).appendQuiet rfl).place

theorem Records.fork (h : d.Records waiting made) (condition : Operand) :
    (d.fork condition).Records (d.arms.2 :: d.arms.1 :: waiting) made :=
  ((h.newBlock .ifThen).newBlock .ifElse).appendQuiet rfl

/-- A check calls the intrinsic that aborts. -/
theorem Records.guard (h : d.Records waiting made) (condition : Operand) :
    (d.guard condition).Records waiting (made ++ [{ kind := .trap }]) := by
  let trapLabel := (d.newBlock .truncTrap).1
  let okLabel := ((d.newBlock .truncTrap).2.newBlock .truncOk).1
  -- Both blocks wait until the branch is there; then the one that aborts is placed first.
  have created := (h.newBlock .truncTrap).newBlock .truncOk
  have checked := @Records.appendQuiet _ _ _ created (.condBr condition okLabel trapLabel) rfl
  exact (((checked.perm (.swap ..)).place.append .trap).appendQuiet rfl).place

/-- Computations without a call. -/
theorem Records.assigned (h : d.Records waiting made) {cs : List Rhs}
    (hcs : ∀ rhs ∈ cs, ∀ id, (Line.assign id rhs).intrinsic? = none) :
    (d.assigned cs).Records waiting made := by
  induction cs generalizing d with
  | nil => exact h
  | cons rhs cs ih =>
    obtain ⟨hfirst, hrest⟩ := List.forall_mem_cons.1 hcs
    exact ih (h.skipValue.appendQuiet (hfirst _)) hrest

/-- Stores call nothing. -/
theorem Records.storeFields (h : d.Records waiting made) (slot : ValueId) (index : Nat)
    (values : List Operand) : (d.storeFields slot index values).Records waiting made := by
  induction values generalizing d index with
  | nil => exact h
  | cons v vs ih => exact ih ((h.skipValue.appendQuiet rfl).appendQuiet rfl) _

/-- A return calls nothing. -/
theorem Records.returned (h : d.Records waiting made) (fields : List ScalarType)
    (values : List Operand) : (d.returned fields values).Records waiting made := by
  unfold Draft.returned
  split
  · exact h.appendQuiet rfl
  -- More than one result is stored in a slot, which is allocated in the entry block.
  · exact h.appendQuiet rfl
  · have slot := h.skipValue.modifyLines entryLabel
      (f := (#[Line.alloca d.nextValue (.packed fields) .ret] ++ ·))
      fun lines => by simp [callsOf, List.filterMap_cons, Line.intrinsic?]
    exact ((slot.storeFields ..).skipValue.appendQuiet rfl).appendQuiet rfl

end Records

end Draft

end WasmLowering.Ssa

namespace WasmLowering.Lowering

open Ssa

/-! ## Runs -/

/-- Since a table was given, the intrinsics that the draft calls have been declared, in the order of
    the calls. -/
def State.Declares (s : State) (before : IntrinsicTable) : Prop :=
  ∃ made, s.draft.Records s.waiting made ∧ s.intrinsics = before.declareAll made

section Runs

variable {s t : State} {before : IntrinsicTable}

/-- Nothing is declared while nothing is called. -/
theorem State.Declares.quiet (h : s.Declares before)
    (draft : ∀ made, s.draft.Records s.waiting made → t.draft.Records t.waiting made)
    (table : t.intrinsics = s.intrinsics) : t.Declares before := by
  obtain ⟨made, records, declared⟩ := h
  exact ⟨made, draft made records, table.trans declared⟩

/-- An intrinsic is declared when it is called. -/
theorem State.Declares.call {i : Intrinsic} (h : s.Declares before)
    (draft : ∀ made, s.draft.Records s.waiting made → t.draft.Records t.waiting (made ++ [i]))
    (table : t.intrinsics = s.intrinsics.declare i) : t.Declares before := by
  obtain ⟨made, records, declared⟩ := h
  refine ⟨made ++ [i], draft made records, ?_⟩
  rw [table, declared, IntrinsicTable.declareAll_append]
  rfl

/-- A computation declares the intrinsic that it calls, if it is a call. -/
private theorem emitted_declares (h : s.Declares before) (rhs : Rhs) :
    (s.emitted rhs).Declares before := by
  cases rhs with
  | call i args => exact h.call (fun made hr => hr.skipValue.append _) rfl
  | _ => exact h.quiet (fun made hr => hr.skipValue.appendQuiet rfl) rfl

private theorem emittedAll_declares (h : s.Declares before) (cs : List Rhs) :
    (s.emittedAll cs).Declares before := by
  induction cs generalizing s with
  | nil => exact h
  | cons rhs cs ih =>
    cases cs with
    | nil => exact emitted_declares h rhs
    | cons rhs' cs => exact ih (emitted_declares h rhs)

/-- A conversion with a check declares the intrinsic that aborts. -/
private theorem truncChecked_declares (h : s.Declares before) (a : Operand) (target : ScalarType)
    (signed : Bool) : (s.truncChecked a target signed).Declares before := by
  rw [truncChecked_fields]
  refine h.call (i := { kind := .trap }) (fun made hr => ?_) rfl
  -- Two comparisons and their conjunction come before the check, the conversion after it.
  unfold State.waiting at hr ⊢
  let checks := truncChecks a target signed s.draft.nextValue
  have checked : (s.draft.assigned checks).Records (s.constructs.flatMap Construct.waiting) made :=
    hr.assigned (by simp [checks, truncChecks, Line.intrinsic?])
  exact (checked.guard _).assigned (by simp [Line.intrinsic?])

/-- What was called and declared stays so, whichever blocks wait. -/
structure State.Quiet (s t : State) : Prop where
  records : ∀ {waiting made}, s.draft.Records waiting made → t.draft.Records waiting made
  intrinsics : t.intrinsics = s.intrinsics
  constructs : t.constructs = s.constructs

/-- Nothing is declared in between. -/
theorem State.Quiet.declares (hq : s.Quiet t) (h : s.Declares before) : t.Declares before := by
  refine h.quiet (fun made hr => ?_) hq.intrinsics
  rw [State.waiting, hq.constructs]
  exact hq.records hr

/-- Dead code calls nothing. -/
private theorem enterDead_quiet (hs : s.enterDead = .ok t) : s.Quiet t := by
  obtain ⟨-, rfl⟩ := enterDead_eq_ok.1 hs
  exact ⟨id, rfl, rfl⟩

/-- A return declares nothing. -/
private theorem ret_quiet (hs : s.ret = .ok t) : s.Quiet t := by
  obtain ⟨-, -, fields, -, rfl⟩ := ret_eq_ok.1 hs
  exact ⟨fun hr => hr.returned .., rfl, rfl⟩

/-- A branch to a construct declares nothing. -/
private theorem exitTo_quiet {c : Construct} (hs : s.exitTo c = .ok t) : s.Quiet t := by
  obtain ⟨head, -, rfl⟩ | ⟨-, -, rfl⟩ := exitTo_eq_ok.1 hs
  · exact ⟨fun hr => hr.appendQuiet rfl, rfl, rfl⟩
  · exact ⟨fun hr => (hr.addEdges ..).appendQuiet rfl, rfl, rfl⟩

/-- The end of an arm declares nothing. -/
private theorem exitLast_quiet {c : Construct} {live : Bool} (hs : s.exitLast c live = .ok t) :
    s.Quiet t := by
  unfold State.exitLast at hs
  split at hs
  · split at hs
    · exact exitTo_quiet hs
    · exact exitTo_quiet (exitArm_eq_ok.1 hs).2
  · obtain rfl := Except.ok.inj hs
    exact ⟨id, rfl, rfl⟩

private theorem enter_declares {type : FuncType} {kind : ConstructKind} {role : BlockRole}
    (hkind : ∀ other params, kind ≠ .thenArm other params) (h : s.Declares before)
    (hs : s.enter type kind role = .ok t) : t.Declares before := by
  obtain ⟨-, types, -, rfl⟩ := enter_eq_ok.1 hs
  refine h.quiet (fun made hr => ?_) rfl
  -- The end of the construct starts to wait.
  rw [State.waiting_of_top rfl hkind]
  exact hr.newJoin ..

/-- A conditional declares nothing. -/
private theorem ifBlock_declares {type : FuncType} (h : s.Declares before)
    (hs : s.ifBlock type = .ok t) :
    t.Declares before := by
  obtain ⟨xs, v, types, -, -, -, -, rfl⟩ := ifBlock_eq_ok.1 hs
  let condition : Operand := .result s.draft.nextValue (.int 1)
  let compare : Line := .assign s.draft.nextValue (.icmp .ne v v.type.zero)
  refine h.quiet (fun made hr => ?_) rfl
  have compared : (s.draft.skipValue.append compare).Records s.waiting made :=
    hr.skipValue.appendQuiet rfl
  -- Of the three new blocks, that of the first arm is placed.
  have join := (compared.fork condition).newJoin .ifEnd types
  let d := s.draft.skipValue.append compare
  let exit := ((d.fork condition).newBlock .ifEnd).1
  have hperm := @List.perm_middle _ d.arms.1 [exit, d.arms.2] s.waiting
  exact (join.perm hperm).place

/-- The second arm of a conditional declares nothing. -/
private theorem elseBlock_declares {live : Bool} (h : s.Declares before)
    (hs : s.elseBlock live = .ok t) :
    t.Declares before := by
  obtain ⟨c, rest, other, params, u, top, kind, hu, -, rfl⟩ := elseBlock_eq_ok.1 hs
  have hquiet := exitLast_quiet hu
  have hwaiting : u.waiting = c.exit :: other :: rest.flatMap Construct.waiting := by
    simp [State.waiting, Construct.waiting, hquiet.constructs, top, kind]
  refine (hquiet.declares h).quiet (fun made hr => ?_) rfl
  -- The end of the conditional goes on waiting.
  rw [hwaiting] at hr
  exact (hr.perm (.swap ..)).place

/-- The end of a construct declares nothing, and neither does that of the function. -/
private theorem endBlock_declares {live : Bool} (h : s.Declares before)
    (hs : s.endBlock live = .ok t) :
    t.Declares before := by
  cases top : s.constructs with
  | nil =>
    have hfinish : s.finishFunction live = .ok t := by
      unfold State.endBlock at hs
      rw [top] at hs
      exact hs
    obtain ⟨u, hu, rfl⟩ := finishFunction_eq_ok.1 hfinish
    cases live with
    | false =>
      obtain rfl : s = u := by simpa using hu
      exact h
    | true =>
      obtain ⟨-, hret⟩ : s.stack.size = s.results.length ∧ s.ret = .ok u := by simpa using hu
      exact (ret_quiet hret).declares h
  | cons c rest =>
    obtain ⟨u, hu, hs⟩ := (endBlock_eq_ok top).1 hs
    have hquiet := exitLast_quiet hu
    have htop : u.constructs = c :: rest := hquiet.constructs.trans top
    obtain ⟨kind, hleave⟩ | ⟨other, params, v, w, kind, hv, hw, hleave⟩ := hs
    · obtain ⟨-, rfl⟩ := leave_eq_ok.1 hleave
      refine (hquiet.declares h).quiet (fun made hr => ?_) rfl
      rw [State.waiting_of_top htop kind] at hr
      exact hr.place.dropEmptyPhis c.exit
    · -- The block of the missing arm is placed first.
      obtain ⟨-, rfl⟩ := startArm_eq_ok.1 hv
      have hexit := exitTo_quiet hw
      obtain ⟨-, rfl⟩ := leave_eq_ok.1 hleave
      refine (hquiet.declares h).quiet (fun made hr => ?_) hexit.intrinsics
      have hwaiting : u.waiting = c.exit :: other :: rest.flatMap Construct.waiting := by
        simp [State.waiting, Construct.waiting, htop, kind]
      rw [hwaiting] at hr
      have otherwise := hexit.records (hr.perm (.swap ..)).place
      exact otherwise.place.dropEmptyPhis c.exit

/-- A branch declares nothing. -/
private theorem br_declares {depth : Nat} (h : s.Declares before) (hs : s.br depth = .ok t) :
    t.Declares before := by
  unfold State.br at hs
  split at hs
  · exact (ret_quiet hs).declares h
  · split at hs
    · cases hs
    · obtain ⟨u, hu, hs⟩ := bind_eq_ok.1 hs
      exact (enterDead_quiet hs).declares ((exitTo_quiet hu).declares h)

/-- A conversion that is no computation is one with a check, which declares what aborts. -/
private theorem convert_declares {c : Conversion} (h : s.Declares before)
    (hc : (Operator.convert c).isComputation = false) (hs : s.convert c = .ok t) :
    t.Declares before := by
  obtain ⟨⟨a, u⟩, hp, hs⟩ := bind_eq_ok.1 hs
  obtain ⟨xs, -, -, rfl⟩ := State.pop_eq_ok.1 hp
  obtain ⟨target, -, hs⟩ := bind_eq_ok.1 hs
  cases c with
  | trunc source width signed =>
    obtain rfl := Except.ok.inj hs
    exact @truncChecked_declares (s.restacked xs) before h a target signed
  | _ => cases hc

private theorem localGet_declares {index : UInt32} (h : s.Declares before)
    (hs : s.localGet index = .ok t) : t.Declares before := by
  unfold State.localGet at hs
  split at hs
  · cases hs
  · obtain rfl := Except.ok.inj hs
    exact h.quiet (fun made hr => hr.skipValue.appendQuiet rfl) rfl

/-- Writing a local declares nothing. -/
private theorem localSet_declares {index : UInt32} (h : s.Declares before)
    (hs : s.localSet index = .ok t) : t.Declares before := by
  unfold State.localSet at hs
  split at hs
  · cases hs
  · obtain ⟨⟨v, u⟩, hp, hs⟩ := bind_eq_ok.1 hs
    obtain ⟨xs, -, -, rfl⟩ := State.pop_eq_ok.1 hp
    obtain rfl := Except.ok.inj hs
    exact h.quiet (fun made hr => hr.appendQuiet rfl) rfl

private theorem localTee_declares {index : UInt32} (h : s.Declares before)
    (hs : s.localTee index = .ok t) : t.Declares before := by
  unfold State.localTee at hs
  split at hs
  · cases hs
  · obtain ⟨v, -, hs⟩ := bind_eq_ok.1 hs
    obtain rfl := Except.ok.inj hs
    exact h.quiet (fun made hr => hr.appendQuiet rfl) rfl

/-- An operator declares what it calls where the code is live. -/
private theorem lower_declares {op : Operator} (h : s.Declares before) (hs : s.lower op = .ok t) :
    t.Declares before := by
  by_cases hop : op.isComputation = true
  · obtain ⟨xs, args, cs, -, -, -, rfl⟩ := (lower_eq_ok_iff hop).1 hs
    exact @emittedAll_declares (s.restacked xs) before h cs
  · -- Of the other operators, only checked conversions call an intrinsic.
    cases op with
    | unreachable =>
      have closed : (s.append .unreachable).Declares before :=
        h.quiet (fun made hr => hr.appendQuiet rfl) rfl
      exact (enterDead_quiet hs).declares closed
    | nop =>
      obtain rfl := Except.ok.inj hs
      exact h.quiet (fun made hr => hr.skipValue.appendQuiet rfl) rfl
    | block type => exact enter_declares (fun _ _ hk => by cases hk) h hs
    | loop results =>
      have begun : (s.begun .loopBegin).Declares before :=
        h.quiet (fun made hr => hr.goOn .loopBegin) rfl
      exact enter_declares (fun _ _ hk => by cases hk) begun hs
    | ifBlock type => exact ifBlock_declares h hs
    | elseBlock => exact elseBlock_declares h hs
    | endBlock => exact endBlock_declares h hs
    | br depth => exact br_declares h hs
    | ret => exact (ret_quiet hs).declares h
    | drop =>
      obtain ⟨⟨v, u⟩, hp, hs⟩ := bind_eq_ok.1 hs
      obtain ⟨xs, -, -, rfl⟩ := State.pop_eq_ok.1 hp
      obtain rfl := Except.ok.inj hs
      exact h
    | localGet index => exact localGet_declares h hs
    | localSet index => exact localSet_declares h hs
    | localTee index => exact localTee_declares h hs
    | i32Const value | i64Const value | f32Const value | f64Const value =>
      obtain rfl := Except.ok.inj hs
      exact h
    | convert c => exact convert_declares h (by simpa using hop) hs
    | _ => exact absurd rfl hop

/-- Skipped operators declare nothing. An arm or a construct may end with them. -/
private theorem skip_declares {depth : Nat} {op : Operator} (h : s.Declares before)
    (hs : s.skip depth op = .ok t) : t.Declares before := by
  unfold State.skip at hs
  split at hs
  · obtain rfl := Except.ok.inj hs
    exact h
  · obtain rfl := Except.ok.inj hs
    exact h
  · obtain rfl := Except.ok.inj hs
    exact h
  -- The second arm starts only at an `else` of depth zero.
  · split at hs
    · exact elseBlock_declares h hs
    · obtain rfl := Except.ok.inj hs
      exact h
  -- The construct ends only at an `end` of depth zero.
  · split at hs
    · exact endBlock_declares h hs
    · obtain rfl := Except.ok.inj hs
      exact h
  · obtain rfl := Except.ok.inj hs
    exact h

/-- An operator declares what it calls. -/
theorem step_declares {op : Operator} (h : s.Declares before) (hs : s.step op = .ok t) :
    t.Declares before := by
  unfold State.step at hs
  split at hs
  · exact lower_declares h hs
  · exact skip_declares h hs
  · obtain rfl := Except.ok.inj hs
    exact h

/-- Operators declare what they call, one after the other. -/
theorem steps_declares {ops : List Operator} (h : s.Declares before) (hs : s.steps ops = .ok t) :
    t.Declares before := by
  induction ops generalizing s with
  | nil =>
    obtain rfl := Except.ok.inj hs
    exact h
  | cons op ops ih =>
    obtain ⟨u, hu, hs⟩ := steps_cons.1 hs
    exact ih (step_declares h hu) hs

/-! ## Functions -/

private theorem allotAll_declares {slots : List (ScalarType × Operand)} (h : s.Declares before) :
    (s.allotAll slots).Declares before := by
  induction slots generalizing s with
  | nil => exact h
  | cons slot slots ih =>
    exact ih (h.quiet (fun made hr => (hr.skipValue.appendQuiet rfl).appendQuiet rfl) rfl)

private theorem start_declares {type : FuncType} {locals : List ValueType}
    (hs : State.start type locals before = .ok s) : s.Declares before := by
  obtain ⟨params, scalars, -, -, rfl⟩ := start_eq_ok.1 hs
  have hinitial : (State.initial type before).Declares before := ⟨[], Draft.records_start, rfl⟩
  exact allotAll_declares hinitial

end Runs

/-- Lowering a function declares what the function calls, in the order of the calls. -/
theorem lowerFunction_declares {types : Array FuncType} {index : Nat} {func : UInt32}
    {type : FuncType} {before after : IntrinsicTable} {input : Bytes} {f : Ssa.Function}
    (h : lowerFunction types index func type before input = .ok (f, after)) :
    after = before.declareAll f.calls := by
  obtain ⟨signature, body, start, last, -, hbody, hstart, hlast, hstop, rfl, rfl⟩ :=
    lowerFunction_eq_ok.1 h
  -- At the end no construct is open, so no block waits.
  obtain ⟨-, hconstructs⟩ := finished_of_stop_eq_none hbody hstart hlast hstop
  obtain ⟨made, records, declared⟩ := steps_declares (start_declares hstart) hlast
  have hwaiting : last.waiting = [] := by rw [State.waiting, hconstructs]; rfl
  rw [hwaiting] at records
  rw [declared, Function.calls, records.all_calls]

end WasmLowering.Lowering

namespace WasmLowering

open Ssa

/-! ## Modules -/

namespace Loader

variable {l l' : Loader}

/-- The intrinsics that the functions call have been declared, in the order of the calls. -/
def Declares (l : Loader) : Prop :=
  l.intrinsics = ({} : IntrinsicTable).declareAll (l.functions.toList.flatMap Function.calls)

/-- A body adds its calls to those of the bodies before it. -/
theorem Declares.lowersBody {body : Bytes} (declares : l.Declares) (h : l.LowersBody l' body) :
    l'.Declares := by
  obtain ⟨type, function, intrinsics, -, hlower, -, rfl⟩ := h
  unfold Declares
  rw [Array.toList_push, List.flatMap_append, List.flatMap_singleton,
    IntrinsicTable.declareAll_append, ← declares]
  exact Lowering.lowerFunction_declares hlower

/-- Of all sections, only the code declares intrinsics. -/
theorem Declares.frame {f : Frame} (declares : l.Declares) (h : l.frame f = .ok l') :
    l'.Declares := by
  obtain ⟨-, same⟩ | ⟨-, -, k, -, -, takes⟩ := frame_eq_ok h
  · -- A custom section changes names at most.
    have hintrinsics : l'.intrinsics = l.intrinsics := congrArg (·.intrinsics) same
    have hfunctions : l'.functions = l.functions := congrArg (·.functions) same
    unfold Declares
    rw [hintrinsics, hfunctions]
    exact declares
  · cases takes with
    | entries => exact declares
    | number => exact declares
    | code _ _ lowered =>
      exact lowered.keeps (P := Declares) (fun _ _ _ _ first declares => declares.lowersBody first)
        declares

end Loader

/-- A module declares the intrinsics that its functions call, in the order of the first calls. -/
theorem loaded_intrinsics {input : Bytes} {l : Loader} (h : loadModule input = .ok l) :
    l.intrinsics.declared.toList = (l.functions.toList.flatMap Function.calls).eraseDups := by
  obtain ⟨frames, _, -, -, hframes, -⟩ := loadModule_eq_ok h
  have declares : l.Declares := (Loader.frames_eq_ok.1 hframes).keeps (P := Loader.Declares)
    (fun _ _ _ _ first declares => declares.frame first) rfl
  rw [declares]
  exact @IntrinsicTable.declared_declareAll {} [] rfl _

/-- Every overload of an intrinsic is declared once, when it is first used, and none is declared
    that is not used. A name stands for one base at one list of types. Requests share a declaration
    exactly if they are equal, and a request that is refused changes nothing. A module that compiles
    declares the intrinsics that its functions call, in the order of the first calls over the bodies
    in order. -/
theorem intrinsics_declared_once :
    (∀ (kind kind' : IntrinsicKind) (types types' : List ScalarType),
      Intrinsic.name ⟨kind, types⟩ = Intrinsic.name ⟨kind', types'⟩ →
        kind = kind' ∧ types = types') ∧
    (∀ rs, IntrinsicTable.Answered rs (({} : IntrinsicTable).requests rs).1
      (({} : IntrinsicTable).requests rs).2) ∧
    (∀ (t : IntrinsicTable) kind types, types.all NativeType.isScalar = false →
      t.request kind types = (.error (.of .overloadType), t)) ∧
    ∀ name input m, (compile name input).outcome = .ok m →
      ∃ lowered, m.lowered = some lowered ∧
        (∀ (i : Nat) (f : Function), lowered.functions[i]? = some f → f.body = i) ∧
        lowered.intrinsics.declared.toList =
          (lowered.functions.toList.flatMap Function.calls).eraseDups ∧
        (lowered.intrinsics.declared.toList.map Intrinsic.name).Nodup ∧
        ∀ i, i ∈ lowered.intrinsics.declared ↔ ∃ f ∈ lowered.functions, i ∈ f.calls := by
  refine ⟨?_, IntrinsicTable.answered_requests, ?_, ?_⟩
  · intro kind kind' types types' h
    exact Intrinsic.mk.inj (Intrinsic.name_injective h)
  · intro t kind types hnot
    -- Whatever intrinsic is requested, its overloads are scalars.
    obtain ⟨i, hi, -⟩ | ⟨-, hrequest⟩ := t.request_cases (kind, types)
    · have hscalar := i.all_isScalar_request
      rw [← hi, hnot] at hscalar
      cases hscalar
    · exact hrequest
  · intro name input m hm
    obtain ⟨l, hload, -, hlowered⟩ := compile_eq_ok hm
    have hdeclared := loaded_intrinsics hload
    refine ⟨_, hlowered, fun i f => body_of_loaded hload, hdeclared, ?_, fun i => ?_⟩
    · show (l.intrinsics.declared.toList.map Intrinsic.name).Nodup
      rw [hdeclared]
      exact (IntrinsicTable.nodup_eraseDups _).map Intrinsic.name_injective
    · show i ∈ l.intrinsics.declared ↔ ∃ f ∈ l.functions, i ∈ f.calls
      rw [← Array.mem_toList_iff, hdeclared, List.mem_eraseDups, List.mem_flatMap]
      simp only [Array.mem_toList_iff]

/-- A module with two functions. The first one counts leading zeros and converts with a check, the
    second one counts bits and then leading zeros. -/
def countingModule : Bytes :=
  [0x00, 0x61, 0x73, 0x6D, 0x01, 0x00, 0x00, 0x00,
    0x01, 0x05, 0x01, 0x60, 0x00, 0x01, 0x7F,
    0x03, 0x03, 0x02, 0x00, 0x00,
    0x0A, 0x16, 0x02,
    0x0C, 0x00, 0x41, 0x07, 0x67, 0x43, 0x00, 0x00, 0x80, 0x3F, 0xA8, 0x6A, 0x0B,
    0x07, 0x00, 0x42, 0x07, 0x7B, 0xA7, 0x67, 0x0B]

/-- Of four requests, one is refused and two are equal. The module declares three intrinsics for its
    four calls. -/
theorem intrinsics_declared_once_counting :
    (({} : IntrinsicTable).requests [(.ctlz, [.scalar (.int 32)]), (.fabs, [.void]),
      (.fptosiSat, [.scalar (.int 32), .scalar .float]),
      (.ctlz, [.scalar (.int 32)])]).2.count = 2 ∧
    (({} : IntrinsicTable).request .fabs [.packed []]).2 = {} ∧
    ∃ m lowered, (compile [] countingModule).outcome = .ok m ∧ m.lowered = some lowered ∧
      lowered.intrinsics.declared.toList.map Intrinsic.name =
        ["llvm.ctlz.i32", "llvm.trap", "llvm.ctpop.i64"] ∧
      lowered.functions.toList.map (fun f => f.calls.map Intrinsic.name) =
        [["llvm.ctlz.i32", "llvm.trap"], ["llvm.ctpop.i64", "llvm.ctlz.i32"]] := by
  obtain ⟨-, hanswered, hrefused, hmodules⟩ := intrinsics_declared_once
  refine ⟨(hanswered _).count.trans (by decide +kernel),
    congrArg Prod.snd (hrefused {} .fabs [.packed []] rfl), ?_⟩
  have hcalls : ((compile [] countingModule).outcome.toOption.bind Module.lowered).map
      (fun lowered => lowered.functions.toList.map Function.calls) =
        some [[⟨.ctlz, [.int 32]⟩, ⟨.trap, []⟩], [⟨.ctpop, [.int 64]⟩, ⟨.ctlz, [.int 32]⟩]] := by
    decide +kernel
  cases hm : (compile [] countingModule).outcome with
  | error fault => simp [hm, Except.toOption] at hcalls
  | ok m =>
    obtain ⟨lowered, hlowered, -, horder, -, -⟩ := hmodules [] countingModule m hm
    simp only [hm, Except.toOption, Option.bind_some, hlowered, Option.map_some,
      Option.some.injEq] at hcalls
    refine ⟨m, lowered, rfl, hlowered, ?_, ?_⟩
    · rw [horder, List.flatMap_def, hcalls]
      decide +kernel
    · have hnames := congrArg (List.map (List.map Intrinsic.name)) hcalls
      rw [List.map_map] at hnames
      exact hnames.trans (by decide +kernel)

end WasmLowering
