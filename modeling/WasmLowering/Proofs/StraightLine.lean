import WasmLowering.Proofs.Arithmetic
import WasmLowering.Proofs.Dominance
import WasmLowering.Proofs.Matching
import WasmLowering.Proofs.Numbering
import WasmLowering.Proofs.Persistence
import WasmLowering.Proofs.ValidBodies

/-!
# Straight-line code

A lowered function is run side by side with its body. At every point of the body that can be
reached, the machine stands where the lowering stood: it is in the block that was the insertion
block, it has yet to run the lines that this block got from then on, and the operands on the stack
of the lowering have the values on the stack of the body. The locals are in their slots.

An operator without control appends lines to the insertion block. Running these lines has the effect
of the operator.

## Key results

- `Lowered`: a function and the state at the end of its lowering
- `At`: the states of lowering at the points of a valid body
- `Stored`, `Running`: how a machine stands for the stack and the locals of a body
- `plain_runs`: the lines of an operator without control do what the operator does
-/

namespace WasmLowering

open Ssa

/-- One of the elements on the right may be replaced. -/
private theorem forall₂_set {α β : Type} {R R' : α → β → Prop} {xs : List α} {ys : List β}
    (h : List.Forall₂ R xs ys) {i : Nat} {x : α} {y : β} (hx : xs[i]? = some x) (hy : R' x y)
    (hkeep : ∀ j x' y', j ≠ i → xs[j]? = some x' → R x' y' → R' x' y') :
    List.Forall₂ R' xs (ys.set i y) := by
  obtain ⟨hlen, hget⟩ := List.forall₂_iff_get.1 h
  refine List.forall₂_iff_get.2 ⟨by rw [List.length_set, hlen], fun j hj hj' => ?_⟩
  simp only [List.get_eq_getElem, List.getElem_set]
  split
  next heq =>
    subst heq
    obtain ⟨_, rfl⟩ := List.getElem?_eq_some_iff.1 hx
    exact hy
  next hne =>
    exact hkeep j _ _ (Ne.symm hne) (List.getElem?_eq_getElem hj) (hget j hj (hlen ▸ hj))

/-- Among lines that define no value twice, a value is defined by one line. -/
theorem Ssa.eq_of_defines {lines : List Line} (h : (definitions lines).Nodup) {x y : Line}
    {id : ValueId} (hx : x ∈ lines) (hy : y ∈ lines) (hdx : x.defines = some id)
    (hdy : y.defines = some id) : x = y := by
  induction lines with
  | nil => cases hx
  | cons line lines ih =>
    -- The first line defines what no later one does.
    have hfirst : ∀ z, line.defines = some id → z ∈ lines → z.defines ≠ some id := by
      intro z hline hz hdz
      rw [definitions, List.filterMap_cons_some hline] at h
      exact (List.nodup_cons.1 h).1 (mem_definitions.2 ⟨z, hz, hdz⟩)
    have hrest : (definitions lines).Nodup := by
      refine h.sublist ?_
      exact (List.sublist_cons_self line lines).filterMap _
    obtain rfl | hx' := List.mem_cons.1 hx
    · obtain rfl | hy' := List.mem_cons.1 hy
      · rfl
      · exact absurd hdy (hfirst y hdx hy')
    · obtain rfl | hy' := List.mem_cons.1 hy
      · exact absurd hdx (hfirst x hdy hx')
      · exact ih hrest hx' hy'

theorem Ssa.Draft.Arranged.code_append {d : Draft} {waiting : List Label} (h : d.Arranged waiting)
    (line : Line) : (d.append line).code d.current = d.code d.current ++ [line] := by
  rw [Draft.code_append line h.numbered h.current_mem h.current_mem, if_pos rfl]

/-- The lines of computations are assignments. -/
theorem Ssa.Draft.exists_of_mem_assignments {next : ValueId} {cs : List Rhs} {line : Line}
    (h : line ∈ assignments next cs) : ∃ id rhs, line = .assign id rhs := by
  induction cs generalizing next with
  | nil => cases h
  | cons rhs cs ih =>
    obtain rfl | h := List.mem_cons.1 h
    · exact ⟨next, rhs, rfl⟩
    · exact ih h

/-- There is one line for each computation. -/
theorem Ssa.Draft.length_assignments (next : ValueId) (cs : List Rhs) :
    (assignments next cs).length = cs.length := by
  induction cs generalizing next with
  | nil => rfl
  | cons rhs cs ih => simp [assignments, ih]

/-- Operators are validated one by one, as long as a frame is open. -/
theorem Validation.Checker.run_cons {body : BodyTypes} {c c' : Checker} {op : Operator}
    {ops : List Operator} :
    c.run body (op :: ops) = some c' ↔
      c.frames ≠ [] ∧ ∃ c₁, c.step body op = some c₁ ∧ c₁.run body ops = some c' := by
  simp only [run, Option.bind_eq_bind, Option.bind_eq_some_iff, Option.guard_eq_some']
  grind

/-! ## Operands -/

section Represents

variable {args : List Scalar} {m m' : Machine} {us vs stack : List Value}
  {xs operands : List Operand} {n : Nat}

/-- Operands keep their values if the values before `n` are kept. -/
theorem Ssa.Machine.Represents.congr (h : m.Represents args operands vs)
    (hb : ∀ v ∈ operands, v.Below n)
    (hvalues : ∀ id < n, m'.values id = m.values id) : m'.Represents args operands vs := by
  refine ((List.forall₂_and_left operands vs).2 ⟨hb, h⟩).imp fun operand v hv => ?_
  exact (Operand.eval_congr fun id hid => hvalues id (hv.1 id hid)).trans hv.2

theorem Ssa.Machine.Represents.length_eq (h : m.Represents args operands vs) :
    operands.length = vs.length :=
  List.Forall₂.length_eq h

theorem Ssa.Machine.Represents.append (h : m.Represents args xs us)
    (h' : m.Represents args operands vs) :
    m.Represents args (xs ++ operands) (us ++ vs) :=
  List.rel_append h h'

theorem Ssa.Machine.Represents.take (h : m.Represents args operands vs) (n : Nat) :
    m.Represents args (operands.take n) (vs.take n) :=
  List.forall₂_take n h

/-- The native types of the values of operands are those of the operands. -/
theorem Ssa.Machine.Represents.map_type (h : m.Represents args operands vs) :
    (vs.map Value.native).map Scalar.type = operands.map Operand.type := by
  induction h with
  | nil => rfl
  | cons hx _ ih => rw [List.map_cons, List.map_cons, List.map_cons, ih, Machine.type_eval hx]

/-- The topmost operands have the topmost values. -/
theorem Ssa.Machine.Represents.split (h : m.Represents args (xs ++ operands) stack)
    (hn : operands.length = n) :
    m.Represents args xs (stack.take (stack.length - n)) ∧
      m.Represents args operands (stack.drop (stack.length - n)) := by
  -- The values are as many as the operands, so both are split at one place.
  have hlen : stack.length - n = xs.length := by
    rw [← h.length_eq, List.length_append, hn, Nat.add_sub_cancel]
  have htake : m.Represents args ((xs ++ operands).take xs.length) (stack.take xs.length) :=
    List.forall₂_take xs.length h
  have hdrop : m.Represents args ((xs ++ operands).drop xs.length) (stack.drop xs.length) :=
    List.forall₂_drop xs.length h
  rw [List.take_left] at htake
  rw [List.drop_left] at hdrop
  rw [hlen]
  exact ⟨htake, hdrop⟩

/-- The topmost operand has the topmost value. -/
theorem Ssa.Machine.Represents.concat {x : Operand} {v : Value}
    (h : m.Represents args (xs ++ [x]) (vs ++ [v])) :
    m.Represents args xs vs ∧ m.eval args x = some v.native := by
  have hlen : (vs ++ [v]).length - [x].length = vs.length := by simp
  obtain ⟨hxs, hx⟩ := h.split rfl
  rw [hlen, List.take_left] at hxs
  rw [hlen, List.drop_left] at hx
  exact ⟨hxs, (List.forall₂_cons.1 hx).1⟩

end Represents

namespace Lowering

open Draft Validation

/-! ## Finished functions -/

/-- A number stands for a slot of the function. -/
def State.IsSlot (last : State) (id : ValueId) : Prop :=
  ∃ type name, .alloca id type name ∈ last.draft.code entryLabel

/-- The slots of the locals are made in the entry block. -/
def State.Allots (s : State) : Prop :=
  ∀ i slot, s.locals[i]? = some slot →
    .alloca slot.id (.scalar slot.type) (.ofLocal i) ∈ s.draft.code entryLabel

/-- A function, and the state at the end of its lowering. -/
structure Lowered (f : Ssa.Function) (last : State) : Prop where
  blocks : f.blocks = last.draft.finish
  disciplined : last.Disciplined
  scope : ∃ avail, last.Scoped avail
  slots : last.Allots

section Lowered

variable {f : Ssa.Function} {last : State} {l l' : Label} {x y : Line} {id : ValueId}

/-- A value is defined in one place. -/
theorem Lowered.eq_of_defines (h : Lowered f last) (hl : l ∈ last.draft.labels)
    (hl' : l' ∈ last.draft.labels) (hx : x ∈ last.draft.code l) (hy : y ∈ last.draft.code l')
    (hdx : x.defines = some id) (hdy : y.defines = some id) : x = y := by
  obtain ⟨avail, hscoped⟩ := h.scope
  obtain rfl : l = l' := hscoped.draft.disjoint l hl l' hl' id (mem_definitions.2 ⟨x, hx, hdx⟩)
    (mem_definitions.2 ⟨y, hy, hdy⟩)
  exact Ssa.eq_of_defines (hscoped.draft.nodup l hl) hx hy hdx hdy

/-- Lines that do not make slots make other values. -/
theorem Lowered.not_isSlot (h : Lowered f last) (hl : l ∈ last.draft.labels)
    (hx : x ∈ last.draft.code l) (hdx : x.defines = some id)
    (hne : ∀ type name, x ≠ .alloca id type name) : ¬ last.IsSlot id := by
  rintro ⟨type, name, hslot⟩
  exact hne type name (h.eq_of_defines hl h.disciplined.sound.entry_mem hx hslot hdx rfl)

end Lowered

/-! ## Points of a body -/

/-- The state of lowering at a point of a valid body, before the operators `code`. -/
structure At (body : BodyTypes) (result : NativeType) (last : State) (code : List Operator)
    (s : State) : Prop where
  framed : s.Framed
  disciplined : s.Disciplined
  ordered : s.Ordered
  locals : s.locals = last.locals
  steps : s.steps code = .ok last
  checked : ∃ c c', Agrees body result c s ∧ c.run body code = some c'

section At

variable {body : BodyTypes} {result : NativeType} {last s t : State} {op : Operator}
  {code xs ys : List Operator}

theorem At.moves (h : At body result last code s) : Moves s last :=
  steps_moves h.framed h.steps

/-- From a point of the body, the next operator leads to the next point. -/
theorem At.step (h : At body result last (op :: code) s) :
    ∃ t, s.step op = .ok t ∧ At body result last code t := by
  obtain ⟨t, hstep, hsteps⟩ := steps_cons.1 h.steps
  obtain ⟨c, c', hagrees, hrun⟩ := h.checked
  obtain ⟨hframes, c₁, hcheck, hrun⟩ := Checker.run_cons.1 hrun
  -- Validation and lowering agree on the next operator, as they did on those before it.
  obtain ⟨t', hstep', hagrees⟩ := step_agrees hagrees h.disciplined hframes hcheck
  obtain rfl : t = t' := Except.ok.inj (hstep.symm.trans hstep')
  have hm := step_moves h.framed hstep
  exact ⟨t, hstep, hm.framed h.framed, hm.disciplined h.disciplined,
    hm.ordered h.disciplined h.framed h.ordered, (step_reopens hstep).2.trans h.locals, hsteps,
    c₁, c', hagrees, hrun⟩

/-- Some operators lead from one point of the body to another. -/
theorem At.after (h : At body result last (xs ++ ys) s) (hsteps : s.steps xs = .ok t) :
    At body result last ys t := by
  induction xs generalizing s with
  | nil =>
    obtain rfl := Except.ok.inj hsteps
    exact h
  | cons op xs ih =>
    obtain ⟨u, hu, hat⟩ := h.step
    obtain ⟨u', hu', hsteps⟩ := steps_cons.1 hsteps
    obtain rfl : u = u' := Except.ok.inj (hu.symm.trans hu')
    exact ih hat hsteps

/-- A point that can be reached, from the view of validation. -/
theorem At.reached (h : At body result last (op :: code) s) (live : s.phase = .live) :
    ∃ c c' ts fr rest, Reached body result c s ts fr rest ∧ c.step body op = some c' := by
  obtain ⟨c, c', hagrees, hrun⟩ := h.checked
  obtain ⟨-, c₁, hcheck, -⟩ := Checker.run_cons.1 hrun
  obtain ⟨ts, fr, rest, hreached⟩ := hagrees.reached h.disciplined live
  exact ⟨c, c₁, ts, fr, rest, hreached, hcheck⟩

/-- The operands of an operator without control are of the types that it takes. -/
theorem At.operands (h : At body result last (op :: code) s) (live : s.phase = .live)
    (hop : op.isControl = false) :
    ∃ ins outs xs operands, HasType body op ins outs ∧ s.stack.toList = xs ++ operands ∧
      s.base ≤ xs.length ∧ OperandsTyped operands ins ∧ SlotsTyped s.locals body.locals := by
  obtain ⟨c, c', ts, fr, rest, hreached, hcheck⟩ := h.reached live
  obtain ⟨ts', ins, outs, htype, rfl, hheight, -⟩ := Checker.step_live hop hreached.vals
    hreached.split hreached.top_live hreached.height hcheck
  obtain ⟨xs, operands, hstack, hxs, hoperands⟩ := hreached.typed.split
  refine ⟨ins, outs, xs, operands, htype, hstack, ?_, hoperands, hreached.agrees.locals⟩
  rw [hreached.base, hxs.length_eq]
  exact hheight

end At

/-! ## Machines -/

/-- A slot holds a value. -/
def Keeps (m : Machine) (slot : Slot) (v : Value) : Prop :=
  v.native.type = slot.type ∧ m.values slot.id = some (.address slot.id 0) ∧
    m.memory slot.id = [.holding v.native]

/-- The slots hold the values of the locals, and the slots for returned structures are there. -/
structure Stored (last : State) (slots : List Slot) (locals : List Value) (m : Machine) :
    Prop where
  locals : List.Forall₂ (Keeps m) slots locals
  returns : ∀ id fields, .alloca id (.packed fields) .ret ∈ last.draft.code entryLabel →
    m.values id = some (.address id 0) ∧ (m.memory id).map Cell.type = fields

/-- A machine stands where the lowering stood in the state `s`, and the body has this operand stack
    and these locals. -/
structure Running (args : List Scalar) (last s : State) (stack locals : List Value) (m : Machine) :
    Prop where
  block : m.block = s.draft.current
  rest : Remaining s last m.rest
  stack : m.Represents args s.stack.toList stack
  stored : Stored last last.locals.toList locals m

section Stored

variable {f : Ssa.Function} {last : State} {m m' : Machine} {slots : List Slot}
  {locals : List Value}

/-- Slots are kept by what leaves their addresses and their cells alone. -/
theorem Stored.congr (h : Stored last slots locals m)
    (hslots : ∀ slot ∈ slots, last.IsSlot slot.id)
    (hkeep : ∀ id, last.IsSlot id → m'.values id = m.values id ∧ m'.memory id = m.memory id) :
    Stored last slots locals m' where
  locals := by
    refine ((List.forall₂_and_left slots locals).2 ⟨hslots, h.locals⟩).imp fun slot v hv => ?_
    obtain ⟨hvalues, hmemory⟩ := hkeep slot.id hv.1
    exact ⟨hv.2.1, hvalues.trans hv.2.2.1, hmemory.trans hv.2.2.2⟩
  returns := fun id fields hmem => by
    obtain ⟨hvalues, hmemory⟩ := hkeep id ⟨_, _, hmem⟩
    rw [hvalues, hmemory]
    exact h.returns id fields hmem

/-- The slot of a local holds its value. -/
theorem Stored.keeps (h : Stored last slots locals m) {i : Nat} {slot : Slot} {v : Value}
    (hslot : slots[i]? = some slot) (hv : locals[i]? = some v) : Keeps m slot v := by
  obtain ⟨hi, rfl⟩ := List.getElem?_eq_some_iff.1 hslot
  obtain ⟨hi', rfl⟩ := List.getElem?_eq_some_iff.1 hv
  exact (List.forall₂_iff_get.1 h.locals).2 i hi hi'

theorem Stored.of_values (h : Stored last slots locals m)
    (hslots : ∀ slot ∈ slots, last.IsSlot slot.id) (hmemory : m'.memory = m.memory)
    (hvalues : ∀ id, last.IsSlot id → m'.values id = m.values id) : Stored last slots locals m' :=
  h.congr hslots fun id hid => ⟨hvalues id hid, congrFun hmemory id⟩

/-- The slots of the locals are slots of the function. -/
theorem Lowered.isSlot (hl : Lowered f last) :
    ∀ slot ∈ last.locals.toList, last.IsSlot slot.id := by
  intro slot hslot
  obtain ⟨i, hi, rfl⟩ := List.mem_iff_getElem.1 hslot
  exact ⟨_, _, hl.slots i _ (by simp [Array.getElem?_eq_getElem (by simpa using hi)])⟩

end Stored

/-! ## Lines that were appended -/

section Lines

variable {args : List Scalar} {f : Ssa.Function} {last s t : State} {m m' : Machine}
  {stack locals vs : List Value}

/-- The lines that an operator appends to the insertion block are the next ones to run. -/
theorem Running.next (h : Running args last s stack locals m) (hd : s.Disciplined)
    (hm : Moves s t) (hlast : Moves t last) {new : List Line}
    (hcode : t.draft.code s.draft.current = s.draft.code s.draft.current ++ new)
    (hnew : ∀ line ∈ new, line.isReturnSlot = false) :
    ∃ rest, m.rest = new ++ rest ∧ (t.draft.current = s.draft.current → Remaining t last rest) ∧
      ∀ line ∈ new, line ∈ last.draft.code s.draft.current := by
  replace hcode : t.draft.code s.draft.current = [] ++ s.draft.code s.draft.current ++ new := hcode
  obtain ⟨rest, hrest, hremaining⟩ := h.rest.split hm hlast hd hcode (by simp) hnew
  refine ⟨rest, hrest, hremaining, fun line hline => h.rest.mem ?_⟩
  rw [hrest]
  exact List.mem_append_left _ hline

/-- Without new lines in the insertion block, only the operands change. -/
theorem Running.restack (h : Running args last s stack locals m) (hd : s.Disciplined)
    (hm : Moves s t) (hlast : Moves t last) (hcurrent : t.draft.current = s.draft.current)
    (hcode : t.draft.code s.draft.current = s.draft.code s.draft.current)
    (hrep : m.Represents args t.stack.toList vs) : Running args last t vs locals m := by
  obtain ⟨rest, hrest, hremaining, -⟩ := @Running.next args last s t m stack locals h hd hm hlast []
    (by rw [hcode, List.append_nil]) (by simp)
  rw [List.nil_append] at hrest
  exact ⟨hcurrent ▸ h.block, hrest ▸ hremaining hcurrent, hrep, h.stored⟩

/-- A machine that has made new values goes on after the lines that made them. -/
theorem Running.made (h : Running args last s stack locals m) (hl : Lowered f last)
    {new : List Line} (hcurrent : t.draft.current = s.draft.current)
    (hmem : ∀ line ∈ new, line ∈ last.draft.code s.draft.current)
    (hplain : ∀ line ∈ new, ∀ id type name, line ≠ .alloca id type name)
    (hlabel : s.draft.current ∈ last.draft.labels)
    (hblock : m'.block = m.block) (hrest : Remaining t last m'.rest)
    (hmemory : m'.memory = m.memory)
    (hvalues : ∀ id ∉ definitions new, m'.values id = m.values id)
    (hrep : m'.Represents args t.stack.toList vs) : Running args last t vs locals m' where
  block := by rw [hblock, h.block, hcurrent]
  rest := hrest
  stack := hrep
  stored := by
    refine h.stored.of_values hl.isSlot hmemory fun id hslot => hvalues id fun hdef => ?_
    obtain ⟨line, hline, hdefines⟩ := mem_definitions.1 hdef
    exact hl.not_isSlot hlabel (hmem line hline) hdefines (hplain line hline id) hslot

/-- An operator's computations are run, and the last one gives the operator's value. -/
theorem Running.computes (h : Running args last s stack locals m) (hl : Lowered f last)
    (hd : s.Disciplined) (hordered : s.Ordered) {xs : Array Operand} {cs : List Rhs} {rhs : Rhs}
    {v : Value} (ht : t = (s.restacked xs).emittedAll (cs ++ [rhs])) (hm : Moves s t)
    (hlast : Moves t last) (hxs : ∀ x ∈ xs, x ∈ s.stack) (hrep : m.Represents args xs.toList vs)
    (hgives : Gives args m s.draft.nextValue cs rhs v.native) :
    ∃ m', f.Leads args m m' ∧ Running args last t (vs ++ [v]) locals m' := by
  -- A list of computations changes the draft and the top of the stack.
  rw [State.emittedAll_concat] at ht
  have hdraft : t.draft = s.draft.assigned (cs ++ [rhs]) := congrArg State.draft ht
  have hstack : t.stack = xs.push (.result (s.draft.nextValue + cs.length) rhs.type) :=
    congrArg State.stack ht
  have hcurrent : t.draft.current = s.draft.current := by rw [hdraft, current_assigned]
  have hassigns :
      ∀ line ∈ assignments s.draft.nextValue (cs ++ [rhs]), ∃ id r, line = .assign id r :=
    fun line => exists_of_mem_assignments
  -- Their lines are the next ones to run, and what they make are no slots.
  obtain ⟨rest, hrest, hremaining, hmem⟩ := h.next hd hm hlast
    (by rw [hdraft, code_assigned _ hd.sound.numbered hd.sound.current_mem])
    (fun line hline => by obtain ⟨id, r, rfl⟩ := hassigns line hline; rfl)
  obtain ⟨m₁, hfirst, hx⟩ := hgives
  have hall := Machine.computeAll_concat hfirst hx
  obtain ⟨hblock, hmemory, hrest', hvalues⟩ := Machine.computeAll_fields hall
  refine ⟨_, Function.leads_assignments f hrest hall,
    h.made hl hcurrent hmem ?_ (Moves.labels (hm.trans hlast) hd hd.sound.current_mem) hblock ?_
      hmemory hvalues ?_⟩
  · intro line hline id type name heq
    obtain ⟨id', r, rfl⟩ := hassigns line hline
    cases heq
  · rw [hrest', hrest, List.drop_left' (length_assignments _ _)]
    exact hremaining hcurrent
  · -- The operands that stay have smaller numbers than the values that were made.
    rw [hstack, Array.toList_push]
    have hbelow : ∀ x ∈ xs.toList, x.Below s.draft.nextValue := fun x hx =>
      hordered.stack x (hxs x (Array.mem_toList_iff.1 hx))
    refine Machine.Represents.append (hrep.congr hbelow fun id hid => hvalues id ?_) ?_
    · rw [definitions_assignments, List.mem_range']
      rintro ⟨i, -, rfl⟩
      omega
    · have htype := Machine.type_compute hx
      rw [← htype]
      exact .cons (Machine.eval_define_self _ _ _) .nil

/-- A mark makes a value that nothing uses. -/
theorem Running.nop (h : Running args last s stack locals m) (hl : Lowered f last)
    (hd : s.Disciplined) (hordered : s.Ordered) (hm : Moves s s.nop) (hlast : Moves s.nop last) :
    ∃ m', f.Leads args m m' ∧ Running args last s.nop stack locals m' := by
  have hcode : s.nop.draft.code s.draft.current =
      s.draft.code s.draft.current ++ [.nop s.draft.nextValue] := by
    exact hd.sound.toArranged.skipValue.code_append _
  obtain ⟨rest, hrest, hremaining, hmem⟩ := h.next hd hm hlast hcode (by simp [Line.isReturnSlot])
  have hstep : f.step args m =
      some (.next (m.define s.draft.nextValue (.scalar (.int 32 0)) rest)) := by
    simp [Function.step, hrest]
  refine ⟨_, .single hstep, h.made hl rfl hmem (by simp) (Moves.labels (hm.trans hlast) hd
    hd.sound.current_mem) rfl (hremaining rfl) rfl (fun id hid => ?_) ?_⟩
  · exact Function.update_of_ne (by simpa [definitions, Line.defines] using hid) _ _
  · -- The operands on the stack have smaller ids than the new value.
    refine h.stack.congr (fun x hx => hordered.stack x (Array.mem_toList_iff.1 hx)) fun id hid => ?_
    exact Function.update_of_ne (Nat.ne_of_lt hid) _ _

/-- The slot of a local is not that of another one. -/
theorem Lowered.slot_injective (hl : Lowered f last) {i j : Nat} {slot slot' : Slot}
    (hi : last.locals[i]? = some slot) (hj : last.locals[j]? = some slot')
    (hid : slot.id = slot'.id) : i = j := by
  have hentry := hl.disciplined.sound.entry_mem
  have heq := hl.eq_of_defines hentry hentry (hl.slots i slot hi) (hl.slots j slot' hj) rfl
    (congrArg some hid.symm)
  injection heq with _ _ hname
  injection hname

/-- A local is written. -/
theorem Running.writes (h : Running args last s stack locals m) (hl : Lowered f last)
    (hd : s.Disciplined) {index : Nat} {slot : Slot} {x : Operand} {v : Value}
    (hslot : last.locals[index]? = some slot) (hx : m.eval args x = some v.native)
    (htype : v.native.type = slot.type) (hdraft : t.draft = s.draft.append (.store x slot.id))
    (hm : Moves s t) (hlast : Moves t last) (hrep : m.Represents args t.stack.toList vs) :
    ∃ m', f.Leads args m m' ∧ Running args last t vs (locals.set index v) m' := by
  have hcode : t.draft.code s.draft.current =
      s.draft.code s.draft.current ++ [.store x slot.id] := by
    rw [hdraft, hd.sound.toArranged.code_append]
  obtain ⟨rest, hrest, hremaining, hmem⟩ := h.next hd hm hlast hcode (by simp [Line.isReturnSlot])
  have hslot' : last.locals.toList[index]? = some slot := by rwa [Array.getElem?_toList]
  -- There are as many slots as locals, so the local has a value to be replaced.
  obtain ⟨old, hold⟩ : ∃ old, locals[index]? = some old := by
    obtain ⟨hindex, -⟩ := List.getElem?_eq_some_iff.1 hslot'
    exact ⟨_, List.getElem?_eq_getElem (h.stored.locals.length_eq ▸ hindex)⟩
  obtain ⟨htype', haddress, hcells⟩ := h.stored.keeps hslot' hold
  refine ⟨_, @Function.leads_store args m slot.id slot.id 0 x v.native [] [] _ rest f hrest hx
    haddress hcells rfl (htype'.trans htype.symm), ?_, hremaining (by rw [hdraft, current_append]),
    hrep, ?_, ?_⟩
  · rw [hdraft]
    exact h.block
  -- The other slots have other numbers, so that their cells are not written.
  · refine forall₂_set h.stored.locals hslot' ⟨htype, haddress, Function.update_self _ _ _⟩ ?_
    rintro i slot' w hne hi ⟨hw, haddress', hcells'⟩
    rw [Array.getElem?_toList] at hi
    have hid : slot'.id ≠ slot.id := fun hid => hne (hl.slot_injective hi hslot hid)
    exact ⟨hw, haddress', (Function.update_of_ne hid _ _).trans hcells'⟩
  · intro id fields hmem
    -- The slots of returned structures have other numbers.
    have hne : id ≠ slot.id := by
      rintro rfl
      have hentry := hl.disciplined.sound.entry_mem
      cases hl.eq_of_defines hentry hentry hmem (hl.slots index slot hslot) rfl rfl
    obtain ⟨hvalues, hmemory⟩ := h.stored.returns id fields hmem
    exact ⟨hvalues, by rw [← hmemory]; exact congrArg _ (Function.update_of_ne hne _ _)⟩

end Lines

/-! ## Operators without control -/

end Lowering

namespace Config

variable {c : Config} {n results : Nat} {op : Operator} {code : List Operator} {r : Step}

/-- The topmost values can be taken off if there are that many. -/
theorem split_eq_some {below operands : List Value} :
    c.split n = some (below, operands) ↔ n ≤ c.stack.length ∧
      below = c.stack.take (c.stack.length - n) ∧ operands = c.stack.drop (c.stack.length - n) := by
  unfold Config.split
  split
  next h => simp [h, eq_comm]
  next h => simp [h]

/-- What an operator with a value does. -/
theorem step_value (hcode : c.code = op :: code)
    (hop : op.isControl = false) (hnop : op ≠ .nop) (hdrop : op ≠ .drop)
    (hlocal : op.localIndex? = none) (h : c.step results = some r) :
    ∃ v, op.arity ≤ c.stack.length ∧
      op.value (c.stack.drop (c.stack.length - op.arity)) = some v ∧
      r = .next { c with code, stack := c.stack.take (c.stack.length - op.arity) ++ [v] } := by
  rw [Config.step, hcode] at h
  cases op
  case unreachable | block | loop | ifBlock | elseBlock | endBlock | br | ret => cases hop
  case nop => exact absurd rfl hnop
  case drop => exact absurd rfl hdrop
  case localGet | localSet | localTee => cases hlocal
  all_goals
    simp only [Option.bind_eq_bind, Option.bind_eq_some_iff, Option.pure_def] at h
    obtain ⟨⟨below, operands⟩, hsplit, v, hv, h⟩ := h
    obtain ⟨hle, rfl, rfl⟩ := split_eq_some.1 hsplit
    exact ⟨v, hle, hv, (Option.some.inj h).symm⟩

/-- A local is set to the topmost value. -/
private theorem setLocal_eq_some {index : Nat} {stack locals : List Value} :
    c.setLocal index = some (stack, locals) ↔ ∃ v, index < c.locals.length ∧
      c.stack = stack ++ [v] ∧ locals = c.locals.set index v := by
  simp only [Config.setLocal, Option.bind_eq_bind, Option.bind_eq_some_iff]
  constructor
  · rintro ⟨⟨below, operands⟩, hsplit, h⟩
    obtain ⟨hle, hbelow, hoperands⟩ := split_eq_some.1 hsplit
    simp only at h
    split at h
    next v =>
      split at h
      next hindex =>
        obtain ⟨rfl, rfl⟩ := Prod.mk.inj (Option.some.inj h)
        refine ⟨v, hindex, ?_, rfl⟩
        rw [hbelow, hoperands, List.take_append_drop]
      next => cases h
    next => cases h
  · rintro ⟨v, hindex, hstack, rfl⟩
    refine ⟨(stack, [v]), split_eq_some.2 ?_, by simp [hindex]⟩
    simp [hstack]

end Config

/-- Operators that compute a value leave the constructs alone. -/
theorem Operator.isControl_of_isComputation {op : Operator} (h : op.isComputation = true) :
    op.isControl = false := by
  cases op with
  | unreachable | block | loop | ifBlock | elseBlock | endBlock | br | ret => cases h
  | _ => rfl

namespace Lowering

open Draft Validation

/-- A valid operator takes as many operands as it has a value on. -/
private theorem length_of_value {body : BodyTypes} {op : Operator} {ins outs : List ValueType}
    {vs : List Value} {v : Value} (ht : HasType body op ins outs) (hv : op.value vs = some v) :
    ins.length = vs.length := by
  unfold Operator.value at hv
  -- The operators with a value are those of a signature, and drop and select have none.
  split at hv <;> first | cases hv | skip
  all_goals
    cases ht with
    | of h =>
      simp only [BodyTypes.signature, Operator.signature] at h
      grind
    | _ => rfl

section Plain

variable {args : List Scalar} {f : Ssa.Function} {body : BodyTypes} {result : NativeType}
  {last s t : State} {op : Operator} {code : List Operator} {results : Nat} {c c' : Config}
  {m : Machine} {stack locals : List Value} {v : Value}

/-- An operator that consists of computations gives its value. -/
private theorem computation_runs (hl : Lowered f last) (hat : At body result last (op :: code) s)
    (live : s.phase = .live) (hop : op.isComputation = true) (hlower : s.lower op = .ok t)
    (hm : Moves s t) (hlast : Moves t last) (hrun : Running args last s stack locals m)
    (hle : op.arity ≤ stack.length)
    (hv : op.value (stack.drop (stack.length - op.arity)) = some v) :
    ∃ m', f.Leads args m m' ∧
      Running args last t (stack.take (stack.length - op.arity) ++ [v]) locals m' := by
  have hplain := Operator.isControl_of_isComputation hop
  -- The body was validated, so the operands are there and the computations fit them.
  obtain ⟨ins, outs, xs, operands, htype, hstack, hbase, hoperands, -⟩ := hat.operands live hplain
  obtain ⟨cs, rhs, out, hcs, -, -⟩ := computations_typed hop htype hoperands s.draft.nextValue
  have hlower' : s.lower op = .ok ((s.restacked xs.toArray).emittedAll (cs ++ [rhs])) :=
    (lower_eq_ok_iff hop).2 ⟨xs.toArray, operands, _, hstack, hbase, hcs, rfl⟩
  have hlen : operands.length = op.arity := by
    rw [hoperands.length_eq, length_of_value htype hv, List.length_drop]
    omega
  obtain ⟨hxs, hrep⟩ := (hstack ▸ hrun.stack).split hlen
  have hmem : ∀ a ∈ xs ++ operands, a ∈ s.stack := fun a ha =>
    Array.mem_toList_iff.1 (hstack ▸ ha)
  have hgives := computations_value htype hoperands hcs hrep
    (fun a ha => hat.ordered.stack a (hmem a (List.mem_append_right _ ha))) hv
  exact hrun.computes hl hat.disciplined hat.ordered (Except.ok.inj (hlower.symm.trans hlower')) hm
    hlast (fun x hx => hmem x (List.mem_append_left _ (List.mem_toArray.1 hx))) hxs hgives

private theorem const_runs (hat : At body result last (op :: code) s) {x : Operand}
    (hx : m.eval args x = some v.native) (hlower : s.lower op = .ok (s.push x))
    (ht : s.lower op = .ok t) (hm : Moves s t) (hlast : Moves t last)
    (hrun : Running args last s stack locals m) :
    Running args last t (stack ++ [v]) locals m := by
  obtain rfl := Except.ok.inj (hlower.symm.trans ht)
  refine hrun.restack hat.disciplined hm hlast rfl rfl ?_
  rw [State.push, Array.toList_push]
  exact hrun.stack.append (.cons hx .nil)

/-- A local is read. -/
private theorem localGet_runs (hl : Lowered f last) (hat : At body result last (op :: code) s)
    {index : UInt32} (hlower : s.localGet index = .ok t) (hm : Moves s t) (hlast : Moves t last)
    (hrun : Running args last s stack locals m) (hv : locals[index.toNat]? = some v) :
    ∃ m', f.Leads args m m' ∧ Running args last t (stack ++ [v]) locals m' := by
  rw [State.localGet] at hlower
  split at hlower
  · cases hlower
  next slot hslot =>
    obtain rfl := Except.ok.inj hlower
    -- The slots are those of the end of the lowering, since all of them were made at its start.
    have hslot' : last.locals.toList[index.toNat]? = some slot := by
      rw [Array.getElem?_toList, ← hat.locals, hslot]
    obtain ⟨htype, haddress, hcells⟩ := hrun.stored.keeps hslot' hv
    have hcell : m.cell slot.id = some (.holding v.native) := by
      simp [Machine.cell, haddress, hcells]
    have hx : m.compute args (.load slot.type slot.id) = some v.native := by
      rw [← htype]
      exact Machine.compute_load hcell rfl
    exact @Running.computes args f last s _ m stack locals stack hrun hl hat.disciplined
      hat.ordered s.stack [] (.load slot.type slot.id) v rfl hm hlast (fun _ hx => hx) hrun.stack
      ⟨m, rfl, hx⟩

/-- What is written to a local is of the type of the local's slot. -/
theorem At.written (hat : At body result last (op :: code) s) (live : s.phase = .live)
    {index : UInt32} (hop : op = .localSet index ∨ op = .localTee index) {slot : Slot}
    (hslot : s.locals[index.toNat]? = some slot) {xs : Array Operand} {x : Operand}
    (hstack : s.stack = xs.push x) : x.type = slot.type := by
  have hplain : op.isControl = false := by obtain rfl | rfl := hop <;> rfl
  obtain ⟨ins, outs, ys, operands, htype, hstack', -, hoperands, hslots⟩ :=
    hat.operands live hplain
  -- Either operator takes one operand, of the type of the local.
  obtain ⟨type, hlocal, rfl⟩ : ∃ type, body.locals[index.toNat]? = some type ∧ ins = [type] := by
    obtain rfl | rfl := hop <;> cases htype with
    | of h =>
      obtain ⟨type, hlocal, h⟩ := Option.map_eq_some_iff.1 h
      exact ⟨type, hlocal, (congrArg Prod.fst h).symm⟩
  obtain ⟨slot', hslot', hscalar⟩ := hslots.get hlocal
  obtain rfl := Option.some.inj (hslot.symm.trans hslot')
  obtain ⟨y, rfl, hy⟩ := hoperands.unary
  rw [hstack, Array.toList_push] at hstack'
  obtain ⟨-, hlast⟩ := List.append_inj' hstack' rfl
  obtain rfl := List.singleton_inj.1 hlast
  exact Except.ok.inj (hy.symm.trans hscalar)

/-- The topmost operand is written to a local, whatever stays on the stack. -/
private theorem write_runs (hl : Lowered f last) (hat : At body result last (op :: code) s)
    (live : s.phase = .live) {index : UInt32}
    (hop : op = .localSet index ∨ op = .localTee index) {slot : Slot}
    (hslot : s.locals[index.toNat]? = some slot) {xs : Array Operand} {x : Operand}
    (hstack : s.stack = xs.push x) (hdraft : t.draft = s.draft.append (.store x slot.id))
    (hm : Moves s t) (hlast : Moves t last) (hrun : Running args last s (stack ++ [v]) locals m)
    {kept : List Value} (hrep : m.Represents args t.stack.toList kept) :
    ∃ m', f.Leads args m m' ∧ Running args last t kept (locals.set index.toNat v) m' := by
  have hpush : m.Represents args (xs.toList ++ [x]) (stack ++ [v]) := by
    rw [← Array.toList_push, ← hstack]
    exact hrun.stack
  have hx := hpush.concat.2
  have htype : v.native.type = slot.type :=
    (Machine.type_eval hx).trans (hat.written live hop hslot hstack)
  exact hrun.writes hl hat.disciplined (hat.locals ▸ hslot) hx htype hdraft hm hlast hrep

/-- Writing a local takes its value from the stack. -/
private theorem localSet_runs (hl : Lowered f last) {index : UInt32}
    (hat : At body result last (.localSet index :: code) s) (live : s.phase = .live)
    (hlower : s.localSet index = .ok t) (hm : Moves s t) (hlast : Moves t last)
    (hrun : Running args last s (stack ++ [v]) locals m) :
    ∃ m', f.Leads args m m' ∧ Running args last t stack (locals.set index.toNat v) m' := by
  rw [State.localSet] at hlower
  split at hlower
  · cases hlower
  next slot hslot =>
    obtain ⟨⟨x, u⟩, hpop, hlower⟩ := bind_eq_ok.1 hlower
    obtain ⟨xs, hstack, -, rfl⟩ := State.pop_eq_ok.1 hpop
    obtain rfl := Except.ok.inj hlower
    have hpush : m.Represents args (xs.toList ++ [x]) (stack ++ [v]) := by
      rw [← Array.toList_push, ← hstack]
      exact hrun.stack
    exact write_runs hl hat live (.inl rfl) hslot hstack rfl hm hlast hrun hpush.concat.1

/-- Writing a local may leave its value on the stack. -/
private theorem localTee_runs (hl : Lowered f last) {index : UInt32}
    (hat : At body result last (.localTee index :: code) s) (live : s.phase = .live)
    (hlower : s.localTee index = .ok t) (hm : Moves s t) (hlast : Moves t last)
    (hrun : Running args last s (stack ++ [v]) locals m) :
    ∃ m', f.Leads args m m' ∧ Running args last t (stack ++ [v]) (locals.set index.toNat v) m' := by
  rw [State.localTee] at hlower
  split at hlower
  · cases hlower
  next slot hslot =>
    obtain ⟨x, hpeek, hlower⟩ := bind_eq_ok.1 hlower
    obtain ⟨xs, hstack, -⟩ := State.peek_eq_ok.1 hpeek
    obtain rfl := Except.ok.inj hlower
    exact write_runs hl hat live (.inr rfl) hslot hstack rfl hm hlast hrun hrun.stack

/-- An operand is dropped. -/
private theorem drop_runs (hat : At body result last (op :: code) s) (hlower : s.drop = .ok t)
    (hm : Moves s t) (hlast : Moves t last) (hrun : Running args last s stack locals m) :
    Running args last t (stack.take (stack.length - 1)) locals m := by
  obtain ⟨⟨x, u⟩, hpop, hlower⟩ := bind_eq_ok.1 hlower
  obtain ⟨xs, hstack, -, rfl⟩ := State.pop_eq_ok.1 hpop
  obtain rfl := Except.ok.inj hlower
  have hpush : m.Represents args (xs.toList ++ [x]) stack := by
    rw [← Array.toList_push, ← hstack]
    exact hrun.stack
  exact hrun.restack hat.disciplined hm hlast rfl rfl (hpush.split rfl).1

/-- An operator with a value gives this value. -/
private theorem value_runs (hl : Lowered f last) (hat : At body result last (op :: code) s)
    (live : s.phase = .live) (hlower : s.lower op = .ok t)
    (hm : Moves s t) (hlast : Moves t last) (hrun : Running args last s stack locals m)
    (hle : op.arity ≤ stack.length)
    (hv : op.value (stack.drop (stack.length - op.arity)) = some v) :
    ∃ m', f.Leads args m m' ∧
      Running args last t (stack.take (stack.length - op.arity) ++ [v]) locals m' := by
  by_cases hop : op.isComputation = true
  · exact computation_runs hl hat live hop hlower hm hlast hrun hle hv
  -- Other than by computations, values come from constants only.
  have hconst : ∀ x : Operand, m.eval args x = some v.native → s.lower op = .ok (s.push x) →
      op.arity = 0 → ∃ m', f.Leads args m m' ∧
        Running args last t (stack.take (stack.length - op.arity) ++ [v]) locals m' := by
    intro x hx hpush harity
    rw [harity, Nat.sub_zero, List.take_length]
    exact ⟨m, .refl, const_runs hat hx hpush hlower hm hlast hrun⟩
  generalize stack.drop (stack.length - op.arity) = operands at hv
  unfold Operator.value at hv
  split at hv
  -- The first two cases are the constants of integers; floats have no value here.
  case h_1 a =>
    obtain rfl := Option.some.inj hv
    exact hconst _ (by simp [Machine.eval_int, Value.native]) rfl rfl
  case h_2 a =>
    obtain rfl := Option.some.inj hv
    exact hconst _ (by simp [Machine.eval_int, Value.native]) rfl rfl
  case h_14 => cases hv
  all_goals exact absurd rfl hop

/-- The lines of an operator without control do what the operator does. -/
theorem plain_runs (hl : Lowered f last) (hat : At body result last (op :: code) s)
    (live : s.phase = .live) (hop : op.isControl = false) (hcode : c.code = op :: code)
    (hrun : Running args last s c.stack c.locals m) (hstep : c.step results = some (.next c')) :
    ∃ t m', s.step op = .ok t ∧ At body result last code t ∧ c'.code = code ∧
      c'.labels = c.labels ∧ f.Leads args m m' ∧ Running args last t c'.stack c'.locals m' := by
  obtain ⟨t, ht, hat'⟩ := hat.step
  have hm := step_moves hat.framed ht
  have hlast := hat'.moves
  have hlower : s.lower op = .ok t := by
    rw [State.step, live] at ht
    exact ht
  suffices c'.code = code ∧ c'.labels = c.labels ∧
      ∃ m', f.Leads args m m' ∧ Running args last t c'.stack c'.locals m' by
    obtain ⟨hcode', hlabels, m', hleads, hrun'⟩ := this
    exact ⟨t, m', ht, hat', hcode', hlabels, hleads, hrun'⟩
  -- The operators on the stack and on the locals come first.
  cases op with
  | nop =>
    rw [Config.step, hcode] at hstep
    obtain rfl := Config.Step.next.inj (Option.some.inj hstep)
    obtain rfl : s.nop = t := Except.ok.inj hlower
    exact ⟨rfl, rfl, hrun.nop hl hat.disciplined hat.ordered hm hlast⟩
  | drop =>
    rw [Config.step, hcode] at hstep
    simp only [Option.bind_eq_bind, Option.bind_eq_some_iff, Option.pure_def] at hstep
    obtain ⟨⟨below, top⟩, hsplit, hstep⟩ := hstep
    obtain ⟨-, rfl, -⟩ := Config.split_eq_some.1 hsplit
    obtain rfl := Config.Step.next.inj (Option.some.inj hstep)
    exact ⟨rfl, rfl, m, .refl, drop_runs hat hlower hm hlast hrun⟩
  | localGet index =>
    rw [Config.step, hcode] at hstep
    simp only [Option.bind_eq_bind, Option.bind_eq_some_iff, Option.pure_def] at hstep
    obtain ⟨v, hv, hstep⟩ := hstep
    obtain rfl := Config.Step.next.inj (Option.some.inj hstep)
    exact ⟨rfl, rfl, localGet_runs hl hat hlower hm hlast hrun hv⟩
  | localSet index =>
    rw [Config.step, hcode] at hstep
    simp only [Option.bind_eq_bind, Option.bind_eq_some_iff, Option.pure_def] at hstep
    obtain ⟨⟨stack, locals⟩, hset, hstep⟩ := hstep
    obtain ⟨v, -, hstack, rfl⟩ := Config.setLocal_eq_some.1 hset
    obtain rfl := Config.Step.next.inj (Option.some.inj hstep)
    exact ⟨rfl, rfl, localSet_runs hl hat live hlower hm hlast (hstack ▸ hrun)⟩
  | localTee index =>
    rw [Config.step, hcode] at hstep
    simp only [Option.bind_eq_bind, Option.bind_eq_some_iff, Option.pure_def] at hstep
    obtain ⟨⟨stack, locals⟩, hset, hstep⟩ := hstep
    obtain ⟨v, -, hstack, rfl⟩ := Config.setLocal_eq_some.1 hset
    obtain rfl := Config.Step.next.inj (Option.some.inj hstep)
    refine ⟨rfl, rfl, ?_⟩
    simp only [hstack] at hrun ⊢
    exact localTee_runs hl hat live hlower hm hlast hrun
  | _ =>
    -- All other operators have a value.
    obtain ⟨v, hle, hv, hnext⟩ := Config.step_value hcode hop (by simp) (by simp) rfl hstep
    obtain rfl := Config.Step.next.inj hnext
    exact ⟨rfl, rfl, value_runs hl hat live hlower hm hlast hrun hle hv⟩

end Plain
end Lowering

end WasmLowering
