import WasmLowering.Proofs.StraightLine

/-!
# Branches

A branch goes to a block that stands where the lowering went on, now or later. The first block of an
arm or of a loop has no phis, and its lines are those that the lowering appended to it. The end
block of a construct starts with the phis of the construct's results. On the edge that a branch
added, they take the values that the branch takes along.

## Key results

- `Lowered.enter_start`, `Lowered.enter_join`: what it is to enter a block
- `arrive`: the lines of a new block are run from its first one
- `Joins`: how the end block of a construct looks from a branch to it
- `Running.jump`: a branch to the end of a construct takes its results along
-/

namespace WasmLowering.Ssa

/-! ## Phis -/

/-- Consecutive numbers for a list of values. -/
def numbered (first : ValueId) : List Scalar → List (ValueId × Scalar)
  | [] => []
  | x :: xs => (first, x) :: numbered (first + 1) xs

section Assign

variable {args : List Scalar} {values : ValueId → Option Datum}

/-- Other values stay. -/
private theorem assign_numbered_of_notMem (first : Nat) (xs : List Scalar) {id : Nat}
    (h : id < first ∨ first + xs.length ≤ id) :
    Machine.assign values (numbered first xs) id = values id := by
  induction xs generalizing first values with
  | nil => rfl
  | cons x xs ih =>
    rw [List.length_cons] at h
    have hlater : id < first + 1 ∨ first + 1 + xs.length ≤ id := by omega
    have hne : id ≠ first := by omega
    rw [numbered, Machine.assign, ih (first + 1) hlater, Function.update_of_ne hne]

/-- The operands with these numbers have these values. -/
private theorem eval_assign_numbered (first : ValueId) (xs : List Scalar) :
    List.Forall₂ (fun phi x => phi.eval args (Machine.assign values (numbered first xs)) = some x)
      (phiValues first (xs.map Scalar.type)) xs := by
  induction xs generalizing first values with
  | nil => exact .nil
  | cons x xs ih =>
    refine .cons ?_ (ih (first + 1))
    have hfirst : Machine.assign values (numbered first (x :: xs)) first = some (.scalar x) := by
      rw [numbered, Machine.assign,
        assign_numbered_of_notMem (first + 1) xs (.inl (Nat.lt_succ_self first)),
        Function.update_self]
    simp [Operand.eval, hfirst]

end Assign

/-- The lines of a block without phis are left when its phis are dropped. -/
theorem NoPhis.dropWhile {lines : List Line} (h : NoPhis lines) :
    lines.dropWhile Line.isPhi = lines := by
  cases lines with
  | nil => rfl
  | cons line lines => exact List.dropWhile_cons_of_neg (by simp [h line List.mem_cons_self])

/-- The values that the phis of a construct define. -/
private theorem definitions_phis {phis : List Line} {first : ValueId} {types : List ScalarType}
    (h : List.Forall₂ (fun line phi => line.phiValue = some phi) phis (phiValues first types)) :
    definitions phis = List.range' first types.length := by
  induction types generalizing phis first with
  | nil =>
    cases h
    rfl
  | cons type types ih =>
    rw [phiValues] at h
    obtain ⟨line, phis, hline, hlater, rfl⟩ := List.forall₂_cons_right_iff.1 h
    -- Every line defines the value of its phi.
    have hdefines : line.defines = some first := by
      cases line with
      | phi id type' edges =>
        obtain ⟨rfl, -⟩ : id = first ∧ type' = type := by simpa [Line.phiValue] using hline
        rfl
      | _ => cases hline
    rw [definitions, List.filterMap_cons_some hdefines, List.length_cons, List.range'_succ]
    exact congrArg _ (ih hlater)

/-- Each line of a list of phis has its value. -/
theorem OnlyPhis.forall₂_phiValue {lines : List Line} (h : OnlyPhis lines) :
    List.Forall₂ (fun line phi => line.phiValue = some phi) lines
      (lines.filterMap Line.phiValue) := by
  induction lines with
  | nil => exact .nil
  | cons line lines ih =>
    have hline := h line List.mem_cons_self
    cases line with
    | phi id type edges =>
      exact .cons rfl (ih fun line hl => h line (List.mem_cons_of_mem _ hl))
    | _ => cases hline

/-- Lines that have the value of a phi are phis. -/
private theorem onlyPhis_of_phiValue {phis : List Line} {results : List Operand}
    (h : List.Forall₂ (fun line phi => line.phiValue = some phi) phis results) : OnlyPhis phis := by
  refine ((List.forall₂_and_left phis results).1 (h.imp fun line phi hphi => ⟨?_, hphi⟩)).1
  cases line with
  | phi => rfl
  | _ => cases hphi

/-- A branch adds its edge to every phi. -/
private theorem edges_routeEdges {source : Label} {values : List Operand} {lines : List Line}
    (honly : OnlyPhis lines) (hlen : lines.length = values.length) :
    List.Forall₂ (fun line value => (value, source) ∈ line.edges)
      (routeEdges source values lines) values := by
  induction lines generalizing values with
  | nil =>
    obtain rfl := List.length_eq_zero_iff.1 hlen.symm
    exact .nil
  | cons line lines ih =>
    obtain ⟨value, values, rfl⟩ := List.exists_cons_of_length_eq_add_one hlen.symm
    refine .cons ?_ (ih (fun line hl => honly line (List.mem_cons_of_mem _ hl))
      (Nat.succ.inj hlen))
    rw [Line.edges_addEdge (honly line List.mem_cons_self)]
    exact List.mem_append_right _ (List.mem_singleton_self _)

/-- Phis that gain edges keep those that they have. -/
private theorem edges_of_lineGrown {source : Label} {values : List Operand} {xs ys : List Line}
    (h : List.Forall₂ LineGrown xs ys)
    (hedges : List.Forall₂ (fun line value => (value, source) ∈ line.edges) xs values) :
    List.Forall₂ (fun line value => (value, source) ∈ line.edges) ys values := by
  induction h generalizing values with
  | nil => exact hedges
  | cons hgrown _ ih =>
    obtain ⟨value, values, hedge, hlater, rfl⟩ := List.forall₂_cons_left_iff.1 hedges
    exact .cons (hgrown.edges_prefix.subset hedge) (ih hlater)

/-- The edge that a phi has from a block, if it has one only. -/
private theorem find_edge {edges : List (Operand × Label)} (hnodup : (edges.map Prod.snd).Nodup)
    {value : Operand} {source : Label} (h : (value, source) ∈ edges) :
    edges.find? (·.2 = source) = some (value, source) := by
  induction edges with
  | nil => cases h
  | cons edge edges ih =>
    rw [List.map_cons, List.nodup_cons] at hnodup
    obtain rfl | h := List.mem_cons.1 h
    · simp
    -- The edge is a later one, so the first one comes from another block.
    · have hne : edge.2 ≠ source := fun heq => hnodup.1 (heq ▸ List.mem_map_of_mem h)
      rw [List.find?_cons_of_neg (by simpa using hne)]
      exact ih hnodup.2 h

/-- Phis take the values of their edges from the block that control comes from. -/
theorem Machine.incoming_phis {args : List Scalar} {m : Machine} {phis rest : List Line}
    {first : ValueId} {values : List Operand} {xs : List Scalar}
    (hphis : List.Forall₂ (fun line phi => line.phiValue = some phi) phis
      (phiValues first (xs.map Scalar.type)))
    (hedges : List.Forall₂ (fun line value => (value, m.block) ∈ line.edges) phis values)
    (hnodup : ∀ line ∈ phis, (line.edges.map Prod.snd).Nodup)
    (hrest : ∀ line ∈ rest, line.isPhi = false)
    (hvalues : List.Forall₂ (fun value x => m.eval args value = some x) values xs) :
    m.incoming args (phis ++ rest) = some (numbered first xs) := by
  -- Every phi takes one of the values, from its edge for the block that is left.
  induction hvalues generalizing phis first with
  | nil =>
    cases hedges
    cases rest with
    | nil => rfl
    | cons line rest =>
      have hline := hrest line List.mem_cons_self
      cases line with
      | phi => cases hline
      | _ => rfl
  | @cons value x values xs hx hvalues ih =>
    obtain ⟨line, phis, hedge, hlater, rfl⟩ := List.forall₂_cons_right_iff.1 hedges
    rw [List.map_cons, phiValues] at hphis
    obtain ⟨hline, hphis'⟩ := List.forall₂_cons.1 hphis
    cases line with
    | phi id type edges =>
      obtain ⟨rfl, rfl⟩ : id = first ∧ type = x.type := by simpa [Line.phiValue] using hline
      have hfind := find_edge (hnodup _ List.mem_cons_self) hedge
      have hvalues' := ih hphis' hlater fun line hl => hnodup line (List.mem_cons_of_mem _ hl)
      rw [List.cons_append, Machine.incoming]
      simp only [Line.edges] at hfind
      simp [hfind, hx, hvalues', numbered]
    | _ => cases hline

/-- A branch enters its target. -/
theorem Function.leads_br (f : Function) {args : List Scalar} {m m' : Machine} {target : Label}
    {rest : List Line} (hrest : m.rest = .br target :: rest)
    (henter : f.enter args m target = some m') : f.Leads args m m' := by
  refine .single ?_
  rw [Function.step, hrest]
  simp [henter]

/-- A conditional branch enters one of its targets. -/
theorem Function.leads_condBr (f : Function) {args : List Scalar} {m m' : Machine}
    {condition : Operand} {ifTrue ifFalse : Label} {rest : List Line} {b : Bool}
    (hrest : m.rest = .condBr condition ifTrue ifFalse :: rest)
    (hcondition : m.eval args condition = some (.int 1 (BitVec.ofBool b)))
    (henter : f.enter args m (if b then ifTrue else ifFalse) = some m') : f.Leads args m m' := by
  refine .single ?_
  rw [Function.step, hrest]
  -- Which of the targets is entered is a matter of the condition.
  cases b with
  | false =>
    rw [if_neg Bool.false_ne_true] at henter
    simp [hcondition, henter]
  | true =>
    rw [if_pos rfl] at henter
    simp [hcondition, henter]

end WasmLowering.Ssa

namespace WasmLowering.Lowering

open Ssa Draft Validation

/-! ## Entering a block -/

section Enter

variable {args : List Scalar} {f : Ssa.Function} {last : State} {m : Machine} {l : Label}

/-- Every block of the draft is found in the finished function. -/
theorem Lowered.find_block (hl : Lowered f last) (hmem : l ∈ last.draft.labels) :
    ∃ b, f.blocks.find? (·.label = l) = some b ∧ b.lines.toList = last.draft.code l := by
  have hn := hl.disciplined.sound.numbered
  have hex : ∃ b ∈ f.blocks, b.label = l := by
    have hlayout : l ∈ last.draft.finish.map Block.label := by
      obtain ⟨b, hb, rfl⟩ := List.mem_map.1 hmem
      exact List.mem_map_of_mem ((perm_finish hn).mem_iff.2 hb)
    -- Blocks are put in another order at the end, but none is lost.
    obtain ⟨b, hb, rfl⟩ := List.mem_map.1 hlayout
    exact ⟨b, hl.blocks ▸ hb, rfl⟩
  have hsome : (f.blocks.find? (·.label = l)).isSome := by simpa using hex
  obtain ⟨b, hfind⟩ := Option.isSome_iff_exists.1 hsome
  have hlabel : b.label = l := by simpa using List.find?_some hfind
  have hb : b ∈ last.draft.finish := hl.blocks ▸ List.mem_of_find?_eq_some hfind
  exact ⟨b, hfind, hlabel ▸ ((mem_finish hn).1 hb).2⟩

/-- A block without phis is entered with all values as they are. -/
theorem Lowered.enter_start (hl : Lowered f last) (hmem : l ∈ last.draft.labels)
    (hphis : NoPhis (last.draft.code l)) :
    f.enter args m l = some { m with block := l, rest := last.draft.code l } := by
  obtain ⟨b, hfind, hlines⟩ := hl.find_block hmem
  have hincoming : m.incoming args ([] ++ last.draft.code l) = some [] :=
    @Machine.incoming_phis args m [] _ 0 [] [] .nil .nil (by simp) hphis .nil
  rw [List.nil_append] at hincoming
  simp [Function.enter, hfind, hlines, hincoming, hphis.dropWhile, Machine.assign]

/-- The end block of a construct is entered with the values on the edge taken. -/
theorem Lowered.enter_join (hl : Lowered f last) (hmem : l ∈ last.draft.labels)
    {phis rest : List Line} (hcode : last.draft.code l = phis ++ rest) (hrest : NoPhis rest)
    {first : ValueId} {values : List Operand} {xs : List Scalar}
    (hphis : List.Forall₂ (fun line phi => line.phiValue = some phi) phis
      (phiValues first (xs.map Scalar.type)))
    (hedges : List.Forall₂ (fun line value => (value, m.block) ∈ line.edges) phis values)
    (hvalues : List.Forall₂ (fun value x => m.eval args value = some x) values xs) :
    f.enter args m l = some { m with
      block := l, rest, values := Machine.assign m.values (numbered first xs) } := by
  obtain ⟨b, hfind, hlines⟩ := hl.find_block hmem
  have hisPhi : ∀ line ∈ phis, line.isPhi = true := onlyPhis_of_phiValue hphis
  have hnodup : ∀ line ∈ phis, (line.edges.map Prod.snd).Nodup := fun line hline =>
    (hl.disciplined.sound.edges l hmem line (by simp [hcode, hline]) (hisPhi line hline)).1
  have hincoming := Machine.incoming_phis hphis hedges hnodup hrest hvalues
  have hdrop : (phis ++ rest).dropWhile Line.isPhi = rest := by
    rw [List.dropWhile_append_of_pos hisPhi, hrest.dropWhile]
  simp [Function.enter, hfind, hlines, hcode, hincoming, hdrop]

end Enter

/-! ## New blocks -/

section Arrive

variable {args : List Scalar} {f : Ssa.Function} {last v : State} {m : Machine}
  {stack locals : List Value}

/-- The lines of a block that was just begun are run from the first one on. -/
theorem arrive (hl : Lowered f last) (hd : v.Disciplined) (hlast : Moves v last)
    (hempty : v.draft.code v.draft.current = []) (hrole : v.draft.current.role.joins = false)
    (hne : v.draft.current ≠ entryLabel) (hrep : m.Represents args v.stack.toList stack)
    (hstored : Stored last last.locals.toList locals m) :
    ∃ m', f.enter args m v.draft.current = some m' ∧ Running args last v stack locals m' := by
  have hmem := Moves.labels hlast hd hd.sound.current_mem
  refine ⟨_, hl.enter_start hmem (hl.disciplined.sound.noPhis _ hmem hrole), rfl, ?_, hrep,
    hstored.of_values hl.isSlot rfl fun _ _ => rfl⟩
  -- Once placed, the block is extended at its end only.
  obtain ⟨back, hcode, hback⟩ := (Moves.extended hlast hd hd.sound.current_mem
    hd.current_not_waiting).append hne
  rw [hempty, List.nil_append] at hcode
  exact ⟨[], by rw [hempty]; rfl, by simp, hcode ▸ hback⟩

end Arrive

/-! ## End blocks -/

/-- The state `v` follows the construct `c`, and a branch from the insertion block of `s` to the end
    of `c` takes these values along. -/
structure Joins (last s : State) (c : Construct) (values : List Operand) (v : State) : Prop where
  current : v.draft.current = c.exit
  stack : v.stack.toList = s.stack.toList.take c.base ++ c.results
  phis : ∃ phis rest, last.draft.code c.exit = phis ++ rest ∧ Remaining v last rest ∧
    List.Forall₂ (fun line phi => line.phiValue = some phi) phis c.results ∧
    List.Forall₂ (fun line value => (value, s.draft.current) ∈ line.edges) phis values

section Joins

variable {last s t u v : State} {c c' : Construct} {outer : List Construct} {values : Array Operand}
  {source target : Label}

/-- Branches are never taken back. -/
theorem Move.branches_mono (hm : Move s t) (hd : s.Disciplined)
    (h : s.draft.Branches source target) : t.draft.Branches source target := by
  obtain ⟨hadds, -⟩ | ⟨depth, c, rest, other, params, -, -, -, -, rfl⟩ |
    ⟨depth, c, rest, -, top, -, -, rfl⟩ := hm.shape hd
  · exact hadds.branches_mono h
  · exact h
  · exact (branches_left hd top).2 h

/-- Branches are never taken back along a sequence of moves. -/
theorem Moves.branches_mono (hm : Moves s t) (hd : s.Disciplined)
    (h : s.draft.Branches source target) : t.draft.Branches source target := by
  induction hm with
  | refl => exact h
  | tail hms hm ih => exact hm.branches_mono (Moves.disciplined hms hd) ih

/-- The code of the end block after a branch to it. -/
private theorem code_jumped (hd : s.Disciplined) (mem : c ∈ s.constructs) :
    (s.jumped c.exit values).draft.code c.exit =
      routeEdges s.draft.current values.toList (s.draft.code c.exit) := by
  have ha := hd.sound.toArranged
  have hexit := hd.mem_labels mem c.exit_mem_blocks
  have hne : c.exit ≠ s.draft.current := ha.current_ne (State.exit_mem_waiting mem)
  simp only [State.jumped]
  rw [code_jump values ha.numbered ha.current_mem hexit hne hexit, if_neg hne, if_pos rfl]

/-- The insertion block after a branch out of it. -/
theorem code_current_jumped (hd : s.Disciplined) (mem : c ∈ s.constructs) :
    (s.jumped c.exit values).draft.code s.draft.current =
      s.draft.code s.draft.current ++ [.br c.exit] := by
  have ha := hd.sound.toArranged
  have hexit := hd.mem_labels mem c.exit_mem_blocks
  have hne : c.exit ≠ s.draft.current := ha.current_ne (State.exit_mem_waiting mem)
  simp only [State.jumped]
  rw [code_jump values ha.numbered ha.current_mem hexit hne ha.current_mem, if_pos rfl]

/-- The state after a construct joins all branches to the construct's end. -/
theorem joins_left (hd : s.Disciplined) (hf : s.Framed) (mem : c ∈ s.constructs)
    (harity : values.size = c.results.length) (hmove : Move s (s.jumped c.exit values))
    (hm : Moves (s.jumped c.exit values) u) (htop : u.constructs = c' :: outer)
    (hexit : c'.exit = c.exit) (hleft : (u.left c' outer).Disciplined)
    (hlast : Moves (u.left c' outer) last) :
    Joins last s c values.toList (u.left c' outer) := by
  have hd₁ := hmove.disciplined hd
  have hdu := Moves.disciplined hm hd₁
  have hc' : c' ∈ u.constructs := by
    rw [htop]
    exact List.mem_cons_self
  obtain ⟨hresults, hbase, hstack, hgrown⟩ :=
    Moves.stays_open hm hd₁ (hmove.framed hf) mem hc' hexit
  have hwait : c.exit ∈ u.waiting := hexit ▸ State.exit_mem_waiting hc'
  have hne : c.exit ≠ entryLabel := hdu.sound.entry_ne hwait
  have hmem : c.exit ∈ u.draft.labels := hdu.sound.waiting_mem _ hwait
  have hbranch : u.draft.Branches s.draft.current c'.exit := by
    refine Moves.branches_mono hm hd₁ ⟨by simpa [State.jumped] using hd.sound.current_mem, ?_⟩
    rw [code_current_jumped hd mem, hexit]
    simp [Line.targets]
  obtain ⟨hafter, hcode⟩ := results_of_branch hdu hc' hbranch
  -- The end block waits until here, so it has nothing but its phis.
  have honly := hdu.sound.onlyPhis _ hwait
  have hleftcode : (u.left c' outer).draft.code c.exit = u.draft.code c.exit := by
    rw [code_left hdu htop hmem, if_pos hexit.symm, ← hexit, hcode]
  refine ⟨hexit, ?_, u.draft.code c.exit, ?_⟩
  · rw [toList_left, hbase, hstack, hafter, hresults]
    rfl
  -- From here on it is the insertion block, which gets its lines behind the phis.
  obtain ⟨back, hback, hplain⟩ := (Moves.extended hlast hleft (by simpa [State.left] using hmem)
    (hexit ▸ exit_not_waiting_left hdu htop)).append hne
  rw [hleftcode] at hback
  refine ⟨back, hback, ⟨[], ?_, by simp, hplain⟩, ?_, ?_⟩
  · show last.draft.code c'.exit = [] ++ (u.left c' outer).draft.code c'.exit ++ back
    rw [hexit, hleftcode, hback, List.nil_append]
  · have hphis := honly.forall₂_phiValue
    have hjoined := hdu.exits c' hc'
    rw [hexit, hresults] at hjoined
    exact hjoined ▸ hphis
  -- The phis of the end block gained edges since the branch, and lost none.
  · obtain ⟨front, middle, back', hu, hfront, -, hmiddle, hback'⟩ := hgrown
    obtain rfl : front = [] := by
      by_contra h
      exact hne (hfront h)
    obtain rfl : back' = [] := by
      refine List.eq_nil_iff_forall_not_mem.2 fun line hline => ?_
      have hphi := honly line (by rw [hu]; exact List.mem_append_right _ hline)
      rw [(hback' line hline).1] at hphi
      cases hphi
    rw [List.nil_append, List.append_nil] at hu
    rw [code_jumped hd mem] at hmiddle
    rw [hu]
    refine edges_of_lineGrown hmiddle (edges_routeEdges ?_ ?_)
    · exact hd.sound.onlyPhis _ (State.exit_mem_waiting mem)
    · rw [hd.length_exit mem, Array.length_toList, harity]

variable {args : List Scalar} {f : Ssa.Function} {m : Machine} {stack locals vs : List Value}

/-- A branch to the end of a construct takes the construct's results along. What lies below the
    construct has smaller numbers than the construct's phis, and stays. -/
theorem Running.jump (h : Running args last s stack locals m) (hl : Lowered f last)
    (hd : s.Disciplined) (hordered : s.Ordered) (mem : c ∈ s.constructs)
    (hmove : Move s (s.jumped c.exit values)) (hlast : Moves (s.jumped c.exit values) last)
    (hj : Joins last s c values.toList v) (hrep : m.Represents args values.toList vs)
    (htypes : values.toList.map Operand.type = c.results.map Operand.type) :
    ∃ m', f.Leads args m m' ∧ Running args last v (stack.take c.base ++ vs) locals m' := by
  -- The branch is the next line, and it enters the end block.
  obtain ⟨rest, hrest, -, -⟩ := h.next hd (.single hmove) hlast (code_current_jumped hd mem)
    (by simp [Line.isReturnSlot])
  obtain ⟨first, types, hresults, -, hbelow, -⟩ := hordered.constructs c mem
  obtain ⟨phis, lines, hcode, hremaining, hphis, hedges⟩ := hj.phis
  have hmem : c.exit ∈ last.draft.labels :=
    Moves.labels (.head hmove hlast) hd (hd.mem_labels mem c.exit_mem_blocks)
  have htypes' : (vs.map Value.native).map Scalar.type = types := by
    rw [hrep.map_type, htypes, hresults, map_type_phiValues]
  rw [hresults, ← htypes'] at hphis
  have hvalues : List.Forall₂ (fun value x => m.eval args value = some x) values.toList
      (vs.map Value.native) := List.forall₂_map_right_iff.2 hrep
  have hlines : NoPhis lines := by
    obtain ⟨front, -, -, hplain⟩ := hremaining
    exact fun line hline => (hplain line hline).1
  rw [← h.block] at hedges
  have henter := hl.enter_join hmem hcode hlines hphis hedges hvalues
  refine ⟨_, f.leads_br hrest henter, hj.current.symm, hremaining, ?_, ?_⟩
  · rw [hj.stack, hresults, ← htypes']
    refine Machine.Represents.append ((h.stack.take c.base).congr hbelow fun id hid => ?_) ?_
    · exact assign_numbered_of_notMem first _ (.inl hid)
    · have hphis' := @eval_assign_numbered args m.values first (vs.map Value.native)
      rw [List.forall₂_map_right_iff] at hphis'
      exact hphis'
  · -- The numbers of phis are not those of slots.
    refine h.stored.of_values hl.isSlot rfl fun id hslot => assign_numbered_of_notMem first _ ?_
    by_contra hrange
    have hid : id ∈ definitions phis := by
      rw [definitions_phis hphis, List.mem_range'_1, List.length_map]
      omega
    obtain ⟨line, hline, hdefines⟩ := mem_definitions.1 hid
    have hmem' : line ∈ last.draft.code c.exit := hcode ▸ List.mem_append_left _ hline
    have hphi := onlyPhis_of_phiValue hphis line hline
    refine hl.not_isSlot hmem hmem' hdefines ?_ hslot
    rintro type name rfl
    cases hphi

end Joins

end WasmLowering.Lowering
