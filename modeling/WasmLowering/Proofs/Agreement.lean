import WasmLowering.Proofs.Typing

/-!
# Lowering and validation side by side

While a body is validated and lowered at the same time, the open constructs are the frames of the
validator, and the operands have the native types of the operand types of the validator as long as
the code can be reached. In code that cannot be reached, the validator goes on to open frames and to
push types, while the lowering only counts; the two meet again at the end of the construct in which
the code became unreachable. Hence no operator of a valid body fails.

## Key results

- `Agrees`: how a state of lowering and a state of validation belong together
- `lower_agrees`: an operator that can be reached and is valid can be lowered
- `skip_agrees`: an operator that cannot be reached can be skipped
- `steps_agree`: all operators of a valid body can be lowered
-/

namespace WasmLowering.Lowering

open Ssa Validation

/-! ## Frames -/

/-- A construct is of the kind of a frame, and its second arm starts with operands of the types of
    the parameters. -/
def KindAgrees (fr : Validation.Frame) : ConstructKind → Prop
  | .block => fr.kind = .block
  | .loop _ => fr.kind = .loop ∧ fr.start = []
  | .thenArm _ params => fr.kind = .ifArm ∧ OperandsTyped params.toList fr.start
  | .elseArm => fr.kind = .elseArm

/-- A construct of the lowering is a frame of the validator. -/
structure FrameAgrees (k : Construct) (fr : Validation.Frame) : Prop where
  kind : KindAgrees fr k.kind
  height : fr.height = k.base
  results : OperandsTyped k.results fr.stop

/-- The open constructs are the frames, the last of which is that of the function. -/
inductive FramesAgree (results : List ValueType) :
    List Construct → List Validation.Frame → Prop where
  | function {fr : Validation.Frame} (kind : fr.kind = .function) (stop : fr.stop = results)
      (height : fr.height = 0) : FramesAgree results [] [fr]
  | construct {k : Construct} {ks : List Construct} {fr : Validation.Frame}
      {frs : List Validation.Frame} (top : FrameAgrees k fr) (rest : FramesAgree results ks frs) :
      FramesAgree results (k :: ks) (fr :: frs)

section Frames

variable {results : List ValueType} {ks : List Construct} {fr : Validation.Frame}
  {frs : List Validation.Frame}

/-- There is always a frame, at least that of the function. -/
theorem FramesAgree.eq_cons (h : FramesAgree results ks frs) : ∃ fr rest, frs = fr :: rest := by
  cases h with
  | function => exact ⟨_, _, rfl⟩
  | construct => exact ⟨_, _, rfl⟩

/-- The innermost frame starts at the base. -/
theorem FramesAgree.base {s : State} (h : FramesAgree results s.constructs (fr :: frs)) :
    s.base = fr.height := by
  unfold State.base
  generalize s.constructs = ks at h
  cases h with
  | function _ _ height => exact height.symm
  | construct top _ => exact top.height.symm

/-- Whether the rest of a frame can be reached does not matter. -/
theorem FramesAgree.mark (h : FramesAgree results ks (fr :: frs)) (unreachable : Bool) :
    FramesAgree results ks ({ fr with unreachable } :: frs) := by
  cases h with
  | function kind stop height => exact .function kind stop height
  | construct top rest => exact .construct ⟨top.kind, top.height, top.results⟩ rest

/-- A frame that is not that of the function is an open construct. -/
theorem FramesAgree.top (h : FramesAgree results ks (fr :: frs)) (hfr : fr.kind ≠ .function) :
    ∃ k ks', ks = k :: ks' ∧ FrameAgrees k fr ∧ FramesAgree results ks' frs := by
  cases h with
  | function kind => exact absurd kind hfr
  | construct top rest => exact ⟨_, _, rfl, top, rest⟩

/-- The frame of the function is the last one. -/
theorem FramesAgree.last (h : FramesAgree results ks (fr :: frs)) (hfr : fr.kind = .function) :
    ks = [] ∧ frs = [] ∧ fr.stop = results ∧ fr.height = 0 := by
  cases h with
  | function kind stop height => exact ⟨rfl, rfl, stop, height⟩
  -- No construct is of the kind of a function.
  | @construct k _ _ _ top rest =>
    have hkind := top.kind
    cases hk : k.kind <;> simp [hk, KindAgrees, hfr] at hkind

/-- The frame that a branch goes to is that of the function or an open construct. -/
theorem FramesAgree.get {i : Nat} (h : FramesAgree results ks frs) (hi : frs[i]? = some fr) :
    i = ks.length ∧ fr.kind = .function ∧ fr.stop = results ∨
      i < ks.length ∧ ∃ k, ks[i]? = some k ∧ FrameAgrees k fr := by
  induction h generalizing i with
  | function kind stop height =>
    cases i with
    | zero =>
      obtain rfl := Option.some.inj hi
      exact .inl ⟨rfl, kind, stop⟩
    | succ i => cases hi
  | @construct k ks fr' frs top rest ih =>
    cases i with
    | zero =>
      obtain rfl := Option.some.inj hi
      exact .inr ⟨Nat.zero_lt_succ _, k, rfl, top⟩
    | succ i =>
      obtain ⟨hlen, hfr⟩ | ⟨hlt, hk⟩ := ih hi
      -- The depth counts one construct more.
      · exact .inl ⟨by rw [hlen, List.length_cons], hfr⟩
      · exact .inr ⟨Nat.succ_lt_succ hlt, hk⟩

end Frames

/-! ## States -/

/-- Where the two states are: in code that can be reached, `inner` frames into code that cannot be
    reached, or at the end of the function. -/
inductive Position (results : List ValueType) (c : Checker) (s : State) : Prop where
  | live (ts : List ValueType) (phase : s.phase = .live) (vals : c.vals = (ts.map some).reverse)
      (typed : OperandsTyped s.stack.toList ts) (frames : FramesAgree results s.constructs c.frames)
      (reached : ∀ fr ∈ c.frames, fr.unreachable = false)
  | dead (inner : List Validation.Frame) (fr : Validation.Frame) (rest : List Validation.Frame)
      (ts : List ValueType) (phase : s.phase = .dead inner.length)
      (split : c.frames = inner ++ fr :: rest)
      (below : c.below fr.height = ts.map some) (typed : OperandsTyped s.stack.toList ts)
      (frames : FramesAgree results s.constructs (fr :: rest))
      (reached : ∀ fr ∈ rest, fr.unreachable = false)
  | finished (phase : s.phase = .finished) (frames : c.frames = [])

/-- A state of lowering and a state of validation belong together. -/
structure Agrees (body : BodyTypes) (result : NativeType) (c : Checker) (s : State) : Prop where
  framed : c.Framed
  locals : SlotsTyped s.locals body.locals
  results : s.results = body.results
  resultType : resultType hostPointerBits body.results = .ok result
  returning : s.draft.Returning result
  position : Position body.results c s

/-! ## Code that can be reached -/

section Live

variable {results ts : List ValueType} {c c' : Checker} {s t : State} {fr : Validation.Frame}
  {rest : List Validation.Frame}

/-- After a construct was left in its middle, the rest of it cannot be reached. -/
theorem Position.leaves (hf : c.Framed) (hvals : c.vals = (ts.map some).reverse)
    (htyped : OperandsTyped s.stack.toList ts) (hframes : FramesAgree results s.constructs c.frames)
    (hreached : ∀ fr ∈ c.frames, fr.unreachable = false) {types : List ValueType}
    (h : c.jump types = some c') (hphase : t.phase = .dead 0)
    (hstack : t.stack = s.stack.take s.base) (hconstructs : t.constructs = s.constructs) :
    Position results c' t := by
  -- What was below the construct is still there, in its native types.
  obtain ⟨-, hkept, fr, rest, hfr, hfr'⟩ := Checker.jump_framed hf h
  rw [hfr] at hframes hreached
  refine .dead [] { fr with unreachable := true } rest (ts.take fr.height) hphase hfr' ?_ ?_ ?_ ?_
  · rw [(hkept fr (by simp [hfr])).2, Checker.below, hvals, List.reverse_reverse, List.map_take]
  · have hlist : t.stack.toList = s.stack.toList.take fr.height := by simp [hstack, hframes.base]
    rw [hlist]
    exact htyped.take fr.height
  · rw [hconstructs]
    exact hframes.mark true
  · exact fun fr' hmem => hreached fr' (List.mem_cons_of_mem _ hmem)

/-- After a construct was entered, its parameters are on the stack. -/
theorem Position.enters {k : Construct} {ks : List Construct} {kind : FrameKind}
    {start stop : List ValueType} (hframes : FramesAgree results ks rest)
    (hreached : ∀ fr ∈ rest, fr.unreachable = false) (hphase : t.phase = .live)
    (hconstructs : t.constructs = k :: ks)
    (htyped : OperandsTyped t.stack.toList (ts ++ start))
    (hkind : KindAgrees { kind, start, stop, height := ts.length } k.kind)
    (hbase : ts.length = k.base) (hresults : OperandsTyped k.results stop) :
    Position results ((⟨(ts.map some).reverse, rest⟩ : Checker).enter kind start stop) t := by
  have hheight : (ts.map some).reverse.length = ts.length := by simp
  refine .live (ts ++ start) hphase ?_ htyped ?_ ?_
  -- The parameters are on top of the stack again.
  · show (start.map some).reverse ++ (ts.map some).reverse = _
    rw [List.map_append, List.reverse_append]
  · rw [hconstructs]
    refine .construct ⟨?_, ?_, hresults⟩ hframes
    · simpa only [hheight] using hkind
    · exact hheight.trans hbase
  · intro fr hfr
    obtain rfl | hfr := List.mem_cons.1 hfr
    · rfl
    · exact hreached fr hfr

theorem operandsTyped_phiValues {types : List ScalarType} (next : ValueId)
    (h : ts.mapM (ValueType.scalar hostPointerBits) = .ok types) :
    OperandsTyped (phiValues next types) ts :=
  operandsTyped_of_mapM (by rw [map_type_phiValues, h])

end Live

/-! ## The end of an arm -/

/-- The states at the end of the innermost frame, below which the operands are of the types `ts`,
    whether or not that end can be reached. -/
structure Closing (results : List ValueType) (c : Checker) (s : State) (fr : Validation.Frame)
    (rest : List Validation.Frame) (ts : List ValueType) : Prop where
  split : c.frames = fr :: rest
  frames : FramesAgree results s.constructs (fr :: rest)
  below : c.below fr.height = ts.map some
  typed : OperandsTyped (s.stack.toList.take fr.height) ts
  height : fr.height ≤ s.stack.size
  reached : ∀ fr ∈ rest, fr.unreachable = false

section Closing

variable {results ts : List ValueType} {c c' : Checker} {s : State} {fr : Validation.Frame}
  {rest : List Validation.Frame} {result : NativeType} {live : Bool}

/-- Code that can be reached comes to the end of its frame. -/
private theorem closing_of_live (hvals : c.vals = (ts.map some).reverse)
    (htyped : OperandsTyped s.stack.toList ts) (hframes : FramesAgree results s.constructs c.frames)
    (hreached : ∀ fr ∈ c.frames, fr.unreachable = false) (hf : c.Framed)
    (hfr : c.frames = fr :: rest) : Closing results c s fr rest (ts.take fr.height) where
  split := hfr
  frames := hfr ▸ hframes
  below := by rw [Checker.below, hvals, List.reverse_reverse, List.map_take]
  typed := htyped.take fr.height
  height := by
    have hle := hf.height fr (by simp [hfr])
    rw [hvals, List.length_reverse, List.length_map, ← htyped.length_eq, Array.length_toList] at hle
    exact hle
  reached fr' hmem := hreached fr' (by simp [hfr, hmem])

/-- The operand types below the innermost frame, once it has been left. -/
theorem Closing.leave (h : Closing results c s fr rest ts) (hf : c.Framed) {fr' : Validation.Frame}
    (hleave : c.leave = some (fr', c')) :
    fr' = fr ∧ c'.frames = rest ∧ c'.vals = (ts.map some).reverse ∧ ts.length = fr.height := by
  obtain ⟨hframes, -, hkept, hlen⟩ := Checker.leave_framed hf hleave
  obtain ⟨rfl, hrest⟩ := List.cons.inj (hframes.symm.trans h.split)
  have hbelow := (hkept fr' (by simp [hframes])).2
  rw [h.below, Checker.below, List.take_of_length_le (by simp [hlen])] at hbelow
  have hvals : c'.vals = (ts.map some).reverse := by rw [← hbelow, List.reverse_reverse]
  refine ⟨rfl, hrest, hvals, ?_⟩
  rw [← hlen, hvals, List.length_reverse, List.length_map]

/-- At the end of an arm that can be reached, its results are on the stack. -/
theorem size_of_leave (hvals : c.vals = (ts.map some).reverse)
    (htyped : OperandsTyped s.stack.toList ts) (hf : c.Framed) (hfr : c.frames = fr :: rest)
    (hlive : fr.unreachable = false) {fr' : Validation.Frame} (hleave : c.leave = some (fr', c')) :
    ∃ ts', ts = ts' ++ fr.stop ∧ ts'.length = fr.height ∧
      s.stack.size = fr.height + fr.stop.length := by
  obtain ⟨c₁, hpop, hlen, hframes, -⟩ := Checker.leave_eq_some hleave
  obtain ⟨rfl, -⟩ := List.cons.inj (hframes.symm.trans hfr)
  have hle := hf.height fr' (by simp [hfr])
  obtain ⟨ts', rfl, rfl, -⟩ := Checker.popAll_live hvals hfr hlive hle hpop
  rw [List.length_reverse, List.length_map] at hlen
  refine ⟨ts', rfl, hlen, ?_⟩
  rw [← Array.length_toList, htyped.length_eq, List.length_append, hlen]

/-- The first arm of a conditional can be left for the second. -/
private theorem elseBlock_agrees (hc : Closing results c s fr rest ts) (hf : c.Framed)
    (ha : s.draft.Arranged s.waiting) (hret : s.draft.Returning result)
    (hsize : live = true → s.stack.size = fr.height + fr.stop.length)
    (h : c.elseBlock = some c') :
    ∃ t, s.elseBlock live = .ok t ∧ t.locals = s.locals ∧ t.results = s.results ∧
      t.draft.Returning result ∧ Position results c' t := by
  obtain ⟨fr', c₁, hleave, hkind, rfl⟩ := Checker.elseBlock_eq_some h
  obtain ⟨rfl, hrest, hvals, hlen⟩ := hc.leave hf hleave
  -- The frame of a first arm is a construct in its first arm.
  obtain ⟨k, ks, hks, top, hframes⟩ := hc.frames.top (by simp [hkind])
  obtain ⟨other, params, hk, hparams⟩ : ∃ other params, k.kind = .thenArm other params ∧
      OperandsTyped params.toList fr'.start := by
    have hagrees := top.kind
    cases hk : k.kind with
    | thenArm other params => exact ⟨other, params, rfl, (hk ▸ hagrees).2⟩
    | _ => simp [hk, KindAgrees, hkind] at hagrees
  have hbase : s.base = k.base := hc.frames.base.trans top.height
  obtain ⟨d, hexit, -, hret'⟩ := exitLast_typed ha (by simp [hks]) hbase
    (fun hl => by rw [hsize hl, top.height, top.results.length_eq]) hret
  have hheight : k.base ≤ s.stack.size := top.height ▸ hc.height
  refine ⟨({ s with draft := d } : State).alternated k ks other params, ?_, rfl, rfl,
    hret'.place _, ?_⟩
  · exact elseBlock_eq_ok.2 ⟨k, ks, other, params, _, hks, hk, hexit, hheight, rfl⟩
  · obtain ⟨vals, frames⟩ := c₁
    obtain rfl : vals = (ts.map some).reverse := hvals
    obtain rfl : frames = rest := hrest
    have hlist : (s.stack.take k.base ++ params).toList =
        s.stack.toList.take fr'.height ++ params.toList := by
      simp [top.height]
    refine @Position.enters results ts _ frames { k with kind := .elseArm } ks .elseArm
      fr'.start fr'.stop hframes hc.reached rfl rfl ?_ rfl (hlen.trans top.height) top.results
    show OperandsTyped (s.stack.take k.base ++ params).toList (ts ++ fr'.start)
    rw [hlist]
    exact hc.typed.append hparams

/-- The innermost construct can be closed. -/
private theorem endBlock_agrees (hc : Closing results c s fr rest ts) (hf : c.Framed)
    (ha : s.draft.Arranged s.waiting) (hret : s.draft.Returning result)
    (hsize : live = true → s.stack.size = fr.height + fr.stop.length)
    (hfr : fr.kind ≠ .function) (h : c.endBlock = some c') :
    ∃ t, s.endBlock live = .ok t ∧ t.locals = s.locals ∧ t.results = s.results ∧
      t.draft.Returning result ∧ Position results c' t := by
  obtain ⟨fr', c₁, hleave, hparams, rfl⟩ := Checker.endBlock_eq_some h
  obtain ⟨rfl, hrest, hvals, hlen⟩ := hc.leave hf hleave
  obtain ⟨k, ks, hks, top, hframes⟩ := hc.frames.top hfr
  have hmem : k ∈ s.constructs := by simp [hks]
  have hbase : s.base = k.base := hc.frames.base.trans top.height
  have hheight : k.base ≤ s.stack.size := top.height ▸ hc.height
  obtain ⟨d, hexit, hd, hret'⟩ := exitLast_typed ha hmem hbase
    (fun hl => by rw [hsize hl, top.height, top.results.length_eq]) hret
  -- Whatever the last arm was, the results are put on what was below the construct.
  have hleft : ∀ (u : State), u.stack.toList.take k.base = s.stack.toList.take k.base →
      Position results (c₁.pushAll fr'.stop) (u.left k ks) := by
    intro u hu
    refine .live (ts ++ fr'.stop) rfl (Checker.pushAll_live hvals) ?_ ?_ ?_
    · have hlist :
          (u.left k ks).stack.toList = s.stack.toList.take fr'.height ++ u.resultsAfter k := by
        simp [State.left, top.height, hu]
      rw [hlist]
      exact hc.typed.append (top.results.congr (map_type_resultsAfter u k))
    · show FramesAgree results ks c₁.frames
      rw [hrest]
      exact hframes
    · show ∀ fr ∈ c₁.frames, _
      rw [hrest]
      exact hc.reached
  by_cases hk : ∃ other params, k.kind = .thenArm other params
  · -- Without a second arm, the parameters are the results.
    obtain ⟨other, params, hk⟩ := hk
    have hagrees := top.kind
    rw [hk] at hagrees
    have hparams : params.size = k.results.length := by
      rw [top.results.length_eq, ← hparams hagrees.1, ← hagrees.2.length_eq, Array.length_toList]
    have hwait : d.Arranged (other :: k.exit :: ks.flatMap Construct.waiting) := by
      have hsplit : s.waiting = k.exit :: other :: ks.flatMap Construct.waiting := by
        rw [State.waiting, hks, List.flatMap_cons, Construct.waiting, hk]
        rfl
      exact (hsplit ▸ hd).perm (.swap ..)
    let v : State := { s with
      draft := d.place other
      stack := s.stack.take k.base ++ params }
    have hv : v.stack.size = k.base + params.size := by
      simp [v, hheight]
    have hvbase : v.base = k.base := hbase
    obtain ⟨d', hexit', hd', hret''⟩ := @exitTo_typed v result k _ hwait.place List.mem_cons_self
      (fun _ => by omega) (hret'.place other)
    refine ⟨({ v with draft := d' } : State).left k ks, ?_, rfl, rfl, ?_, hleft _ ?_⟩
    · refine (endBlock_eq_ok hks).2 ⟨_, hexit, .inr ⟨other, params, v, _, hk, ?_, hexit', ?_⟩⟩
      · exact startArm_eq_ok.2 ⟨hheight, rfl⟩
      · exact leave_eq_ok.2 ⟨show k.base ≤ v.stack.size by omega, rfl⟩
    · exact (hret''.place k.exit).dropEmptyPhis hd'.place.numbered hd'.place.current_mem
    · simp [v, hheight]
  · have hk' : ∀ other params, k.kind ≠ .thenArm other params :=
      fun other params h => hk ⟨other, params, h⟩
    have hwait : d.Arranged (k.exit :: ks.flatMap Construct.waiting) :=
      State.waiting_of_top hks hk' ▸ hd
    refine ⟨({ s with draft := d } : State).left k ks, ?_, rfl, rfl, ?_, hleft _ rfl⟩
    · exact (endBlock_eq_ok hks).2 ⟨_, hexit, .inl ⟨hk', leave_eq_ok.2 ⟨hheight, rfl⟩⟩⟩
    · exact (hret'.place k.exit).dropEmptyPhis hwait.place.numbered hwait.place.current_mem

/-- The function can be completed, with a return if its end can be reached. -/
private theorem finish_agrees (hc : Closing results c s fr rest ts) (hf : c.Framed)
    (ha : s.draft.Arranged s.waiting) (hret : s.draft.Returning result)
    (hresult : resultType hostPointerBits s.results = .ok result) (hresults : s.results = results)
    (htyped : live = true → OperandsTyped s.stack.toList results)
    (hfr : fr.kind = .function) (h : c.endBlock = some c') :
    ∃ t, s.endBlock live = .ok t ∧ t.locals = s.locals ∧ t.results = s.results ∧
      t.draft.Returning result ∧ Position results c' t := by
  obtain ⟨-, -, fr', hframes⟩ := Checker.endBlock_framed hf h
  obtain ⟨hks, hrest, -, -⟩ := hc.frames.last hfr
  have hframes' : c'.frames = [] := by
    obtain ⟨-, hrest'⟩ := List.cons.inj (hframes.symm.trans hc.split)
    rw [hrest', hrest]
  -- The last frame is that of the function, so its end completes the function.
  have heq : s.endBlock live = s.finishFunction live := by
    unfold State.endBlock
    rw [hks]
  rw [heq]
  cases live with
  | false =>
    exact ⟨_, finishFunction_eq_ok.2 ⟨s, by simp, rfl⟩, rfl, rfl, hret, .finished rfl hframes'⟩
  | true =>
    -- The end can be reached, so the results are on the stack.
    have htyped : OperandsTyped s.stack.toList s.results := hresults ▸ htyped rfl
    have hbase : s.base = 0 := by rw [State.base, hks]
    obtain ⟨d, hd, hret'⟩ := @ret_typed s [] s.stack.toList result ha rfl htyped (by simp [hbase])
      hresult hret
    have hsize : s.stack.size = s.results.length := by
      rw [← Array.length_toList, htyped.length_eq]
    exact ⟨_, finishFunction_eq_ok.2 ⟨_, ⟨hsize, hd⟩, rfl⟩, rfl, rfl, hret',
      .finished rfl hframes'⟩

end Closing

/-! ## Steps -/

section Steps

variable {body : BodyTypes} {result : NativeType} {c c' : Checker} {s : State} {op : Operator}

/-- What an operator keeps, together with the position after it. -/
theorem Agrees.to {t : State} (h : Agrees body result c s) (hf : c'.Framed)
    (hlocals : t.locals = s.locals) (hresults : t.results = s.results)
    (hret : t.draft.Returning result) (hposition : Position body.results c' t) :
    Agrees body result c' t where
  framed := hf
  locals := hlocals ▸ h.locals
  results := hresults.trans h.results
  resultType := h.resultType
  returning := hret
  position := hposition

/-- The two states in code that can be reached, within the frame `fr`. -/
structure Reached (body : BodyTypes) (result : NativeType) (c : Checker) (s : State)
    (ts : List ValueType) (fr : Validation.Frame) (rest : List Validation.Frame) : Prop where
  agrees : Agrees body result c s
  sound : s.draft.Sound s.waiting true
  phase : s.phase = .live
  vals : c.vals = (ts.map some).reverse
  typed : OperandsTyped s.stack.toList ts
  frames : FramesAgree body.results s.constructs c.frames
  split : c.frames = fr :: rest
  live : ∀ fr ∈ c.frames, fr.unreachable = false

variable {ts us : List ValueType} {fr : Validation.Frame} {rest : List Validation.Frame}

/-- Code that can be reached is within some frame. -/
theorem Agrees.reached (h : Agrees body result c s) (hd : s.Disciplined) (hlive : s.phase = .live) :
    ∃ ts fr rest, Reached body result c s ts fr rest := by
  cases h.position with
  | live ts phase vals typed frames live =>
    obtain ⟨fr, rest, hfr⟩ := frames.eq_cons
    exact ⟨ts, fr, rest, h, hd.open hlive, hlive, vals, typed, frames, hfr, live⟩
  | dead _ _ _ _ phase => rw [hlive] at phase; cases phase
  | finished phase => rw [hlive] at phase; cases phase

theorem Reached.base (h : Reached body result c s ts fr rest) : s.base = fr.height :=
  (h.split ▸ h.frames).base

theorem Reached.top_live (h : Reached body result c s ts fr rest) : fr.unreachable = false :=
  h.live fr (by simp [h.split])

theorem Reached.height (h : Reached body result c s ts fr rest) : fr.height ≤ c.vals.length :=
  h.agrees.framed.height fr (by simp [h.split])

theorem Reached.closing (h : Reached body result c s ts fr rest) :
    Closing body.results c s fr rest (ts.take fr.height) :=
  closing_of_live h.vals h.typed h.frames h.live h.agrees.framed h.split

/-- The results have a native type. -/
theorem Reached.resultType (h : Reached body result c s ts fr rest) :
    resultType hostPointerBits s.results = .ok result := by
  rw [h.agrees.results]
  exact h.agrees.resultType

/-- The operands that the validator pops are on the stack, above the base. -/
theorem Reached.pop (h : Reached body result c s ts fr rest) {c₁ : Checker}
    (hpop : c.popAll us = some c₁) :
    ∃ ts' xs vs, c₁ = ⟨(ts'.map some).reverse, c.frames⟩ ∧ s.stack.toList = xs ++ vs ∧
      OperandsTyped xs ts' ∧ OperandsTyped vs us ∧ s.base ≤ xs.length := by
  obtain ⟨ts', hts, hc₁, hle⟩ := Checker.popAll_live h.vals h.split h.top_live h.height hpop
  obtain ⟨xs, vs, hstack, hxs, hvs⟩ := (hts ▸ h.typed).split
  refine ⟨ts', xs, vs, hc₁, hstack, hxs, hvs, ?_⟩
  rw [h.base, hxs.length_eq]
  exact hle

/-- An operator that leaves a construct in its middle agrees once it has emptied it. -/
theorem Reached.leaves (h : Reached body result c s ts fr rest) (hjump : c.jump us = some c')
    {d : Draft} (hret : d.Returning result) :
    Agrees body result c'
      { s with draft := d, stack := s.stack.take s.base, phase := .dead 0 } :=
  h.agrees.to (Checker.jump_framed h.agrees.framed hjump).1 rfl rfl hret
    (.leaves h.agrees.framed h.vals h.typed h.frames h.live hjump rfl rfl rfl)

/-- The stack is at least as high as the base. -/
theorem Reached.base_le (h : Reached body result c s ts fr rest) : s.base ≤ s.stack.size := by
  rw [h.base]
  exact h.closing.height

/-! ### Operators -/

/-- An operator that is no control operator replaces its operands by its results. -/
private theorem plain_agrees (h : Reached body result c s ts fr rest) (hop : op.isControl = false)
    (hstep : c.step body op = some c') : ∃ t, s.lower op = .ok t ∧ Agrees body result c' t := by
  have hf' := (Checker.step_framed h.agrees.framed hstep).1
  -- The checker takes the types of operands off and pushes those of the results.
  obtain ⟨ts', ins, outs, ht, rfl, hle, rfl⟩ :=
    Checker.step_live hop h.vals h.split h.top_live h.height hstep
  obtain ⟨xs, args, hstack, hxs, hargs⟩ := h.typed.split
  have hbase : s.base ≤ xs.length := by
    rw [h.base, hxs.length_eq]
    exact hle
  obtain ⟨t, vs, hlower, hstack', hvs, hcont, hret⟩ :=
    lower_typed ht h.sound hstack hargs hbase h.agrees.locals h.agrees.returning
  refine ⟨t, hlower, h.agrees.to hf' hcont.locals hcont.results hret ?_⟩
  refine .live (ts' ++ outs) (hcont.phase.trans h.phase) rfl ?_ ?_ h.live
  · rw [hstack']
    exact hxs.append hvs
  · rw [hcont.constructs]
    exact h.frames

private theorem unreachable_agrees (h : Reached body result c s ts fr rest)
    (hstep : c.jump [] = some c') :
    ∃ t, s.unreachable = .ok t ∧ Agrees body result c' t := by
  refine ⟨_, enterDead_eq_ok.2 ⟨h.base_le, rfl⟩, h.leaves hstep ?_⟩
  exact h.agrees.returning.append h.sound.toArranged _ rfl

/-- A return takes the results from the stack. -/
private theorem ret_agrees (h : Reached body result c s ts fr rest)
    (hstep : c.jump body.results = some c') :
    ∃ t, s.ret = .ok t ∧ Agrees body result c' t := by
  -- The validator pops the results before it marks the frame.
  have hjump := hstep
  simp only [Checker.jump, Option.bind_eq_bind, Option.bind_eq_some_iff] at hstep
  obtain ⟨c₁, hpop, -⟩ := hstep
  obtain ⟨ts', xs, vs, -, hstack, -, hvs, hbase⟩ := h.pop hpop
  obtain ⟨d, hret, hd⟩ := ret_typed h.sound.toArranged hstack (h.agrees.results ▸ hvs) hbase
    h.resultType h.agrees.returning
  exact ⟨_, hret, h.leaves hjump hd⟩

/-- A branch takes the label's operands from the stack. -/
private theorem br_agrees (h : Reached body result c s ts fr rest) {depth : Nat}
    (hstep : c.br depth = some c') : ∃ t, s.br depth = .ok t ∧ Agrees body result c' t := by
  simp only [Checker.br, Option.bind_eq_bind, Option.bind_eq_some_iff] at hstep
  obtain ⟨target, htarget, hjump⟩ := hstep
  unfold State.br
  obtain ⟨hdepth, hkind, hstop⟩ | ⟨hlt, k, hk, hagrees⟩ := h.frames.get htarget
  · -- A branch out of all constructs is a return.
    rw [if_pos hdepth]
    have hlabel : target.label = body.results := by simp [Validation.Frame.label, hkind, hstop]
    exact ret_agrees h (hlabel ▸ hjump)
  · rw [if_neg (by omega), hk]
    -- A branch to the start of a loop takes no operands along.
    have hmem := List.mem_of_getElem? hk
    have harity : (∀ head, k.kind ≠ .loop head) → k.results.length ≤ s.stack.size - s.base := by
      intro hloop
      have hlabel : target.label = target.stop := by
        have hkind := hagrees.kind
        cases hk' : k.kind <;> simp_all [KindAgrees, Validation.Frame.label]
      simp only [Checker.jump, Option.bind_eq_bind, Option.bind_eq_some_iff] at hjump
      obtain ⟨c₁, hpop, -⟩ := hjump
      obtain ⟨ts', xs, vs, -, hstack, -, hvs, hbase⟩ := h.pop hpop
      have hsize : s.stack.size = xs.length + vs.length := by
        rw [← Array.length_toList, hstack, List.length_append]
      rw [hagrees.results.length_eq, ← hlabel, ← hvs.length_eq]
      omega
    obtain ⟨d, hexit, -, hret⟩ := exitTo_typed h.sound.toArranged (State.exit_mem_waiting hmem)
      harity h.agrees.returning
    refine ⟨_, bind_eq_ok.2 ⟨_, hexit, enterDead_eq_ok.2 ⟨h.base_le, rfl⟩⟩, h.leaves hjump hret⟩

/-- A block can be entered with its parameters on the stack. -/
private theorem block_agrees (h : Reached body result c s ts fr rest) {type : FuncType}
    (hstep : c.block type = some c') : ∃ t, s.block type = .ok t ∧ Agrees body result c' t := by
  have hf' := (@Checker.step_framed c c' body (.block type) h.agrees.framed hstep).1
  simp only [Checker.block, Option.bind_eq_bind, Option.bind_eq_some_iff] at hstep
  obtain ⟨_, hguard, c₁, hpop, hstep⟩ := hstep
  obtain rfl := Option.some.inj hstep
  -- The results have native types, and the parameters are on the stack.
  have hknown : type.isKnown = true := (Option.guard_eq_some' _).1 hguard
  simp only [FuncType.isKnown, Bool.and_eq_true] at hknown
  obtain ⟨types, htypes⟩ := exists_mapM_scalar hknown.2
  obtain ⟨ts', xs, vs, rfl, hstack, hxs, hvs, hbase⟩ := h.pop hpop
  have hsize : s.stack.size = xs.length + type.params.length := by
    rw [← Array.length_toList, hstack, List.length_append, hvs.length_eq]
  refine ⟨_, enter_eq_ok.2 ⟨by omega, types, htypes, rfl⟩, h.agrees.to hf' rfl rfl ?_ ?_⟩
  · exact h.agrees.returning.newJoin h.sound.numbered .blockEnd types
  · refine .enters h.frames h.live h.phase rfl ?_ rfl ?_ (operandsTyped_phiValues _ htypes)
    · show OperandsTyped s.stack.toList _
      rw [hstack]
      exact hxs.append hvs
    · show ts'.length = s.stack.size - type.params.length
      rw [← hxs.length_eq]
      omega

/-- A loop can be entered. -/
private theorem loop_agrees (h : Reached body result c s ts fr rest) {results : List ValueType}
    (hstep : c.loop results = some c') : ∃ t, s.loop results = .ok t ∧ Agrees body result c' t := by
  have hf' := (@Checker.step_framed c c' body (.loop results) h.agrees.framed hstep).1
  simp only [Checker.loop, Option.bind_eq_bind, Option.bind_eq_some_iff] at hstep
  obtain ⟨_, hguard, hstep⟩ := hstep
  obtain rfl := Option.some.inj hstep
  obtain ⟨types, htypes⟩ := exists_mapM_scalar ((Option.guard_eq_some' _).1 hguard)
  have hgoOn := h.sound.goOn .loopBegin rfl
  refine ⟨_, enter_eq_ok.2 ⟨Nat.zero_le _, types, htypes, rfl⟩, h.agrees.to hf' rfl rfl ?_ ?_⟩
  · exact (h.agrees.returning.goOn h.sound.toArranged .loopBegin).newJoin hgoOn.numbered .loopEnd
      types
  · -- A loop has no parameters, so that it starts on the stack as it is.
    obtain ⟨vals, frames⟩ := c
    obtain rfl : vals = (ts.map some).reverse := h.vals
    refine .enters h.frames h.live h.phase rfl ?_ ⟨rfl, rfl⟩ ?_ (operandsTyped_phiValues _ htypes)
    · show OperandsTyped s.stack.toList (ts ++ [])
      rw [List.append_nil]
      exact h.typed
    · show ts.length = s.stack.size
      rw [← h.typed.length_eq, Array.length_toList]

/-- A conditional can be entered with its parameters and its condition on the stack. -/
private theorem ifBlock_agrees (h : Reached body result c s ts fr rest) {type : FuncType}
    (hstep : c.ifBlock type = some c') :
    ∃ t, s.ifBlock type = .ok t ∧ Agrees body result c' t := by
  have hf' := (@Checker.step_framed c c' body (.ifBlock type) h.agrees.framed hstep).1
  simp only [Checker.ifBlock, Option.bind_eq_bind, Option.bind_eq_some_iff] at hstep
  obtain ⟨_, hguard, c₁, hpop, hstep⟩ := hstep
  obtain rfl := Option.some.inj hstep
  have hknown : type.isKnown = true := (Option.guard_eq_some' _).1 hguard
  simp only [FuncType.isKnown, Bool.and_eq_true] at hknown
  obtain ⟨types, htypes⟩ := exists_mapM_scalar hknown.2
  obtain ⟨ts', xs, vs, rfl, hstack, hxs, hvs, hbase⟩ := h.pop hpop
  obtain ⟨params, cond, rfl, hparams, hcond⟩ := hvs.split
  obtain ⟨v, rfl, -⟩ := hcond.unary
  -- The condition is on top of the parameters.
  let ys : Array Operand := (xs ++ params).toArray
  have hys : s.stack = ys.push v := by
    rw [← Array.toList_inj, hstack, Array.toList_push, List.append_assoc]
  have hsize : ys.size = xs.length + params.length := by simp [ys]
  have hlen : params.length = type.params.length := hparams.length_eq
  let u : State := (s.restacked ys).computed (.icmp .ne v v.type.zero)
  have hu : u.draft.Sound s.waiting true := h.sound.skipValue.append _ rfl rfl
  have hret : u.draft.Returning result :=
    h.agrees.returning.skipValue.append h.sound.skipValue.toArranged _ rfl
  have hforked := ifBlock_eq_ok.2 ⟨ys, v, types, hys, by omega, by omega, htypes, rfl⟩
  refine ⟨_, hforked, h.agrees.to hf' rfl rfl ?_ ?_⟩
  · exact ((hret.fork hu.toArranged _).newJoin (hu.fork _).numbered .ifEnd types).place _
  · refine .enters h.frames h.live h.phase rfl ?_ ⟨rfl, ?_⟩ ?_ (operandsTyped_phiValues _ htypes)
    · exact hxs.append hparams
    · show OperandsTyped (u.top type.params.length).toList type.params
      rw [← hlen, @toList_top u xs params rfl]
      exact hparams
    · show ts'.length = ys.size - type.params.length
      rw [← hxs.length_eq]
      omega

/-- An operator that can be reached and is valid can be lowered. -/
theorem lower_agrees (h : Agrees body result c s) (hd : s.Disciplined) (hlive : s.phase = .live)
    (hstep : c.step body op = some c') : ∃ t, s.lower op = .ok t ∧ Agrees body result c' t := by
  have hf' := (Checker.step_framed h.framed hstep).1
  obtain ⟨ts, fr, rest, hr⟩ := h.reached hd hlive
  have ha := hr.sound.toArranged
  by_cases hop : op.isControl = false
  · exact plain_agrees hr hop hstep
  · cases op with
    | unreachable => exact unreachable_agrees hr hstep
    | block type => exact block_agrees hr hstep
    | loop results => exact loop_agrees hr hstep
    | ifBlock type => exact ifBlock_agrees hr hstep
    | br depth => exact br_agrees hr hstep
    | ret => exact ret_agrees hr hstep
    -- The end of an arm that can be reached has its results on the stack.
    | elseBlock =>
      obtain ⟨fr', c₁, hleave, -⟩ := Checker.elseBlock_eq_some hstep
      obtain ⟨ts', -, -, hsize⟩ :=
        size_of_leave hr.vals hr.typed h.framed hr.split hr.top_live hleave
      obtain ⟨t, ht, hlocals, hresults, hret, hpos⟩ :=
        elseBlock_agrees hr.closing h.framed ha h.returning (fun _ => hsize) hstep
      exact ⟨t, ht, h.to hf' hlocals hresults hret hpos⟩
    | endBlock =>
      obtain ⟨fr', c₁, hleave, -⟩ := Checker.endBlock_eq_some hstep
      obtain ⟨ts', hts, hlen, hsize⟩ :=
        size_of_leave hr.vals hr.typed h.framed hr.split hr.top_live hleave
      obtain ⟨t, ht, hlocals, hresults, hret, hpos⟩ : ∃ t, s.endBlock true = .ok t ∧
          t.locals = s.locals ∧ t.results = s.results ∧ t.draft.Returning result ∧
          Position body.results c' t := by
        by_cases hfr : fr.kind = .function
        · -- Nothing but the results is on the stack at the end of the function.
          obtain ⟨-, -, hstop, hheight⟩ := hr.closing.frames.last hfr
          obtain rfl : ts' = [] := List.length_eq_zero_iff.1 (hlen.trans hheight)
          have htyped := hr.typed
          rw [hts, List.nil_append, hstop] at htyped
          exact finish_agrees hr.closing h.framed ha h.returning hr.resultType h.results
            (fun _ => htyped) hfr hstep
        · exact endBlock_agrees hr.closing h.framed ha h.returning (fun _ => hsize) hfr hstep
      exact ⟨t, ht, h.to hf' hlocals hresults hret hpos⟩
    | _ => exact absurd rfl hop

/-- An operator that cannot be reached can be skipped if it is valid. -/
theorem skip_agrees (h : Agrees body result c s) (hd : s.Disciplined) {depth : Nat}
    (hdead : s.phase = .dead depth) (hstep : c.step body op = some c') :
    ∃ t, s.skip depth op = .ok t ∧ Agrees body result c' t := by
  obtain ⟨hf', hkept, hframes⟩ := Checker.step_framed h.framed hstep
  have ha := (hd.closed hdead).toArranged
  cases h.position with
  | live _ phase => rw [hdead] at phase; cases phase
  | finished phase => rw [hdead] at phase; cases phase
  | dead inner fr rest ts phase split below typed frames reached =>
    obtain rfl : depth = inner.length := by rw [hdead] at phase; exact Phase.dead.inj phase
    have hbelow : c'.below fr.height = ts.map some := by
      rw [(hkept fr (by simp [split])).2]
      exact below
    -- Most operators change frames only, and none outside the code that cannot be reached.
    have hskip : ∀ (inner' : List Validation.Frame) (unreachable : Bool),
        c'.frames = inner' ++ { fr with unreachable } :: rest →
        s.skip inner.length op = .ok { s with phase := .dead inner'.length } →
        ∃ t, s.skip inner.length op = .ok t ∧ Agrees body result c' t := by
      intro inner' unreachable hfr ht
      refine ⟨_, ht, h.to hf' rfl rfl h.returning ?_⟩
      exact .dead inner' _ rest ts rfl hfr hbelow typed (frames.mark unreachable) reached
    have hsame : ({ s with phase := .dead inner.length } : State) = s := by rw [← hdead]
    -- The stack ends where the frame starts, as nothing was pushed since.
    have hlen : ts.length = fr.height := by
      have hle := h.framed.height fr (by simp [split])
      rw [← List.length_map, ← below, Checker.below, List.length_take, List.length_reverse]
      omega
    have hsize : s.stack.size = fr.height := by
      rw [← Array.length_toList, typed.length_eq, hlen]
    have hclosing : inner = [] → Closing body.results c s fr rest ts := by
      intro hinner
      refine ⟨by rw [split, hinner, List.nil_append], frames, below, ?_, by omega, reached⟩
      rwa [List.take_of_length_le (by simp [hsize])]
    -- Constructs in dead code are frames in front of the one in which it began.
    cases op with
    | block | loop | ifBlock =>
      obtain ⟨fr', hfr'⟩ := hframes
      exact hskip (fr' :: inner) fr.unreachable (by rw [hfr', split, List.cons_append]) rfl
    -- The frame that is marked is the innermost one, dead or not.
    | unreachable | br | ret =>
      obtain ⟨fr', rest', hold, hnew⟩ := hframes
      rw [split] at hold
      cases inner with
      | nil =>
        obtain ⟨rfl, rfl⟩ := List.cons.inj hold
        exact hskip [] true hnew (congrArg _ hsame.symm)
      | cons first inner =>
        obtain ⟨rfl, rfl⟩ := List.cons.inj hold
        exact hskip ({ first with unreachable := true } :: inner) fr.unreachable hnew
          (congrArg _ hsame.symm)
    -- Only the `else` of the construct itself makes the code live again.
    | elseBlock =>
      cases inner with
      | nil =>
        obtain ⟨t, ht, hlocals, hresults, hret, hpos⟩ :=
          @elseBlock_agrees _ _ _ _ _ _ _ _ false (hclosing rfl) h.framed ha h.returning
            (fun h => by cases h) hstep
        exact ⟨t, ht, h.to hf' hlocals hresults hret hpos⟩
      | cons first inner =>
        obtain ⟨fr', rest', hold, hnew⟩ := hframes
        rw [split] at hold
        obtain ⟨rfl, rfl⟩ := List.cons.inj hold
        exact hskip ({ first with kind := .elseArm, unreachable := false } :: inner) fr.unreachable
          hnew (congrArg _ hsame.symm)
    -- Likewise its `end`.
    | endBlock =>
      cases inner with
      | nil =>
        obtain ⟨t, ht, hlocals, hresults, hret, hpos⟩ : ∃ t, s.endBlock false = .ok t ∧
            t.locals = s.locals ∧ t.results = s.results ∧ t.draft.Returning result ∧
            Position body.results c' t := by
          have hresult := h.resultType
          rw [← h.results] at hresult
          by_cases hfr : fr.kind = .function
          · exact finish_agrees (hclosing rfl) h.framed ha h.returning hresult h.results
              (fun h => by cases h) hfr hstep
          · exact endBlock_agrees (hclosing rfl) h.framed ha h.returning
              (fun h => by cases h) hfr hstep
        exact ⟨t, ht, h.to hf' hlocals hresults hret hpos⟩
      | cons first inner =>
        obtain ⟨fr', hold⟩ := hframes
        rw [split] at hold
        obtain ⟨rfl, hnew⟩ := List.cons.inj hold
        exact hskip inner fr.unreachable hnew.symm rfl
    | _ =>
      exact hskip inner fr.unreachable (Eq.trans hframes split) (congrArg _ hsame.symm)

/-- An operator that can be validated can be lowered, and the states still agree. -/
theorem step_agrees (h : Agrees body result c s) (hd : s.Disciplined) (hframes : c.frames ≠ [])
    (hstep : c.step body op = some c') : ∃ t, s.step op = .ok t ∧ Agrees body result c' t := by
  unfold State.step
  cases hphase : s.phase with
  | live => exact lower_agrees h hd hphase hstep
  | dead depth => exact skip_agrees h hd hphase hstep
  -- After the end of the function there is no frame for a further operator.
  | finished =>
    cases h.position with
    | live _ phase => rw [hphase] at phase; cases phase
    | dead _ _ _ _ phase => rw [hphase] at phase; cases phase
    | finished _ hdone => exact absurd hdone hframes

/-- All operators of a list that can be validated can be lowered. -/
theorem steps_agree {ops : List Operator} (h : Agrees body result c s) (hd : s.Disciplined)
    (hf : s.Framed) (hrun : c.run body ops = some c') :
    ∃ t, s.steps ops = .ok t ∧ Agrees body result c' t := by
  induction ops generalizing c s with
  | nil =>
    obtain rfl := Option.some.inj hrun
    exact ⟨s, rfl, h⟩
  | cons op ops ih =>
    simp only [Checker.run, Option.bind_eq_bind, Option.bind_eq_some_iff] at hrun
    obtain ⟨_, hguard, c₁, hstep, hrun⟩ := hrun
    -- The first operator can be lowered, and leaves a state from which the others can.
    obtain ⟨u, hu, hagrees⟩ := step_agrees h hd ((Option.guard_eq_some' _).1 hguard) hstep
    have hm := step_moves hf hu
    obtain ⟨t, ht, hagrees'⟩ := ih hagrees (Moves.disciplined hm hd) (Moves.framed hm hf) hrun
    exact ⟨t, steps_cons.2 ⟨u, hu, ht⟩, hagrees'⟩

end Steps

/-! ## Slots -/

section Start

variable {result : NativeType} {s : State} {us : List ValueType}

/-- Slots of the types `us`, and nothing but them, in a draft whose returns are right. -/
structure Allotted (result : NativeType) (us : List ValueType) (s : State) : Prop where
  arranged : s.draft.Arranged []
  locals : SlotsTyped s.locals us
  returning : s.draft.Returning result

/-- Slots have the types that they are made for. -/
private theorem Allotted.allotAll {slots : List (ScalarType × Operand)} {ts : List ValueType}
    (h : Allotted result us s)
    (hts : ts.mapM (ValueType.scalar hostPointerBits) = .ok (slots.map Prod.fst)) :
    Allotted result (us ++ ts) (s.allotAll slots) := by
  induction ts generalizing s us slots with
  | nil =>
    obtain rfl := List.map_eq_nil_iff.1 (Except.ok.inj hts).symm
    rwa [List.append_nil]
  | cons t ts ih =>
    obtain ⟨scalar, more, hscalar, hmore, hslots⟩ := mapM_scalar_cons.1 hts
    obtain ⟨⟨type, first⟩, later, rfl, rfl, rfl⟩ := List.map_eq_cons_iff.1 hslots
    -- The first slot is the next one behind the others.
    have hfirst : Allotted result (us ++ [t]) (s.allotted type first) := by
      refine ⟨(h.arranged.skipValue.append _).append _, ?_, ?_⟩
      · show List.Forall₂ _ (s.locals.push _).toList _
        rw [Array.toList_push]
        exact List.rel_append h.locals (.cons hscalar .nil)
      · exact (h.returning.skipValue.append h.arranged.skipValue _ rfl).append
          (h.arranged.skipValue.append _) _ rfl
    have hlater := ih hfirst hmore
    rwa [List.append_assoc] at hlater

/-- The slots of known types can be made, and the two states agree before the first operator. -/
theorem start_agrees {type : FuncType} {locals : List ValueType} (intrinsics : IntrinsicTable)
    (htype : type.isKnown = true) (hlocals : knownTypes locals = true)
    (hresult : resultType hostPointerBits type.results = .ok result) :
    ∃ s, State.start type locals intrinsics = .ok s ∧
      Agrees (.of type locals) result (Checker.start type.results) s := by
  simp only [FuncType.isKnown, Bool.and_eq_true] at htype
  -- The entry block is empty, so nothing returns yet.
  have hinitial : Allotted result [] (State.initial type intrinsics) := by
    refine ⟨(State.disciplined_initial type intrinsics).sound.toArranged, .nil, ?_⟩
    intro l hl line hline
    obtain rfl : l = Draft.entryLabel := by
      simpa [State.initial, Draft.start, Draft.labels] using hl
    cases hline
  obtain ⟨params, hparams⟩ := exists_mapM_scalar htype.1
  obtain ⟨scalars, hscalars⟩ := exists_mapM_scalar hlocals
  have hstart := (@start_eq_ok _ type locals intrinsics).2 ⟨params, scalars, hparams, hscalars, rfl⟩
  have hargs := @Allotted.allotAll _ _ _ (argSlots 0 params) _ hinitial (by rwa [map_fst_argSlots])
  have hallot := @Allotted.allotAll _ _ _ (zeroSlots scalars) _ hargs (by rwa [map_fst_zeroSlots])
  rw [← State.allotAll_append] at hallot
  obtain ⟨-, hphase, -, hconstructs, hstack, hresults⟩ := start_moves hstart
  refine ⟨_, hstart, ⟨by simp [Checker.start], by simp [Checker.start]⟩, hallot.locals, hresults,
    hresult, hallot.returning, ?_⟩
  refine .live [] hphase rfl ?_ ?_ ?_
  · rw [hstack]
    exact .nil
  · rw [hconstructs]
    exact .function rfl rfl rfl
  · intro fr hfr
    obtain rfl := List.mem_singleton.1 hfr
    rfl

end Start

end WasmLowering.Lowering
