import Mathlib
import WasmLowering.Operator

/-!
# Validation of function bodies

The validation algorithm of WebAssembly, on the operators of a body. It keeps a stack of operand
types and a stack of frames, one for each open construct and one for the function. After a branch,
a return or a trap the rest of the frame is unreachable: its operands are dropped, and operands of
any type may be popped from then on, which are unknown.

## Key results

- `Checker.step`: the algorithm, for one operator
- `accepts`: whether a body is valid
- `popAll_framed`: popping operands leaves alone what lies below the innermost frame
- `popAll_live`: in code that can be reached, the operands popped are those that are expected
-/

namespace WasmLowering

/-! ## Types of operators -/

/-- Whether all types of a list are known. -/
def knownTypes (ts : List ValueType) : Bool :=
  ts.all ValueType.isKnown

/-- Whether a function type has known types only. -/
def FuncType.isKnown (type : FuncType) : Bool :=
  knownTypes type.params && knownTypes type.results

/-- The integer type with the width of a float type. -/
def FloatWidth.asInt : FloatWidth → ValueType
  | w32 => .i32
  | w64 => .i64

/-- The float type with the width of an integer type. -/
def IntWidth.asFloat : IntWidth → ValueType
  | w32 => .f32
  | w64 => .f64

/-- The type that a conversion takes. -/
def Conversion.source : Conversion → ValueType
  | wrap => .i64
  | extend _ => .i32
  | trunc source _ _ => source.type
  | convert source _ _ => source.type
  | demote => .f64
  | promote => .f32
  | reinterpretAsInt width => width.asFloat
  | reinterpretAsFloat width => width.asInt

/-- Whether there is an operator that extends the sign of the lowest `bits` bits. -/
def IntWidth.extendsFrom : IntWidth → Nat → Bool
  | w32, bits => bits == 8 || bits == 16
  | w64, bits => bits == 8 || bits == 16 || bits == 32

/-- Whether an operator opens, closes or leaves a construct. -/
def Operator.isControl : Operator → Bool
  | .unreachable | .block _ | .loop _ | .ifBlock _ | .elseBlock | .endBlock | .br _ | .ret => true
  | _ => false

/-- What an operator takes from the stack and puts there, if that depends on the operator only. -/
def Operator.signature : Operator → Option (List ValueType × List ValueType)
  | nop => some ([], [])
  | selectTyped type => if type.isKnown then some ([type, type, .i32], [type]) else none
  | i32Const _ => some ([], [.i32])
  | i64Const _ => some ([], [.i64])
  | f32Const _ => some ([], [.f32])
  | f64Const _ => some ([], [.f64])
  | eqz width => some ([width.type], [.i32])
  | intCompare width _ => some ([width.type, width.type], [.i32])
  | floatCompare width _ => some ([width.type, width.type], [.i32])
  | bitCount width _ => some ([width.type], [width.type])
  | intBinary width _ | shift width _ | rotate width _ =>
    some ([width.type, width.type], [width.type])
  | floatUnary width _ => some ([width.type], [width.type])
  | floatBinary width _ => some ([width.type, width.type], [width.type])
  | convert conversion => some ([conversion.source], [conversion.target])
  | signExtend width bits =>
    if width.extendsFrom bits then some ([width.type], [width.type]) else none
  | truncSat source target _ => some ([source.type], [target.type])
  | _ => none

namespace Validation

/-! ## Frames -/

/-- What a frame is for. -/
inductive FrameKind where
  | function
  | block
  | loop
  | ifArm
  | elseArm
  deriving Repr, DecidableEq

/-- An open construct. -/
structure Frame where
  kind : FrameKind
  /-- The types of its parameters. -/
  start : List ValueType
  /-- The types of its results. -/
  stop : List ValueType
  /-- The number of operands below it. -/
  height : Nat
  /-- Whether the rest of the construct cannot be reached. -/
  unreachable : Bool := false
  deriving Repr, DecidableEq

/-- The types that a branch to the construct takes along. -/
def Frame.label (fr : Frame) : List ValueType :=
  if fr.kind = .loop then fr.start else fr.stop

/-- What the operators of a body may refer to. -/
structure BodyTypes where
  /-- The types of the parameters and locals. -/
  locals : List ValueType
  /-- The results of the function. -/
  results : List ValueType
  deriving Repr, DecidableEq

/-- What an operator takes from the stack and puts there, if that depends on the operator and the
    locals only. -/
def BodyTypes.signature (body : BodyTypes) : Operator → Option (List ValueType × List ValueType)
  | .localGet index => body.locals[index.toNat]?.map fun t => ([], [t])
  | .localSet index => body.locals[index.toNat]?.map fun t => ([t], [])
  | .localTee index => body.locals[index.toNat]?.map fun t => ([t], [t])
  | op => op.signature

/-- An operator without control takes operands of the types `ins` and gives results of the types
    `outs`. -/
inductive HasType (body : BodyTypes) : Operator → List ValueType → List ValueType → Prop where
  | of {op : Operator} {ins outs : List ValueType} (h : body.signature op = some (ins, outs)) :
      HasType body op ins outs
  | drop (t : ValueType) : HasType body .drop [t] []
  | select (t : ValueType) : HasType body .select [t, t, .i32] [t]

/-- The state of validation between two operators. -/
structure Checker where
  /-- The operand types, topmost first. An unknown type is `none`. -/
  vals : List (Option ValueType)
  /-- The open constructs, innermost first. -/
  frames : List Frame
  deriving Repr, DecidableEq

namespace Checker

/-! ## Operands -/

/-- Pops an operand of any type. Below the operands of an unreachable frame there are operands of
    unknown type. -/
def popAny (c : Checker) : Option (Option ValueType × Checker) :=
  match c.frames with
  | [] => none
  | fr :: _ =>
    if c.vals.length = fr.height then
      if fr.unreachable then some (none, c) else none
    else
      match c.vals with
      | [] => none
      | t :: vals => some (t, { c with vals })

/-- Pops an operand of a given type. -/
def pop (c : Checker) (expected : ValueType) : Option Checker := do
  let (actual, c) ← c.popAny
  if actual = none ∨ actual = some expected then some c else none

/-- Pops operands of given types, of which the last is on top. -/
def popAll (c : Checker) : List ValueType → Option Checker
  | [] => some c
  | t :: ts => do
    let c ← c.popAll ts
    c.pop t

/-- Pushes operands of given types, the last one on top. -/
def pushAll (c : Checker) (ts : List ValueType) : Checker :=
  { c with vals := (ts.map some).reverse ++ c.vals }

/-! ## Frames -/

/-- Opens a construct whose parameters have been popped. -/
def enter (c : Checker) (kind : FrameKind) (start stop : List ValueType) : Checker :=
  { c with frames := { kind, start, stop, height := c.vals.length } :: c.frames }.pushAll start

/-- Closes the innermost construct, with nothing but its results above what is below it. -/
def leave (c : Checker) : Option (Frame × Checker) :=
  match c.frames with
  | [] => none
  | fr :: rest => do
    let c ← c.popAll fr.stop
    if c.vals.length = fr.height then some (fr, { c with frames := rest }) else none

/-- The rest of the innermost construct cannot be reached. -/
def markUnreachable (c : Checker) : Option Checker :=
  match c.frames with
  | [] => none
  | fr :: rest =>
    some ⟨c.vals.drop (c.vals.length - fr.height), { fr with unreachable := true } :: rest⟩

/-- Whether the untyped selection may be between operands of these types, which is so for numbers of
    one type and for vectors. -/
def selectable (a b : Option ValueType) : Bool :=
  (a.all ValueType.isNumeric && b.all ValueType.isNumeric ||
    a.all ValueType.isVector && b.all ValueType.isVector) && (a == b || a == none || b == none)

/-! ## Operators -/

/-- Opens a block. -/
def block (c : Checker) (type : FuncType) : Option Checker := do
  guard type.isKnown
  let c ← c.popAll type.params
  return c.enter .block type.params type.results

/-- Opens a loop. -/
def loop (c : Checker) (results : List ValueType) : Option Checker := do
  guard (knownTypes results)
  return c.enter .loop [] results

/-- Opens a conditional. -/
def ifBlock (c : Checker) (type : FuncType) : Option Checker := do
  guard type.isKnown
  let c ← c.popAll (type.params ++ [.i32])
  return c.enter .ifArm type.params type.results

/-- Goes from the first arm of a conditional to the second. -/
def elseBlock (c : Checker) : Option Checker := do
  let (fr, c) ← c.leave
  guard (fr.kind = .ifArm)
  return c.enter .elseArm fr.start fr.stop

/-- Closes the innermost construct. A conditional without a second arm passes its parameters on. -/
def endBlock (c : Checker) : Option Checker := do
  let (fr, c) ← c.leave
  guard (fr.kind = .ifArm → fr.start = fr.stop)
  return c.pushAll fr.stop

/-- Leaves with operands of given types, so that what follows cannot be reached. -/
def jump (c : Checker) (ts : List ValueType) : Option Checker := do
  let c ← c.popAll ts
  c.markUnreachable

/-- Branches out of `depth` constructs and to the one around them. -/
def br (c : Checker) (depth : Nat) : Option Checker := do
  let fr ← c.frames[depth]?
  c.jump fr.label

/-- Drops an operand. -/
def drop (c : Checker) : Option Checker := do
  let (_, c) ← c.popAny
  return c

/-- Selects one of two operands whose type is not given. -/
def select (c : Checker) : Option Checker := do
  let c ← c.pop .i32
  let (a, c) ← c.popAny
  let (b, c) ← c.popAny
  guard (selectable a b)
  return { c with vals := (if a = none then b else a) :: c.vals }

/-- Replaces operands of given types by others. -/
def replace (c : Checker) (signature : Option (List ValueType × List ValueType)) :
    Option Checker := do
  let (ins, outs) ← signature
  let c ← c.popAll ins
  return c.pushAll outs

/-- Validates an operator inside a construct. -/
def step (body : BodyTypes) (c : Checker) : Operator → Option Checker
  | .unreachable => c.jump []
  | .block type => c.block type
  | .loop results => c.loop results
  | .ifBlock type => c.ifBlock type
  | .elseBlock => c.elseBlock
  | .endBlock => c.endBlock
  | .br depth => c.br depth.toNat
  | .ret => c.jump body.results
  | .drop => c.drop
  | .select => c.select
  | op => c.replace (body.signature op)

/-- Validates a list of operators, none of which stands after the end of the function. -/
def run (body : BodyTypes) (c : Checker) : List Operator → Option Checker
  | [] => some c
  | op :: ops => do
    guard (c.frames ≠ [])
    let c ← c.step body op
    c.run body ops

/-- The state before the first operator. -/
def start (results : List ValueType) : Checker where
  vals := []
  frames := [{ kind := .function, start := [], stop := results, height := 0 }]

end Checker

/-- The types of a body with given locals. -/
def BodyTypes.of (type : FuncType) (locals : List ValueType) : BodyTypes where
  locals := type.params ++ locals
  results := type.results

/-- Whether a body with given locals and operators is valid: its types are known and its operators
    can be validated up to the end of the function. -/
def accepts (type : FuncType) (locals : List ValueType) (ops : List Operator) : Bool :=
  type.isKnown && knownTypes locals &&
    ((Checker.start type.results).run (.of type locals) ops).any (·.frames == [])

/-! ## What stays below a frame -/

namespace Checker

/-- No frame starts above one inside it, and the innermost one does not start above the stack. -/
structure Framed (c : Checker) : Prop where
  nested : (c.frames.map Frame.height).Pairwise (· ≥ ·)
  height : ∀ fr ∈ c.frames, fr.height ≤ c.vals.length

section Framed

variable {c c' : Checker} {t : Option ValueType} {ts : List ValueType} {body : BodyTypes}

/-- An operand that is popped lies on top, or is made up in an unreachable frame. -/
private theorem popAny_eq_some (h : c.popAny = some (t, c')) :
    ∃ fr rest, c.frames = fr :: rest ∧ c'.frames = c.frames ∧
      (c.vals = t :: c'.vals ∧ c.vals.length ≠ fr.height ∨
        t = none ∧ c' = c ∧ fr.unreachable = true ∧ c.vals.length = fr.height) := by
  unfold popAny at h
  split at h
  · cases h
  · next fr rest hfr =>
    refine ⟨fr, rest, hfr, ?_⟩
    -- Either nothing is above the frame, and an operand can be made up only if it is unreachable,
    -- or the top of the stack is taken.
    split at h
    · next hlen =>
      split at h
      · next hun =>
        obtain ⟨rfl, rfl⟩ := Prod.mk.inj (Option.some.inj h)
        exact ⟨rfl, .inr ⟨rfl, rfl, hun, hlen⟩⟩
      · cases h
    · next hlen =>
      split at h
      · cases h
      · next t' vals hvals =>
        obtain ⟨rfl, rfl⟩ := Prod.mk.inj (Option.some.inj h)
        exact ⟨rfl, .inl ⟨hvals, hlen⟩⟩

/-- An operand of a given type is popped if it has that type or an unknown one. -/
private theorem pop_eq_some {expected : ValueType} :
    c.pop expected = some c' ↔
      ∃ t, c.popAny = some (t, c') ∧ (t = none ∨ t = some expected) := by
  unfold pop
  simp only [Option.bind_eq_bind, Option.bind_eq_some_iff, Prod.exists]
  constructor
  · intro ⟨t, c₁, hpop, h⟩
    split at h
    · next ht =>
      obtain rfl := Option.some.inj h
      exact ⟨t, hpop, ht⟩
    · cases h
  · intro ⟨t, hpop, ht⟩
    exact ⟨t, c', hpop, if_pos ht⟩

private theorem popAll_cons {t : ValueType} :
    c.popAll (t :: ts) = some c' ↔ ∃ c₁, c.popAll ts = some c₁ ∧ c₁.pop t = some c' := by
  simp only [popAll, Option.bind_eq_bind, Option.bind_eq_some_iff]

/-- Popping an operand leaves the frames, and what is below the innermost one. -/
private theorem popAny_framed (hf : c.Framed) (h : c.popAny = some (t, c')) :
    c'.frames = c.frames ∧ c'.Framed ∧ c'.vals <:+ c.vals := by
  obtain ⟨fr, rest, hfr, hframes, ⟨hvals, hlen⟩ | ⟨-, rfl, -, -⟩⟩ := popAny_eq_some h
  · refine ⟨hframes, ⟨by rw [hframes]; exact hf.nested, fun fr' hmem => ?_⟩, ?_⟩
    · -- The innermost frame starts highest, and one operand lay above it.
      have hle := hf.height fr (by simp [hfr])
      have hnested := hf.nested
      rw [hframes] at hmem
      rw [hfr, List.map_cons, List.pairwise_cons] at hnested
      rw [hfr] at hmem
      have hfr' : fr'.height ≤ fr.height := by
        obtain rfl | hmem := List.mem_cons.1 hmem
        · exact Nat.le_refl _
        · exact hnested.1 _ (List.mem_map_of_mem hmem)
      rw [hvals, List.length_cons] at hle hlen
      omega
    · rw [hvals]
      exact List.suffix_cons ..
  · exact ⟨rfl, hf, List.suffix_rfl⟩

/-- Popping operands leaves the frames, and what is below the innermost one. -/
theorem popAll_framed (hf : c.Framed) (h : c.popAll ts = some c') :
    c'.frames = c.frames ∧ c'.Framed ∧ c'.vals <:+ c.vals := by
  induction ts generalizing c' with
  | nil =>
    obtain rfl := Option.some.inj h
    exact ⟨rfl, hf, List.suffix_rfl⟩
  | cons t ts ih =>
    obtain ⟨c₁, h₁, h⟩ := popAll_cons.1 h
    obtain ⟨hfr₁, hf₁, hs₁⟩ := ih h₁
    obtain ⟨t', hpop, -⟩ := pop_eq_some.1 h
    obtain ⟨hfr, hf', hs⟩ := popAny_framed hf₁ hpop
    exact ⟨hfr.trans hfr₁, hf', hs.trans hs₁⟩

/-- The types of the lowest `n` operands, bottom first. -/
def below (c : Checker) (n : Nat) : List (Option ValueType) :=
  c.vals.reverse.take n

private theorem below_of_suffix {n : Nat} (h : c'.vals <:+ c.vals) (hn : n ≤ c'.vals.length) :
    c'.below n = c.below n := by
  obtain ⟨popped, h⟩ := h
  rw [below, below, ← h, List.reverse_append, List.take_append_of_le_length (by simpa using hn)]

private theorem below_pushAll {n : Nat} (hn : n ≤ c.vals.length) :
    (c.pushAll ts).below n = c.below n := by
  rw [below, pushAll, List.reverse_append, List.take_append_of_le_length (by simpa using hn), below]

/-- What lies below the frames of a state is still there in another one. -/
def Kept (c c' : Checker) : Prop :=
  ∀ fr ∈ c.frames, fr.height ≤ c'.vals.length ∧ c'.below fr.height = c.below fr.height

/-- What is popped lies above all frames, so that nothing below them is lost. -/
private theorem kept_of_suffix (hframes : c'.frames = c.frames) (hf : c'.Framed)
    (hs : c'.vals <:+ c.vals) : Kept c c' := by
  intro fr hfr
  have hle := hf.height fr (hframes ▸ hfr)
  exact ⟨hle, below_of_suffix hs hle⟩

/-- What is kept below the frames stays there when operands are pushed. -/
theorem Kept.pushAll (h : Kept c c') (ts : List ValueType) : Kept c (c'.pushAll ts) := by
  intro fr hfr
  obtain ⟨hle, hbelow⟩ := h fr hfr
  refine ⟨?_, (below_pushAll hle).trans hbelow⟩
  simp only [Checker.pushAll, List.length_append]
  omega

/-- Pushing operands keeps the frames in order. -/
theorem Framed.pushAll (hf : c.Framed) (ts : List ValueType) : (c.pushAll ts).Framed := by
  refine ⟨hf.nested, fun fr hfr => ?_⟩
  have := hf.height fr hfr
  simp only [Checker.pushAll, List.length_append]
  omega

/-- Opening a construct keeps the frames in order and what lies below them. -/
private theorem enter_framed (hf : c.Framed) (kind : FrameKind) (start stop : List ValueType) :
    (c.enter kind start stop).Framed ∧ Kept c (c.enter kind start stop) := by
  -- The new frame starts at the height of the stack, at or above all others.
  let fr : Frame := { kind, start, stop, height := c.vals.length }
  have hopen : Framed { c with frames := fr :: c.frames } := by
    refine ⟨?_, fun fr' hfr' => ?_⟩
    · rw [List.map_cons, List.pairwise_cons]
      refine ⟨fun n hn => ?_, hf.nested⟩
      obtain ⟨fr', hfr', rfl⟩ := List.mem_map.1 hn
      exact hf.height fr' hfr'
    · obtain rfl | hfr' := List.mem_cons.1 hfr'
      · exact Nat.le_refl _
      · exact hf.height fr' hfr'
  have hkept : Kept c { c with frames := fr :: c.frames } :=
    fun fr' hfr' => ⟨hf.height fr' hfr', rfl⟩
  exact ⟨hopen.pushAll start, hkept.pushAll start⟩

/-- Closing a construct pops its results, and nothing else may be left above what is below it. -/
theorem leave_eq_some {fr : Frame} (h : c.leave = some (fr, c')) :
    ∃ c₁, c.popAll fr.stop = some c₁ ∧ c₁.vals.length = fr.height ∧ c.frames = fr :: c'.frames ∧
      c'.vals = c₁.vals := by
  unfold leave at h
  split at h
  · cases h
  · next fr' rest hfr =>
    simp only [Option.bind_eq_bind, Option.bind_eq_some_iff] at h
    obtain ⟨c₁, hpop, h⟩ := h
    split at h
    · next hlen =>
      obtain ⟨rfl, rfl⟩ := Prod.mk.inj (Option.some.inj h)
      exact ⟨c₁, hpop, hlen, hfr, rfl⟩
    · cases h

/-- Closing a construct leaves the frames around it in order, and the stack as high as it
    started. -/
theorem leave_framed (hf : c.Framed) {fr : Frame} (h : c.leave = some (fr, c')) :
    c.frames = fr :: c'.frames ∧ c'.Framed ∧ Kept c c' ∧ c'.vals.length = fr.height := by
  obtain ⟨c₁, hpop, hlen, hframes, hvals⟩ := leave_eq_some h
  obtain ⟨hframes₁, hf₁, hs⟩ := popAll_framed hf hpop
  -- The height of a frame is not below that of the frames around it.
  have hnested := hf₁.nested
  rw [hframes₁, hframes, List.map_cons, List.pairwise_cons] at hnested
  have hkept := kept_of_suffix hframes₁ hf₁ hs
  refine ⟨hframes, ⟨hnested.2, fun fr' hfr' => ?_⟩, ?_, by rw [hvals, hlen]⟩
  · rw [hvals]
    exact hf₁.height fr' (by rw [hframes₁, hframes]; exact List.mem_cons_of_mem _ hfr')
  · unfold Kept below at hkept ⊢
    rwa [hvals]

/-- To cut a construct short is to drop its operands and to mark its frame. -/
private theorem markUnreachable_eq_some (h : c.markUnreachable = some c') :
    ∃ fr rest, c.frames = fr :: rest ∧ c'.frames = { fr with unreachable := true } :: rest ∧
      c'.vals = c.vals.drop (c.vals.length - fr.height) := by
  unfold markUnreachable at h
  split at h
  · cases h
  · next fr rest hfr =>
    obtain rfl := Option.some.inj h
    exact ⟨fr, rest, hfr, rfl, rfl⟩

/-- Cutting a construct short keeps the frames in order and what lies below them. -/
private theorem markUnreachable_framed (hf : c.Framed) (h : c.markUnreachable = some c') :
    c'.Framed ∧ Kept c c' := by
  obtain ⟨fr, rest, hfr, hfr', hvals⟩ := markUnreachable_eq_some h
  have hle := hf.height fr (by simp [hfr])
  have hlen : c'.vals.length = fr.height := by
    rw [hvals, List.length_drop]
    omega
  -- The marked frame is as high as before, so no frame is above the stack that was cut to it.
  have hnested := hf.nested
  rw [hfr, List.map_cons, List.pairwise_cons] at hnested
  have hheight : ∀ fr' ∈ fr :: rest, fr'.height ≤ c'.vals.length := by
    intro fr' hmem
    rw [hlen]
    obtain rfl | hmem := List.mem_cons.1 hmem
    · exact Nat.le_refl _
    · exact hnested.1 _ (List.mem_map_of_mem hmem)
  refine ⟨⟨?_, fun fr' hmem => ?_⟩, fun fr' hmem => ?_⟩
  · rw [hfr', List.map_cons, List.pairwise_cons]
    exact hnested
  · rw [hfr'] at hmem
    obtain rfl | hmem := List.mem_cons.1 hmem
    · exact hheight fr List.mem_cons_self
    · exact hheight fr' (List.mem_cons_of_mem _ hmem)
  · have hle' := hheight fr' (hfr ▸ hmem)
    refine ⟨hle', below_of_suffix ?_ hle'⟩
    rw [hvals]
    exact List.drop_suffix ..

/-- How an operator changes the frames. -/
def Reframed (op : Operator) (old new : List Frame) : Prop :=
  match op with
  | .block _ | .loop _ | .ifBlock _ => ∃ fr, new = fr :: old
  | .elseBlock => ∃ fr rest, old = fr :: rest ∧
      new = { fr with kind := .elseArm, unreachable := false } :: rest
  | .endBlock => ∃ fr, old = fr :: new
  | .unreachable | .br _ | .ret =>
    ∃ fr rest, old = fr :: rest ∧ new = { fr with unreachable := true } :: rest
  | _ => new = old

private theorem replace_framed {signature : Option (List ValueType × List ValueType)}
    (hf : c.Framed) (h : c.replace signature = some c') :
    c'.Framed ∧ Kept c c' ∧ c'.frames = c.frames := by
  simp only [replace, Option.bind_eq_bind, Option.bind_eq_some_iff, Prod.exists] at h
  obtain ⟨ins, outs, -, c₁, hpop, h⟩ := h
  obtain rfl := Option.some.inj h
  obtain ⟨hframes, hf₁, hs⟩ := popAll_framed hf hpop
  exact ⟨hf₁.pushAll outs, (kept_of_suffix hframes hf₁ hs).pushAll outs, hframes⟩

/-- What two changes keep is kept by both together, if the first one leaves the frames. -/
theorem Kept.trans {c'' : Checker} (h : Kept c c') (h' : Kept c' c'')
    (hframes : c'.frames = c.frames) : Kept c c'' := by
  intro fr hfr
  obtain ⟨hle, hbelow⟩ := h' fr (hframes ▸ hfr)
  exact ⟨hle, hbelow.trans (h fr hfr).2⟩

private theorem popAll_enter_framed (hf : c.Framed) (h : c.popAll ts = some c') (kind : FrameKind)
    (start stop : List ValueType) :
    (c'.enter kind start stop).Framed ∧ Kept c (c'.enter kind start stop) ∧
      ∃ fr, (c'.enter kind start stop).frames = fr :: c.frames := by
  obtain ⟨hframes, hf', hs⟩ := popAll_framed hf h
  obtain ⟨hopen, hkept⟩ := enter_framed hf' kind start stop
  refine ⟨hopen, (kept_of_suffix hframes hf' hs).trans hkept hframes, ?_⟩
  rw [← hframes]
  exact ⟨_, rfl⟩

/-- A jump cuts the innermost construct short, after popping the operands that it takes along. -/
theorem jump_framed (hf : c.Framed) (h : c.jump ts = some c') :
    c'.Framed ∧ Kept c c' ∧
      ∃ fr rest, c.frames = fr :: rest ∧ c'.frames = { fr with unreachable := true } :: rest := by
  simp only [jump, Option.bind_eq_bind, Option.bind_eq_some_iff] at h
  obtain ⟨c₁, hpop, hmark⟩ := h
  obtain ⟨hframes, hf₁, hs⟩ := popAll_framed hf hpop
  obtain ⟨hf', hkept⟩ := markUnreachable_framed hf₁ hmark
  obtain ⟨fr, rest, hfr, hfr', -⟩ := markUnreachable_eq_some hmark
  exact ⟨hf', (kept_of_suffix hframes hf₁ hs).trans hkept hframes, fr, rest, hframes ▸ hfr, hfr'⟩

/-- An `else` closes the first arm of a conditional and opens the second. -/
theorem elseBlock_eq_some (h : c.elseBlock = some c') :
    ∃ fr c₁, c.leave = some (fr, c₁) ∧ fr.kind = .ifArm ∧
      c' = c₁.enter .elseArm fr.start fr.stop := by
  simp only [elseBlock, Option.bind_eq_bind, Option.bind_eq_some_iff, Prod.exists] at h
  obtain ⟨fr, c₁, hleave, _, hguard, h⟩ := h
  exact ⟨fr, c₁, hleave, (Option.guard_eq_some' _).1 hguard, (Option.some.inj h).symm⟩

/-- An `end` closes the innermost construct and pushes its results. A conditional without a second
    arm needs parameters that are its results. -/
theorem endBlock_eq_some (h : c.endBlock = some c') :
    ∃ fr c₁, c.leave = some (fr, c₁) ∧ (fr.kind = .ifArm → fr.start = fr.stop) ∧
      c' = c₁.pushAll fr.stop := by
  simp only [endBlock, Option.bind_eq_bind, Option.bind_eq_some_iff, Prod.exists] at h
  obtain ⟨fr, c₁, hleave, _, hguard, h⟩ := h
  exact ⟨fr, c₁, hleave, (Option.guard_eq_some' _).1 hguard, (Option.some.inj h).symm⟩

private theorem elseBlock_framed (hf : c.Framed) (h : c.elseBlock = some c') :
    c'.Framed ∧ Kept c c' ∧ Reframed .elseBlock c.frames c'.frames := by
  obtain ⟨fr, c₁, hleave, -, rfl⟩ := elseBlock_eq_some h
  obtain ⟨hframes, hf₁, hkept, hlen⟩ := leave_framed hf hleave
  obtain ⟨hopen, -⟩ := enter_framed hf₁ .elseArm fr.start fr.stop
  refine ⟨hopen, hkept.pushAll fr.start, fr, c₁.frames, hframes, ?_⟩
  rw [← hlen]
  rfl

/-- An `end` removes the innermost frame and nothing below the others. -/
theorem endBlock_framed (hf : c.Framed) (h : c.endBlock = some c') :
    c'.Framed ∧ Kept c c' ∧ Reframed .endBlock c.frames c'.frames := by
  obtain ⟨fr, c₁, hleave, -, rfl⟩ := endBlock_eq_some h
  obtain ⟨hframes, hf₁, hkept, -⟩ := leave_framed hf hleave
  exact ⟨hf₁.pushAll _, hkept.pushAll _, fr, hframes⟩

/-- An untyped selection keeps the frames and what is below them. -/
private theorem select_framed (hf : c.Framed) (h : c.select = some c') :
    c'.Framed ∧ Kept c c' ∧ c'.frames = c.frames := by
  simp only [select, Option.bind_eq_bind, Option.bind_eq_some_iff, Prod.exists] at h
  obtain ⟨c₁, hpop, a, c₂, ha, b, c₃, hb, -, -, h⟩ := h
  obtain rfl := Option.some.inj h
  obtain ⟨t, hpop, -⟩ := pop_eq_some.1 hpop
  obtain ⟨hframes₁, hf₁, hs₁⟩ := popAny_framed hf hpop
  obtain ⟨hframes₂, hf₂, hs₂⟩ := popAny_framed hf₁ ha
  obtain ⟨hframes₃, hf₃, hs₃⟩ := popAny_framed hf₂ hb
  have hframes := (hframes₃.trans hframes₂).trans hframes₁
  -- The operand that is pushed comes to lie above the three that were popped.
  refine ⟨⟨hf₃.nested, fun fr hfr => ?_⟩, fun fr hfr => ?_, hframes⟩
  · exact Nat.le_succ_of_le (hf₃.height fr hfr)
  · have hle := hf₃.height fr (hframes ▸ hfr)
    have hkept := kept_of_suffix hframes hf₃ ((hs₃.trans hs₂).trans hs₁) fr hfr
    refine ⟨Nat.le_succ_of_le hle, Eq.trans ?_ hkept.2⟩
    exact (below_of_suffix (List.suffix_cons ..) hle).symm

/-- An operator keeps what is below the frames, and changes the frames as it has to. -/
theorem step_framed {op : Operator} (hf : c.Framed) (h : c.step body op = some c') :
    c'.Framed ∧ Kept c c' ∧ Reframed op c.frames c'.frames := by
  -- Control opens, closes or cuts the innermost frame; the rest works on its operands.
  cases op with
  | unreachable => exact jump_framed hf h
  | block type =>
    have h : c.block type = some c' := h
    simp only [block, Option.bind_eq_bind, Option.bind_eq_some_iff] at h
    obtain ⟨-, -, c₁, hpop, h⟩ := h
    obtain rfl := Option.some.inj h
    exact popAll_enter_framed hf hpop ..
  | loop results =>
    have h : c.loop results = some c' := h
    simp only [loop, Option.bind_eq_bind, Option.bind_eq_some_iff] at h
    obtain ⟨-, -, h⟩ := h
    obtain rfl := Option.some.inj h
    exact @popAll_enter_framed c c [] hf rfl .loop [] results
  | ifBlock type =>
    have h : c.ifBlock type = some c' := h
    simp only [ifBlock, Option.bind_eq_bind, Option.bind_eq_some_iff] at h
    obtain ⟨-, -, c₁, hpop, h⟩ := h
    obtain rfl := Option.some.inj h
    exact popAll_enter_framed hf hpop ..
  | elseBlock => exact elseBlock_framed hf h
  | endBlock => exact endBlock_framed hf h
  | br depth =>
    have h : c.br depth.toNat = some c' := h
    simp only [br, Option.bind_eq_bind, Option.bind_eq_some_iff] at h
    obtain ⟨fr, -, h⟩ := h
    exact jump_framed hf h
  | ret => exact jump_framed hf h
  | drop =>
    have h : c.drop = some c' := h
    simp only [drop, Option.bind_eq_bind, Option.bind_eq_some_iff, Prod.exists] at h
    obtain ⟨t, c₁, hpop, h⟩ := h
    obtain rfl := Option.some.inj h
    obtain ⟨hframes, hf', hs⟩ := popAny_framed hf hpop
    exact ⟨hf', kept_of_suffix hframes hf' hs, hframes⟩
  | select => exact select_framed hf h
  | _ => exact replace_framed hf h

end Framed

/-! ## Code that can be reached -/

section Live

variable {c c' : Checker} {fr : Frame} {rest : List Frame}

/-- In code that can be reached, an operand that is popped lies on top, above the frame. -/
private theorem popAny_live {ts : List ValueType} (hvals : c.vals = (ts.map some).reverse)
    (hfr : c.frames = fr :: rest) (hlive : fr.unreachable = false) {t : Option ValueType}
    (hle : fr.height ≤ c.vals.length) (h : c.popAny = some (t, c')) :
    ∃ ts' u, ts = ts' ++ [u] ∧ t = some u ∧ c' = { c with vals := (ts'.map some).reverse } ∧
      fr.height ≤ ts'.length := by
  -- An operand could be made up only if the frame were unreachable.
  obtain ⟨fr', rest', hfr', hframes, ⟨hpop, hlen⟩ | ⟨-, -, hun, -⟩⟩ := popAny_eq_some h
  · obtain ⟨rfl, rfl⟩ := List.cons.inj (hfr.symm.trans hfr')
    obtain rfl | ⟨ts', u, rfl⟩ := List.eq_nil_or_concat ts
    · rw [hvals] at hpop
      cases hpop
    · rw [hvals, List.concat_eq_append, List.map_append, List.reverse_append] at hpop
      obtain ⟨rfl, hrest⟩ := List.cons.inj hpop
      refine ⟨ts', u, List.concat_eq_append, rfl, ?_, ?_⟩
      · rw [← hframes]
        exact congrArg (Checker.mk · c'.frames) hrest.symm
      · rw [hvals] at hlen hle
        simp only [List.concat_eq_append, List.map_append, List.reverse_append, List.length_append,
          List.length_reverse, List.length_map, List.map_cons, List.map_nil, List.length_cons,
          List.length_nil] at hlen hle
        omega
  · obtain ⟨rfl, rfl⟩ := List.cons.inj (hfr.symm.trans hfr')
    rw [hlive] at hun
    cases hun

/-- In code that can be reached, the operands that are popped are those that are expected. -/
theorem popAll_live {ts us : List ValueType} (hvals : c.vals = (ts.map some).reverse)
    (hfr : c.frames = fr :: rest) (hlive : fr.unreachable = false)
    (hle : fr.height ≤ c.vals.length) (h : c.popAll us = some c') :
    ∃ ts', ts = ts' ++ us ∧ c' = { c with vals := (ts'.map some).reverse } ∧
      fr.height ≤ ts'.length := by
  induction us generalizing c' with
  | nil =>
    obtain rfl := Option.some.inj h
    rw [hvals, List.length_reverse, List.length_map] at hle
    exact ⟨ts, (List.append_nil ts).symm, by rw [← hvals], hle⟩
  | cons u us ih =>
    obtain ⟨c₁, h₁, h⟩ := popAll_cons.1 h
    obtain ⟨ts₁, rfl, rfl, hle₁⟩ := ih h₁
    obtain ⟨t, hpop, ht⟩ := pop_eq_some.1 h
    -- The operands above this one are popped already, and it is the next on the stack.
    obtain ⟨ts', u', rfl, rfl, rfl, hle'⟩ :=
      @popAny_live ⟨(ts₁.map some).reverse, c.frames⟩ c' fr rest ts₁ rfl hfr hlive t
        (by simpa using hle₁) hpop
    obtain rfl : u' = u := by simpa using ht
    exact ⟨ts', by simp, rfl, hle'⟩

theorem pushAll_live {ts us : List ValueType} (hvals : c.vals = (ts.map some).reverse) :
    (c.pushAll us).vals = ((ts ++ us).map some).reverse := by
  rw [pushAll, hvals, List.map_append, List.reverse_append]

/-- In code that can be reached, an operator without control replaces operands of known types. -/
theorem step_live {body : BodyTypes} {op : Operator} {ts : List ValueType}
    (hop : op.isControl = false) (hvals : c.vals = (ts.map some).reverse)
    (hfr : c.frames = fr :: rest) (hlive : fr.unreachable = false)
    (hle : fr.height ≤ c.vals.length) (h : c.step body op = some c') :
    ∃ ts' ins outs, HasType body op ins outs ∧ ts = ts' ++ ins ∧ fr.height ≤ ts'.length ∧
      c' = { c with vals := ((ts' ++ outs).map some).reverse } := by
  -- Operators with a signature pop operands of its types; the two others are looked at below.
  have hreplace : c.replace (body.signature op) = some c' →
      ∃ ts' ins outs, HasType body op ins outs ∧ ts = ts' ++ ins ∧ fr.height ≤ ts'.length ∧
      c' = { c with vals := ((ts' ++ outs).map some).reverse } := by
    intro h
    simp only [replace, Option.bind_eq_bind, Option.bind_eq_some_iff, Prod.exists] at h
    obtain ⟨ins, outs, hsig, c₁, hpop, h⟩ := h
    obtain rfl := Option.some.inj h
    obtain ⟨ts', hts, rfl, hle'⟩ := popAll_live hvals hfr hlive hle hpop
    refine ⟨ts', ins, outs, .of hsig, hts, hle', ?_⟩
    simp only [pushAll, List.map_append, List.reverse_append]
  cases op with
  | drop =>
    have h : c.drop = some c' := h
    simp only [drop, Option.bind_eq_bind, Option.bind_eq_some_iff, Prod.exists] at h
    obtain ⟨t, c₁, hpop, h⟩ := h
    obtain rfl := Option.some.inj h
    obtain ⟨ts', u, rfl, -, rfl, hle'⟩ := popAny_live hvals hfr hlive hle hpop
    exact ⟨ts', [u], [], .drop u, rfl, hle', by rw [List.append_nil]⟩
  | select =>
    have h : c.select = some c' := h
    simp only [select, Option.bind_eq_bind, Option.bind_eq_some_iff, Prod.exists] at h
    obtain ⟨c₁, hpop, a, c₂, ha, b, c₃, hb, _, hselect, h⟩ := h
    obtain rfl := Option.some.inj h
    -- The condition is popped first, and then two operands of any type.
    have hall : c.popAll [.i32] = some c₁ := hpop
    obtain ⟨ts₁, rfl, rfl, hle₁⟩ := popAll_live hvals hfr hlive hle hall
    obtain ⟨ts₂, u, rfl, rfl, rfl, hle₂⟩ := popAny_live (c := ⟨(ts₁.map some).reverse, c.frames⟩)
      rfl hfr hlive (by simpa using hle₁) ha
    obtain ⟨ts₃, w, rfl, rfl, rfl, hle₃⟩ := popAny_live (c := ⟨(ts₂.map some).reverse, c.frames⟩)
      rfl hfr hlive (by simpa using hle₂) hb
    -- Both operands are known, so they are of one type.
    obtain rfl : u = w := by
      have hboth : selectable (some u) (some w) = true := (Option.guard_eq_some' _).1 hselect
      simp only [selectable, Bool.and_eq_true] at hboth
      simpa using hboth.2
    exact ⟨ts₃, [u, u, .i32], [u], .select u, by simp, hle₃, by simp⟩
  | unreachable | block | loop | ifBlock | elseBlock | endBlock | br | ret => cases hop
  | _ => exact hreplace h

end Live

end Checker

end Validation

end WasmLowering
