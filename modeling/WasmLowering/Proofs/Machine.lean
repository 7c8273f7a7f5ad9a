import WasmLowering.Proofs.ControlFlow

/-!
# Execution of lowered functions

What the lines of a function do when they are run. Values are bits of a width, or bit patterns of
floats, which are only moved around. A slot is a row of typed cells, one for each field of what the
slot holds. A machine is somewhere in a block, with the lines of the block that are still to be run.
The phis of a block are run all at once, when the block is entered, with the values that belong to
the block that control comes from.

Where a line has no defined effect, there is no step: operands of other types than the line says, a
shift by the width or more, a cell that was never written. Divisions and the arithmetic of floats
are left out.

## Key definitions

- `Operand.eval`, `Rhs.eval`: the value of an operand and of a computation
- `Function.enter`: the phis on the edge taken
- `Function.step`, `Function.Leads`, `Function.Executes`: the run of a function
-/

namespace WasmLowering.Ssa

/-! ## Values -/

/-- A value that fits a register. -/
inductive Scalar where
  | int (bits : Nat) (value : BitVec bits)
  | float (pattern : BitVec 32)
  | double (pattern : BitVec 64)
  deriving Repr, DecidableEq

/-- The type of a value. -/
def Scalar.type : Scalar → ScalarType
  | int bits _ => .int bits
  | float _ => .float
  | double _ => .double

/-- What the number of a value stands for while a function runs. -/
inductive Datum where
  | scalar (value : Scalar)
  /-- The address of a field of a slot. -/
  | address (slot : ValueId) (field : Nat)
  | packed (fields : List Scalar)
  deriving Repr, DecidableEq

/-- A typed place in memory, which may not have been written yet. -/
structure Cell where
  type : ScalarType
  content : Option Scalar := none
  deriving Repr, DecidableEq

/-- The cells of a new slot. -/
def NativeType.cells : NativeType → List Cell
  | void => []
  | scalar type => [{ type }]
  | packed fields => fields.map ({ type := · })

/-! ## Operations -/

/-- Whether two integers compare as a predicate says. -/
def IntPredicate.holds {n : Nat} (a b : BitVec n) : IntPredicate → Bool
  | eq => a == b
  | ne => a != b
  | slt => a.slt b
  | ult => a.ult b
  | sgt => b.slt a
  | ugt => b.ult a
  | sle => a.sle b
  | ule => a.ule b
  | sge => b.sle a
  | uge => b.ule a

/-- The result of an operation on integers. A shift has to be by less than the width. -/
def BinaryOp.apply {n : Nat} (a b : BitVec n) : BinaryOp → Option (BitVec n)
  | add => some (a + b)
  | sub => some (a - b)
  | mul => some (a * b)
  | and => some (a &&& b)
  | or => some (a ||| b)
  | xor => some (a ^^^ b)
  | shl => if b.toNat < n then some (a <<< b.toNat) else none
  | ashr => if b.toNat < n then some (a.sshiftRight b.toNat) else none
  | lshr => if b.toNat < n then some (a >>> b.toNat) else none
  | _ => none

/-- The result of a change of width. -/
def Cast.apply {n : Nat} (a : BitVec n) (target : Nat) : Cast → Option (BitVec target)
  | zext => if n < target then some (a.setWidth target) else none
  | sext => if n < target then some (a.signExtend target) else none
  | trunc => if target < n then some (a.setWidth target) else none
  | _ => none

/-- The upper half of two integers side by side, shifted to the left by a count modulo the width. -/
def funnelLeft {n : Nat} (a b count : BitVec n) : BitVec n :=
  ((a ++ b) <<< (count.toNat % n)).extractLsb' n n

/-- The lower half of two integers side by side, shifted to the right by a count modulo the
    width. -/
def funnelRight {n : Nat} (a b count : BitVec n) : BitVec n :=
  ((a ++ b) >>> (count.toNat % n)).setWidth n

/-- The result of an intrinsic on integers of `n` bits. The counts of zeros have a flag that leaves
    them undefined at zero. -/
def IntrinsicKind.apply (n : Nat) : IntrinsicKind → List Scalar → Option (BitVec n)
  | ctlz, [.int m a, .int 1 flag] =>
    if h : m = n then if flag = 1 ∧ a = 0 then none else some (a.clz.cast h) else none
  | cttz, [.int m a, .int 1 flag] =>
    if h : m = n then if flag = 1 ∧ a = 0 then none else some (a.ctz.cast h) else none
  | ctpop, [.int m a] => if h : m = n then some (a.cpop.cast h) else none
  | fshl, [.int m a, .int k b, .int l count] =>
    if h : m = n ∧ k = n ∧ l = n then
      some (funnelLeft (a.cast h.1) (b.cast h.2.1) (count.cast h.2.2))
    else none
  | fshr, [.int m a, .int k b, .int l count] =>
    if h : m = n ∧ k = n ∧ l = n then
      some (funnelRight (a.cast h.1) (b.cast h.2.1) (count.cast h.2.2))
    else none
  | _, _ => none

/-! ## Machines -/

/-- The state of a function that runs. -/
structure Machine where
  /-- The block that control is in. -/
  block : Label
  /-- The lines of the block that are still to be run. -/
  rest : List Line
  /-- The values that were made so far. -/
  values : ValueId → Option Datum := fun _ => none
  /-- The cells of the slots. -/
  memory : ValueId → List Cell := fun _ => []

/-- How the run of a function ends. -/
inductive Ending where
  | retVoid
  | ret (value : Scalar)
  | retPacked (fields : List Scalar)
  /-- A line was reached that is never reached. -/
  | unreachable
  | trap
  deriving Repr, DecidableEq

/-- The return of a number of values: of nothing, of the value itself, or of a structure. -/
def Ending.returning : List Scalar → Ending
  | [] => .retVoid
  | [v] => .ret v
  | vs => .retPacked vs

/-- What a line does: it leads to another state, or it ends the run. -/
inductive Machine.Step where
  | next (m : Machine)
  | ends (ending : Ending)

/-- The value of an operand, which has to be of the operand's type. -/
def Operand.eval (args : List Scalar) (values : ValueId → Option Datum) : Operand → Option Scalar
  | int bits value => some (.int bits (BitVec.ofNat bits value))
  | float pattern => some (.float pattern.toBitVec)
  | double pattern => some (.double pattern.toBitVec)
  | arg index type => args[index]?.filter (·.type = type)
  | result id type =>
    match values id with
    | some (.scalar v) => if v.type = type then some v else none
    | _ => none

namespace Machine

variable (args : List Scalar) (m : Machine)

/-- The value of an operand. -/
def eval (v : Operand) : Option Scalar :=
  v.eval args m.values

/-- The cell that a number stands for the address of. -/
def cell (address : ValueId) : Option Cell :=
  match m.values address with
  | some (.address slot field) => (m.memory slot)[field]?
  | _ => none

/-- The value of a computation. -/
def compute : Rhs → Option Scalar
  | .load type slot => do
    let content ← (← m.cell slot).content
    if content.type = type then some content else none
  | .icmp predicate a b =>
    match m.eval args a, m.eval args b with
    | some (.int n a), some (.int k b) =>
      if h : k = n then some (.int 1 (BitVec.ofBool (predicate.holds a (b.cast h)))) else none
    | _, _ => none
  | .binary op a b =>
    match m.eval args a, m.eval args b with
    | some (.int n a), some (.int k b) =>
      if h : k = n then (op.apply a (b.cast h)).map (.int n) else none
    | _, _ => none
  | .select condition a b =>
    match m.eval args condition, m.eval args a, m.eval args b with
    | some (.int 1 c), some a, some b =>
      if a.type = b.type then some (if c = 1 then a else b) else none
    | _, _, _ => none
  | .cast op a type =>
    match m.eval args a, type with
    | some (.int _ a), .int target => (op.apply a target).map (.int target)
    | _, _ => none
  | .call ⟨kind, [.int n]⟩ operands => do
    let values ← operands.mapM (m.eval args)
    (kind.apply n values).map (.int n)
  | _ => none

/-- The machine after a value was made, with these lines to go on with. -/
def define (id : ValueId) (datum : Datum) (rest : List Line) : Machine :=
  { m with rest, values := Function.update m.values id (some datum) }

/-- The machine after a slot was made. -/
def allocate (id : ValueId) (type : NativeType) (rest : List Line) : Machine :=
  { m.define id (.address id 0) rest with memory := Function.update m.memory id type.cells }

/-- The machine after a value was written to an address, where a value of its type belongs. -/
def write (address : ValueId) (value : Scalar) (rest : List Line) : Option Machine :=
  match m.values address with
  | some (.address slot field) => do
    let cell ← (m.memory slot)[field]?
    if cell.type = value.type then
      let cells := (m.memory slot).set field { cell with content := some value }
      some { m with rest, memory := Function.update m.memory slot cells }
    else none
  | _ => none

/-- The structure in a slot, all of whose fields were written. -/
def readPacked (fields : List ScalarType) (slot : ValueId) : Option (List Scalar) :=
  match m.values slot with
  | some (.address slot 0) =>
    if (m.memory slot).map Cell.type = fields then (m.memory slot).mapM Cell.content else none
  | _ => none

/-- The values that the phis among the first lines of a block take, if control comes from the block
    that the machine is in. -/
def incoming : List Line → Option (List (ValueId × Scalar))
  | .phi id type edges :: lines => do
    let (value, _) ← edges.find? (·.2 = m.block)
    let v ← m.eval args value
    if v.type = type then
      let later ← incoming lines
      some ((id, v) :: later)
    else none
  | _ => some []

/-- The values after new ones were made. -/
def assign (values : ValueId → Option Datum) :
    List (ValueId × Scalar) → ValueId → Option Datum
  | [] => values
  | (id, v) :: later => assign (Function.update values id (some (.scalar v))) later

end Machine

/-! ## Runs -/

namespace Function

variable (f : Function) (args : List Scalar)

/-- Goes to a block. -/
def enter (m : Machine) (target : Label) : Option Machine := do
  let b ← f.blocks.find? (·.label = target)
  let values ← m.incoming args b.lines.toList
  return { m with
    block := target
    rest := b.lines.toList.dropWhile Line.isPhi
    values := Machine.assign m.values values }

/-- What the next line does. -/
def step (m : Machine) : Option Machine.Step :=
  match m.rest with
  | [] => none
  | .alloca id type _ :: rest => some (.next (m.allocate id type rest))
  | .field id index slot :: rest =>
    match m.values slot with
    | some (.address slot 0) => some (.next (m.define id (.address slot index) rest))
    | _ => none
  | .assign id rhs :: rest => (m.compute args rhs).map fun v => .next (m.define id (.scalar v) rest)
  | .nop id :: rest => some (.next (m.define id (.scalar (.int 32 0)) rest))
  | .phi .. :: _ => none
  | .loadPacked id fields slot :: rest =>
    (m.readPacked fields slot).map fun vs => .next (m.define id (.packed vs) rest)
  | .store value slot :: rest => do
    let v ← m.eval args value
    (m.write slot v rest).map .next
  | .trap :: _ => some (.ends .trap)
  | .br target :: _ => (f.enter args m target).map .next
  | .condBr condition ifTrue ifFalse :: _ =>
    match m.eval args condition with
    | some (.int 1 c) => (f.enter args m (if c = 1 then ifTrue else ifFalse)).map .next
    | _ => none
  | .unreachable :: _ => some (.ends .unreachable)
  | .retVoid :: _ => some (.ends .retVoid)
  | .ret value :: _ => (m.eval args value).map fun v => .ends (.ret v)
  | .retPacked id fields :: _ =>
    match m.values id with
    | some (.packed vs) =>
      if vs.map Scalar.type = fields then some (.ends (.retPacked vs)) else none
    | _ => none

/-- A number of steps that lead from one state to another. -/
def Leads : Machine → Machine → Prop :=
  Relation.ReflTransGen fun m m' => f.step args m = some (.next m')

/-- From here, the run of the function ends in this way. -/
def Ends (m : Machine) (ending : Ending) : Prop :=
  ∃ last, f.Leads args m last ∧ f.step args last = some (.ends ending)

/-- The run of the function on these arguments, from its first block on, ends in this way. -/
def Executes (ending : Ending) : Prop :=
  ∃ b blocks, f.blocks = b :: blocks ∧
    f.Ends args { block := b.label, rest := b.lines.toList } ending

end Function

/-! ## Values of operands and computations -/

section Values

variable {args : List Scalar} {m : Machine} {v : Operand} {x : Scalar}

/-- The value of an operand is of the operand's type. -/
theorem Operand.type_eval {values : ValueId → Option Datum} (h : v.eval args values = some x) :
    x.type = v.type := by
  cases v with
  | int bits value =>
    obtain rfl := Option.some.inj h
    rfl
  | float pattern =>
    obtain rfl := Option.some.inj h
    rfl
  | double pattern =>
    obtain rfl := Option.some.inj h
    rfl
  -- An argument or a result has a value only of its type.
  | arg index type => exact of_decide_eq_true (Option.filter_eq_some_iff.1 h).2
  | result id type =>
    simp only [Operand.eval] at h
    split at h
    · split at h
      · obtain rfl := Option.some.inj h
        assumption
      · cases h
    · cases h

/-- The value of an operand depends on the values that it refers to only. -/
theorem Operand.eval_congr {values values' : ValueId → Option Datum}
    (h : ∀ id ∈ v.ids, values' id = values id) : v.eval args values' = v.eval args values := by
  cases v with
  | result id type => simp only [Operand.eval, h id (List.mem_singleton_self id)]
  | int | float | double | arg => rfl

namespace Machine

theorem type_eval (h : m.eval args v = some x) : x.type = v.type :=
  Operand.type_eval h

theorem eval_define_of_notMem {id : ValueId} {datum : Datum} {rest : List Line}
    (h : id ∉ v.ids) : (m.define id datum rest).eval args v = m.eval args v :=
  Operand.eval_congr fun _ hmem => Function.update_of_ne (ne_of_mem_of_not_mem hmem h) _ _

theorem eval_define_self (id : ValueId) (x : Scalar) (rest : List Line) :
    (m.define id (.scalar x) rest).eval args (.result id x.type) = some x := by
  simp [Machine.eval, Operand.eval, Machine.define]

theorem eval_define_int (id : ValueId) {n : Nat} (p : BitVec n) (rest : List Line) :
    (m.define id (.scalar (.int n p)) rest).eval args (.result id (.int n)) = some (.int n p) :=
  eval_define_self id (.int n p) rest

theorem eval_int (bits value : Nat) :
    m.eval args (.int bits value) = some (.int bits (BitVec.ofNat bits value)) := rfl

variable {a b : Operand} {n : Nat} {p q : BitVec n}

-- Each of the next lemmas is one case of the definition.
attribute [local simp] compute

theorem compute_icmp (ha : m.eval args a = some (.int n p)) (hb : m.eval args b = some (.int n q))
    (predicate : IntPredicate) :
    m.compute args (.icmp predicate a b) =
      some (.int 1 (BitVec.ofBool (predicate.holds p q))) := by
  simp [ha, hb]

theorem compute_binary (ha : m.eval args a = some (.int n p))
    (hb : m.eval args b = some (.int n q)) (op : BinaryOp) :
    m.compute args (.binary op a b) = (op.apply p q).map (.int n) := by
  simp [ha, hb]

theorem compute_cast (ha : m.eval args a = some (.int n p)) (op : Cast) (target : Nat) :
    m.compute args (.cast op a (.int target)) = (op.apply p target).map (.int target) := by
  simp [ha]

theorem compute_select {condition : Operand} {c : Bool} {y : Scalar}
    (hc : m.eval args condition = some (.int 1 (BitVec.ofBool c)))
    (ha : m.eval args a = some x) (hb : m.eval args b = some y) (htype : x.type = y.type) :
    m.compute args (.select condition a b) = some (if c then x else y) := by
  cases c <;> simp [hc, ha, hb, htype]

theorem compute_call {operands : List Operand} {values : List Scalar}
    (h : operands.mapM (m.eval args) = some values) (kind : IntrinsicKind) (n : Nat) :
    m.compute args (.call ⟨kind, [.int n]⟩ operands) = (kind.apply n values).map (.int n) := by
  simp [h]

theorem compute_load {slot : ValueId} {cell : Cell} (hcell : m.cell slot = some cell)
    (hx : cell.content = some x) : m.compute args (.load x.type slot) = some x := by
  simp [hcell, hx]

/-- The value of a computation is of the computation's type. -/
theorem type_compute {rhs : Rhs} (h : m.compute args rhs = some x) : x.type = rhs.type := by
  cases rhs with
  | load type slot =>
    simp only [compute, Option.bind_eq_bind, Option.bind_eq_some_iff] at h
    obtain ⟨cell, -, content, -, h⟩ := h
    split at h
    · obtain rfl := Option.some.inj h
      assumption
    · cases h
  | icmp predicate a b =>
    simp only [compute] at h
    split at h
    · split at h
      -- A comparison gives one bit, whatever is compared.
      · obtain rfl := Option.some.inj h
        rfl
      · cases h
    · cases h
  | binary op a b =>
    simp only [compute] at h
    split at h
    next ha hb =>
      split at h
      · obtain ⟨p, -, rfl⟩ := Option.map_eq_some_iff.1 h
        have htype := type_eval ha
        exact htype
      · cases h
    · cases h
  | select condition a b =>
    simp only [compute] at h
    split at h
    next hc ha hb =>
      split at h
      next htype =>
        obtain rfl := Option.some.inj h
        rw [Rhs.type, ← type_eval ha]
        split
        · rfl
        · exact htype.symm
      · cases h
    · cases h
  | cast op a type =>
    simp only [compute] at h
    split at h
    · obtain ⟨p, -, rfl⟩ := Option.map_eq_some_iff.1 h
      rfl
    · cases h
  -- Only a call with one overload, which is an integer, has a value.
  | call intrinsic operands =>
    obtain ⟨kind, overloads⟩ := intrinsic
    rcases overloads with _ | ⟨_ | _ | _, _ | ⟨_, _⟩⟩ <;> try cases h
    simp only [compute, Option.bind_eq_bind, Option.bind_eq_some_iff] at h
    obtain ⟨values, -, h⟩ := h
    obtain ⟨p, -, rfl⟩ := Option.map_eq_some_iff.1 h
    rfl
  | fcmp | fneg => cases h

end Machine

end Values

/-! ## Writes -/

/-- A cell that holds a value. -/
def Cell.holding (x : Scalar) : Cell :=
  { type := x.type, content := some x }

section Writes

variable {args : List Scalar} {m : Machine} {slot address field : Nat} {value : Operand}
  {x : Scalar} {before after : List Cell} {cell : Cell} {rest : List Line}

/-- A store changes the cell at its address and leaves the others alone. -/
theorem Function.leads_store (f : Function) (hrest : m.rest = .store value address :: rest)
    (hx : m.eval args value = some x) (haddress : m.values address = some (.address slot field))
    (hmemory : m.memory slot = before ++ cell :: after) (hfield : before.length = field)
    (htype : cell.type = x.type) :
    f.Leads args m { m with
      rest, memory := Function.update m.memory slot (before ++ .holding x :: after) } := by
  -- The cell is at the position that the address says, and it has the type of the value.
  have hwrite : m.write address x rest = some { m with
      rest, memory := Function.update m.memory slot (before ++ .holding x :: after) } := by
    subst hfield
    simp [Machine.write, haddress, hmemory, htype, Cell.holding]
  refine .single ?_
  rw [Function.step, hrest]
  simp [hx, hwrite]

end Writes

end WasmLowering.Ssa
