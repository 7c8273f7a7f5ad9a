import Mathlib
import WasmLowering.Ssa.Draft

/-!
# Control flow and definitions

What the lines of a function define, what they use and where they go. A path is a walk along the
branches of a function, from its entry block. A value is available at the end of a path if some
block of the path defines it.

## Key definitions

- `Line.defines`, `Line.uses`, `Line.edges`: the values that a line makes and reads; the values of a
  phi are read on its edges
- `Function.Edge`, `Function.Path`, `Function.Reachable`: the control flow of a function
- `Function.SingleAssignment`, `Function.UsesAvailable`: each value is defined once, and defined on
  every path that leads to one of its uses
- `Function.PhisMatch`: phis stand first and have one edge for each block that branches to them
-/

namespace WasmLowering.Ssa

/-! ## Values that are read -/

/-- The computed values that an operand refers to: one for a result, none for a constant or a
    parameter. -/
def Operand.ids : Operand → List ValueId
  | result id _ => [id]
  | _ => []

@[simp] theorem Operand.ids_int (bits value : Nat) : (Operand.int bits value).ids = [] := rfl

@[simp] theorem Operand.ids_arg (index : Nat) (type : ScalarType) :
    (Operand.arg index type).ids = [] := rfl

@[simp] theorem Operand.ids_result (id : ValueId) (type : ScalarType) :
    (Operand.result id type).ids = [id] := rfl

@[simp] theorem ScalarType.ids_zero (type : ScalarType) : type.zero.ids = [] := by
  cases type <;> rfl

@[simp] theorem ScalarType.ids_constant (type : ScalarType) (n : Int) :
    (type.constant n).ids = [] := by
  cases type <;> rfl

/-- The operands of a computation. -/
def Rhs.operands : Rhs → List Operand
  | load _ _ => []
  | icmp _ a b => [a, b]
  | fcmp _ a b => [a, b]
  | binary _ a b => [a, b]
  | fneg a => [a]
  | select condition a b => [condition, a, b]
  | cast _ a _ => [a]
  | call _ args => args

/-- The slots that a computation reads. -/
def Rhs.slots : Rhs → List ValueId
  | load _ slot => [slot]
  | _ => []

namespace Line

/-- The value that a line makes. -/
def defines : Line → Option ValueId
  | alloca id _ _ | field id _ _ | assign id _ | nop id | phi id _ _ | loadPacked id _ _ => some id
  | store .. | trap | br _ | condBr .. | unreachable | retVoid | ret _ | retPacked .. => none

/-- The values that have to be known when a line is reached. A phi needs none: its values are read
    when a branch to its block is taken. -/
def uses : Line → List ValueId
  | alloca .. | nop _ | phi .. | trap | br _ | unreachable | retVoid => []
  | field _ _ slot | loadPacked _ _ slot => [slot]
  | assign _ rhs => rhs.operands.flatMap Operand.ids ++ rhs.slots
  | store value slot => value.ids ++ [slot]
  | condBr condition _ _ => condition.ids
  | ret value => value.ids
  | retPacked id _ => [id]

/-- The edges of a phi. -/
def edges : Line → List (Operand × Label)
  | phi _ _ edges => edges
  | _ => []

/-- Whether a line is a phi. -/
def isPhi : Line → Bool
  | phi .. => true
  | _ => false

/-! ## Branches -/

/-- The blocks that a line may go to. -/
def targets : Line → List Label
  | br target => [target]
  | condBr _ ifTrue ifFalse => [ifTrue, ifFalse]
  | _ => []

/-- Whether a line ends its block. -/
def isTerminator : Line → Bool
  | br _ | condBr .. | unreachable | retVoid | ret _ | retPacked .. => true
  | _ => false

theorem targets_eq_nil {line : Line} (h : line.isTerminator = false) : line.targets = [] := by
  cases line <;> simp_all [isTerminator, targets]

/-- A phi does not end its block. -/
theorem isTerminator_of_isPhi {line : Line} (h : line.isPhi = true) :
    line.isTerminator = false := by
  cases line with
  | phi => rfl
  | _ => cases h

/-- A line that ends its block is no phi. -/
theorem isPhi_of_isTerminator {line : Line} (h : line.isTerminator = true) :
    line.isPhi = false := by
  cases line with
  | phi => cases h
  | _ => rfl

/-- A line that ends its block makes no value. -/
theorem defines_of_isTerminator {line : Line} (h : line.isTerminator = true) :
    line.defines = none := by
  cases line with
  | br | condBr | unreachable | retVoid | ret | retPacked => rfl
  | _ => cases h

end Line

/-- The values that a list of lines makes. -/
def definitions (lines : List Line) : List ValueId :=
  lines.filterMap Line.defines

@[simp] theorem definitions_nil : definitions [] = [] := rfl

@[simp] theorem definitions_append (xs ys : List Line) :
    definitions (xs ++ ys) = definitions xs ++ definitions ys :=
  List.filterMap_append

theorem mem_definitions {lines : List Line} {id : ValueId} :
    id ∈ definitions lines ↔ ∃ line ∈ lines, line.defines = some id :=
  List.mem_filterMap

/-- No line that is not a phi stands before a phi. -/
def PhisFirst (lines : List Line) : Prop :=
  lines.Pairwise fun a b => b.isPhi = true → a.isPhi = true

/-- The blocks that the last line of a block may go to. -/
def Block.successors (b : Block) : List Label :=
  match b.lines.toList.getLast? with
  | none => []
  | some line => line.targets

namespace Function

/-- Whether the terminator of block `source` goes to block `target`. -/
def Edge (f : Function) (source target : Label) : Prop :=
  ∃ b ∈ f.blocks, b.label = source ∧ target ∈ b.successors

/-- A walk along branches that starts at the entry block. The list has the last block first. -/
inductive Path (f : Function) : List Label → Prop where
  | entry : Path f [Draft.entryLabel]
  | branch {source target : Label} {earlier : List Label} (walk : Path f (source :: earlier))
      (edge : f.Edge source target) : Path f (target :: source :: earlier)

/-- Whether some path leads to a block. -/
def Reachable (f : Function) (label : Label) : Prop :=
  ∃ earlier, f.Path (label :: earlier)

/-- Whether the block with a given label defines a value. -/
def DefinedIn (f : Function) (label : Label) (id : ValueId) : Prop :=
  ∃ b ∈ f.blocks, b.label = label ∧ id ∈ definitions b.lines.toList

/-- No value is defined twice, neither in one block nor in two. -/
def SingleAssignment (f : Function) : Prop :=
  (f.blocks.flatMap fun b => definitions b.lines.toList).Nodup

/-- Each value that a line uses is defined earlier in its block or in an earlier block of the path
    that led there. Each value on the edge of a phi is defined in a block of the path that comes in
    along this edge. -/
def UsesAvailable (f : Function) : Prop :=
  ∀ label earlier, f.Path (label :: earlier) → ∀ b ∈ f.blocks, b.label = label →
    ∀ before line after, b.lines.toList = before ++ line :: after →
      (∀ id ∈ line.uses, id ∈ definitions before ∨ ∃ source ∈ earlier, f.DefinedIn source id) ∧
      ∀ value source, (value, source) ∈ line.edges → earlier.head? = some source →
        ∀ id ∈ value.ids, ∃ other ∈ earlier, f.DefinedIn other id

/-- In every block, phis stand before all other lines, and the edges of each come from the blocks
    that branch to it, one from each. -/
def PhisMatch (f : Function) : Prop :=
  ∀ b ∈ f.blocks, PhisFirst b.lines.toList ∧
    ∀ line ∈ b.lines.toList, line.isPhi = true →
      (line.edges.map Prod.snd).Nodup ∧
      ∀ source, source ∈ line.edges.map Prod.snd ↔ f.Edge source b.label

/-- A block that only blocks of a set branch to cannot be reached, if that set leaves out the entry
    block and all its members are such blocks. -/
theorem not_reachable {f : Function} {s : Set Label} (entry : Draft.entryLabel ∉ s)
    (closed : ∀ source target, f.Edge source target → target ∈ s → source ∈ s) {label : Label}
    (h : label ∈ s) : ¬ f.Reachable label := by
  rintro ⟨earlier, walk⟩
  -- By induction on the walk: the block before a member of the set is a member again.
  generalize hl : label :: earlier = labels at walk
  induction walk generalizing label earlier with
  | entry =>
    obtain ⟨rfl, rfl⟩ := List.cons.inj hl
    exact entry h
  | branch walk edge ih =>
    obtain ⟨rfl, rfl⟩ := List.cons.inj hl
    exact ih (closed _ _ edge h) _ rfl

end Function

end WasmLowering.Ssa
