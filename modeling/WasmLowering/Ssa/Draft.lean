import WasmLowering.Ssa.Line

/-!
# Functions being written

A draft is a function under construction. Blocks are created at the end of the layout, and placed
right after the insertion block once the lines that go there are known. Lines are appended to the
insertion block; a construct's results are phis that wait in its end block from the start and gain
an edge for every branch to it.
-/

namespace WasmLowering.Ssa

/-- A function under construction. -/
structure Draft where
  /-- The blocks, in the order of creation. -/
  blocks : Array Block
  /-- The labels of the blocks, in the order in which they will stand. -/
  layout : List Label
  /-- The insertion block. -/
  current : Label
  /-- The number of the next value. -/
  nextValue : ValueId
  deriving Repr, DecidableEq

/-- Inserts `x` right after the first `anchor`, or at the end if there is none. -/
def insertAfter (anchor x : Label) : List Label → List Label
  | [] => [x]
  | y :: ys => if y = anchor then y :: x :: ys else y :: insertAfter anchor x ys

namespace Draft

/-- The label of the entry block. -/
def entryLabel : Label :=
  ⟨.entry, 0⟩

/-- A function of one empty block. -/
def start : Draft where
  blocks := #[{ label := entryLabel }]
  layout := [entryLabel]
  current := entryLabel
  nextValue := 0

/-! ## Blocks -/

/-- Creates an empty block at the end of the layout. -/
def newBlock (d : Draft) (role : BlockRole) : Label × Draft :=
  let label : Label := ⟨role, d.blocks.size⟩
  (label, { d with blocks := d.blocks.push { label }, layout := d.layout ++ [label] })

/-- Moves a block right after the insertion block, and makes it the insertion block. -/
def place (d : Draft) (label : Label) : Draft :=
  { d with layout := insertAfter d.current label (d.layout.erase label), current := label }

/-- The lines of a block. -/
def lines (d : Draft) (label : Label) : Array Line :=
  match d.blocks[label.ordinal]? with
  | none => #[]
  | some b => b.lines

/-- Changes the lines of a block. -/
def modifyLines (d : Draft) (label : Label) (f : Array Line → Array Line) : Draft :=
  { d with blocks := d.blocks.modify label.ordinal fun b => { b with lines := f b.lines } }

/-! ## Lines -/

/-- Takes the next value number. -/
def fresh (d : Draft) : ValueId × Draft :=
  (d.nextValue, { d with nextValue := d.nextValue + 1 })

/-- Appends a line to the insertion block. -/
def append (d : Draft) (line : Line) : Draft :=
  d.modifyLines d.current (·.push line)

/-- Appends a line that makes a new value, and gives the number of that value. -/
def define (d : Draft) (line : ValueId → Line) : ValueId × Draft :=
  let (id, d) := d.fresh
  (id, d.append (line id))

/-- Puts a line that makes a new value before all lines of the entry block. -/
def defineAtEntry (d : Draft) (line : ValueId → Line) : ValueId × Draft :=
  let (id, d) := d.fresh
  (id, d.modifyLines entryLabel (#[line id] ++ ·))

/-! ## Phis -/

/-- Appends to a block one phi without edges for each type. -/
def addPhis (d : Draft) (label : Label) : List ScalarType → List Operand × Draft
  | [] => ([], d)
  | type :: types =>
    let (id, d) := d.fresh
    let d := d.modifyLines label (·.push (.phi id type []))
    let (phis, d) := d.addPhis label types
    (.result id type :: phis, d)

end Draft

/-- Adds an edge to a phi; other lines stay as they are. -/
def Line.addEdge (value : Operand) (source : Label) : Line → Line
  | .phi id type edges => .phi id type (edges ++ [(value, source)])
  | line => line

/-- Whether a line is a phi without edges. -/
def Line.isEmptyPhi : Line → Bool
  | .phi _ _ [] => true
  | _ => false

namespace Draft

/-- Adds the edge from the insertion block to the phis of a block: the first value goes to the first
    line, the second to the second, and so on. -/
def addEdges (d : Draft) (label : Label) (values : Array Operand) : Draft :=
  let source := d.current
  d.modifyLines label fun lines => lines.mapIdx fun i line =>
    match values[i]? with
    | none => line
    | some value => line.addEdge value source

/-- Removes the phis without edges from a block. -/
def dropEmptyPhis (d : Draft) (label : Label) : Draft :=
  d.modifyLines label fun lines => lines.filter fun line => !line.isEmptyPhi

/-- The blocks, in the order of the layout. -/
def finish (d : Draft) : List Block :=
  d.layout.filterMap fun label => d.blocks[label.ordinal]?

end Draft

end WasmLowering.Ssa
