import WasmLowering.Ssa.FloatFormat
import WasmLowering.Ssa.Intrinsic

/-!
# Lines of the SSA form

A function is a list of labelled blocks of lines. A line computes a value, writes memory, or ends
its block. Values are numbered in the order in which they are made. Operands carry their types, so
the type of every computed value can be read off its line.
-/

namespace WasmLowering.Ssa

/-- The number of a computed value or of a stack slot, counted within a function. -/
abbrev ValueId := Nat

/-- A value that a line uses. -/
inductive Operand where
  /-- An integer constant, as an unsigned number. -/
  | int (bits : Nat) (value : Nat)
  /-- A constant of type `float`, as its bit pattern. -/
  | float (pattern : UInt32)
  /-- A constant of type `double`, as its bit pattern. -/
  | double (pattern : UInt64)
  /-- A parameter of the function. -/
  | arg (index : Nat) (type : ScalarType)
  /-- A computed value. -/
  | result (id : ValueId) (type : ScalarType)
  deriving Repr, DecidableEq, Inhabited

/-- The type of an operand. -/
def Operand.type : Operand → ScalarType
  | int bits _ => .int bits
  | float _ => .float
  | double _ => .double
  | arg _ type => type
  | result _ type => type

namespace ScalarType

/-- The constant whose bits are all zero. -/
def zero : ScalarType → Operand
  | int bits => .int bits 0
  | float => .float 0
  | double => .double 0

/-- The constant with the value of a whole number, which the type has to represent exactly. -/
def constant (n : Int) : ScalarType → Operand
  | int bits => .int bits (n % (Nat.pow 2 bits : Nat)).toNat
  | float => .float (UInt32.ofNat (FloatFormat.single.ofInt n))
  | double => .double (UInt64.ofNat (FloatFormat.double.ofInt n))

end ScalarType

/-- A comparison of integers. -/
inductive IntPredicate where
  | eq | ne | slt | ult | sgt | ugt | sle | ule | sge | uge
  deriving Repr, DecidableEq

/-- A comparison of floats. All but `une` are false on a NaN. -/
inductive FloatPredicate where
  | oeq | une | olt | ogt | ole | oge
  deriving Repr, DecidableEq

/-- An operation on two values of one type. -/
inductive BinaryOp where
  | add | sub | mul | sdiv | udiv | srem | urem | and | or | xor | shl | ashr | lshr
  | fadd | fsub | fmul | fdiv
  deriving Repr, DecidableEq

/-- A change of type. -/
inductive Cast where
  | zext | sext | trunc | sitofp | uitofp | fptosi | fptoui | fptrunc | fpext | bitcast
  deriving Repr, DecidableEq

/-- The computation of a value. -/
inductive Rhs where
  | load (type : ScalarType) (slot : ValueId)
  | icmp (predicate : IntPredicate) (a b : Operand)
  | fcmp (predicate : FloatPredicate) (a b : Operand)
  | binary (op : BinaryOp) (a b : Operand)
  | fneg (a : Operand)
  | select (condition a b : Operand)
  | cast (op : Cast) (a : Operand) (type : ScalarType)
  | call (intrinsic : Intrinsic) (args : List Operand)
  deriving Repr, DecidableEq

/-- The type of a computed value. -/
def Rhs.type : Rhs → ScalarType
  | load type _ => type
  | icmp .. | fcmp .. => .int 1
  | binary _ a _ => a.type
  | fneg a => a.type
  | select _ a _ => a.type
  | cast _ _ type => type
  | call intrinsic _ => intrinsic.resultType

/-- What a block is for. -/
inductive BlockRole where
  | entry
  | blockEnd
  | loopBegin
  | loopEnd
  | ifThen
  | ifElse
  | ifEnd
  | truncTrap
  | truncOk
  deriving Repr, DecidableEq, Inhabited

/-- The name of a block: its role, and its number in the order of creation. -/
structure Label where
  role : BlockRole
  ordinal : Nat
  deriving Repr, DecidableEq, Inhabited

/-- The name of a stack slot. -/
inductive SlotName where
  /-- The slot of a local. -/
  | ofLocal (index : Nat)
  /-- The slot in which results are packed. -/
  | ret
  deriving Repr, DecidableEq

/-- A line of a block. -/
inductive Line where
  /-- Makes a stack slot. -/
  | alloca (id : ValueId) (type : NativeType) (name : SlotName)
  /-- The address of a field of the structure in a slot. -/
  | field (id : ValueId) (index : Nat) (slot : ValueId)
  /-- Computes a value. -/
  | assign (id : ValueId) (rhs : Rhs)
  /-- An addition of zeros that stands for an operator without effect. -/
  | nop (id : ValueId)
  /-- The value that came along the edge taken into the block. -/
  | phi (id : ValueId) (type : ScalarType) (edges : List (Operand × Label))
  /-- Reads a whole structure. -/
  | loadPacked (id : ValueId) (fields : List ScalarType) (slot : ValueId)
  /-- Writes a slot or a field. -/
  | store (value : Operand) (slot : ValueId)
  /-- Calls the intrinsic that aborts. -/
  | trap
  /-- Goes to a block. -/
  | br (target : Label)
  /-- Goes to one of two blocks. -/
  | condBr (condition : Operand) (ifTrue ifFalse : Label)
  /-- Is never reached. -/
  | unreachable
  /-- Returns nothing. -/
  | retVoid
  /-- Returns a value. -/
  | ret (value : Operand)
  /-- Returns a structure that was read before. -/
  | retPacked (id : ValueId) (fields : List ScalarType)
  deriving Repr, DecidableEq

/-- A labelled list of lines. -/
structure Block where
  label : Label
  lines : Array Line := #[]
  deriving Repr, DecidableEq, Inhabited

/-- A lowered function. It is named by the index of its body. -/
structure Function where
  body : Nat
  signature : Signature
  blocks : List Block
  deriving Repr, DecidableEq

/-- A lowered module: its functions in the order of their bodies, and the intrinsics it declares. -/
structure Module where
  name : Bytes
  functions : Array Function := #[]
  intrinsics : IntrinsicTable := {}
  deriving Repr, DecidableEq

end WasmLowering.Ssa
