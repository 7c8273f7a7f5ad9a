import WasmLowering.Ssa.Line

/-!
# Text of the SSA form

One text per line of a block. A line that makes a value starts with its number. Integer constants
are written in unsigned decimal, float constants as bit patterns in hexadecimal.
-/

namespace WasmLowering.Ssa

/-- Texts joined by a comma and a space. -/
def commaSeparated (texts : List String) : String :=
  String.intercalate ", " texts

namespace ScalarType

/-- The name of a scalar type. -/
def text : ScalarType → String
  | int bits => "i" ++ decimalDigits 1 bits
  | float => "float"
  | double => "double"

/-- The fields of a packed structure, between its brackets. -/
def packedText : List ScalarType → String
  | [] => "<\x7b \x7d>"
  | fields => "<\x7b " ++ commaSeparated (fields.map text) ++ " \x7d>"

end ScalarType

/-- The name of a type. -/
def NativeType.text : NativeType → String
  | void => "void"
  | scalar type => type.text
  | packed fields => ScalarType.packedText fields

/-- The result, and the parameters in parentheses. -/
def Signature.text (s : Signature) : String :=
  s.result.text ++ " (" ++ commaSeparated (s.params.map ScalarType.text) ++ ")"

/-- A percent sign and the number of a value. -/
def valueText (id : ValueId) : String :=
  "%" ++ decimalDigits 1 id

/-- The text of an operand. -/
def Operand.text : Operand → String
  | int bits value => "i" ++ decimalDigits 1 bits ++ " " ++ decimalDigits 1 value
  | float pattern => "float 0x" ++ hexDigits 8 pattern.toNat
  | double pattern => "double 0x" ++ hexDigits 16 pattern.toNat
  | arg index _ => "%arg" ++ decimalDigits 1 index
  | result id _ => valueText id

/-- The name of a comparison of integers. -/
def IntPredicate.name : IntPredicate → String
  | eq => "eq"
  | ne => "ne"
  | slt => "slt"
  | ult => "ult"
  | sgt => "sgt"
  | ugt => "ugt"
  | sle => "sle"
  | ule => "ule"
  | sge => "sge"
  | uge => "uge"

/-- The name of a comparison of floats. -/
def FloatPredicate.name : FloatPredicate → String
  | oeq => "oeq"
  | une => "une"
  | olt => "olt"
  | ogt => "ogt"
  | ole => "ole"
  | oge => "oge"

/-- The name of an operation. -/
def BinaryOp.name : BinaryOp → String
  | add => "add"
  | sub => "sub"
  | mul => "mul"
  | sdiv => "sdiv"
  | udiv => "udiv"
  | srem => "srem"
  | urem => "urem"
  | and => "and"
  | or => "or"
  | xor => "xor"
  | shl => "shl"
  | ashr => "ashr"
  | lshr => "lshr"
  | fadd => "fadd"
  | fsub => "fsub"
  | fmul => "fmul"
  | fdiv => "fdiv"

/-- The name of a change of type. -/
def Cast.name : Cast → String
  | zext => "zext"
  | sext => "sext"
  | trunc => "trunc"
  | sitofp => "sitofp"
  | uitofp => "uitofp"
  | fptosi => "fptosi"
  | fptoui => "fptoui"
  | fptrunc => "fptrunc"
  | fpext => "fpext"
  | bitcast => "bitcast"

/-- The text of a computation. -/
def Rhs.text : Rhs → String
  | load type slot => "load " ++ type.text ++ " from " ++ valueText slot
  | icmp predicate a b => "icmp " ++ predicate.name ++ " " ++ commaSeparated [a.text, b.text]
  | fcmp predicate a b => "fcmp " ++ predicate.name ++ " " ++ commaSeparated [a.text, b.text]
  | binary op a b => op.name ++ " " ++ commaSeparated [a.text, b.text]
  | fneg a => "fneg " ++ a.text
  | select condition a b => "select " ++ commaSeparated [condition.text, a.text, b.text]
  | cast op a type => op.name ++ " " ++ a.text ++ " to " ++ type.text
  | call intrinsic args =>
    "call " ++ intrinsic.name ++ "(" ++ commaSeparated (args.map Operand.text) ++ ")"

/-- The name of a role. -/
def BlockRole.name : BlockRole → String
  | entry => "entry"
  | blockEnd => "block_end"
  | loopBegin => "loop_begin"
  | loopEnd => "loop_end"
  | ifThen => "if_then"
  | ifElse => "if_else"
  | ifEnd => "if_end"
  | truncTrap => "trunc_trap"
  | truncOk => "trunc_ok"

/-- The role of a block and its number. -/
def Label.text (l : Label) : String :=
  l.role.name ++ "#" ++ decimalDigits 1 l.ordinal

/-- The name of a slot. -/
def SlotName.text : SlotName → String
  | ofLocal index => "local" ++ decimalDigits 1 index
  | ret => "ret"

/-- The text of a line. -/
def Line.text : Line → String
  | alloca id type name => valueText id ++ " = alloca " ++ type.text ++ " ; " ++ name.text
  | field id index slot =>
    valueText id ++ " = field " ++ decimalDigits 1 index ++ " of " ++ valueText slot
  | assign id rhs => valueText id ++ " = " ++ rhs.text
  | nop id => valueText id ++ " = add i32 0, i32 0 ; nop"
  | phi id type edges =>
    valueText id ++ " = phi " ++ type.text ++ " " ++
      commaSeparated (edges.map fun (value, source) =>
        "[" ++ commaSeparated [value.text, source.text] ++ "]")
  | loadPacked id fields slot =>
    valueText id ++ " = load " ++ ScalarType.packedText fields ++ " from " ++ valueText slot
  | store value slot => "store " ++ value.text ++ " to " ++ valueText slot
  | trap => "call " ++ (Intrinsic.mk .trap []).name ++ "()"
  | br target => "br " ++ target.text
  | condBr condition ifTrue ifFalse =>
    "br " ++ condition.text ++ " ? " ++ ifTrue.text ++ " : " ++ ifFalse.text
  | unreachable => "unreachable"
  | retVoid => "ret void"
  | ret value => "ret " ++ value.text
  | retPacked id _ => "ret " ++ valueText id

/-- The name of the function that a body is lowered to. -/
def bodyName (body : Nat) : String :=
  "func_" ++ decimalDigits 1 body

/-- The name of a lowered function. -/
def Function.name (f : Function) : String :=
  bodyName f.body

/-- The function with a given name. -/
def Module.find? (m : Module) (name : String) : Option Function :=
  m.functions.find? (·.name == name)

/-! ## Listings -/

/-- The label of a block, and its lines below it. -/
def Block.listing (b : Block) : List String :=
  (b.label.text ++ ":") :: b.lines.toList.map fun line => "  " ++ line.text

/-- The name and signature of a function, and its blocks below them. -/
def Function.listing (f : Function) : List String :=
  (f.name ++ " = " ++ f.signature.text) :: f.blocks.flatMap Block.listing

/-- The name of a module, the intrinsics it declares, and its functions. -/
def Module.listing (m : Module) : Bytes :=
  let declarations := m.intrinsics.declared.toList.map fun i => "declare " ++ i.name
  let functions := m.functions.toList.flatMap fun f => "" :: f.listing
  .ofString "module " ++ m.name ++ .ofString "\n" ++
    (declarations ++ functions).flatMap fun line => Bytes.ofString (line ++ "\n")

end WasmLowering.Ssa
