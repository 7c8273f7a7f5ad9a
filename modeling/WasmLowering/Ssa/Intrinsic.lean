import WasmLowering.Ssa.Type

/-!
# Intrinsics

Operators without an instruction of their own call an intrinsic, which is named after its base name
and the types it is overloaded on. A module declares each overload once, when it is first used.
-/

namespace WasmLowering.Ssa

/-- The base of an intrinsic. -/
inductive IntrinsicKind where
  | ctlz
  | cttz
  | ctpop
  | fshl
  | fshr
  | fabs
  | ceil
  | floor
  | trunc
  | roundeven
  | sqrt
  | minimum
  | maximum
  | copysign
  | fptosiSat
  | fptouiSat
  | trap
  deriving Repr, DecidableEq

namespace IntrinsicKind

/-- All bases. -/
def all : List IntrinsicKind :=
  [ctlz, cttz, ctpop, fshl, fshr, fabs, ceil, floor, trunc, roundeven, sqrt, minimum, maximum,
    copysign, fptosiSat, fptouiSat, trap]

/-- The name of a base. -/
def name : IntrinsicKind → String
  | ctlz => "ctlz"
  | cttz => "cttz"
  | ctpop => "ctpop"
  | fshl => "fshl"
  | fshr => "fshr"
  | fabs => "fabs"
  | ceil => "ceil"
  | floor => "floor"
  | trunc => "trunc"
  | roundeven => "roundeven"
  | sqrt => "sqrt"
  | minimum => "minimum"
  | maximum => "maximum"
  | copysign => "copysign"
  | fptosiSat => "fptosi.sat"
  | fptouiSat => "fptoui.sat"
  | trap => "trap"

end IntrinsicKind

/-- The name of a type within the name of an intrinsic. -/
def ScalarType.overloadName : ScalarType → String
  | int bits => "i" ++ decimalDigits 1 bits
  | float => "f32"
  | double => "f64"

/-- The type that an intrinsic is overloaded on: an integer or a float type. -/
def NativeType.overload : NativeType → Except Fault ScalarType
  | scalar type => .ok type
  | void | packed _ => .error (.of .overloadType)

/-- An intrinsic at particular types. A saturating conversion lists its result before its source. -/
structure Intrinsic where
  kind : IntrinsicKind
  overloads : List ScalarType := []
  deriving Repr, DecidableEq

namespace Intrinsic

/-- The full name of an intrinsic. -/
def name (i : Intrinsic) : String :=
  i.overloads.foldl (fun s t => s ++ "." ++ t.overloadName) ("llvm." ++ i.kind.name)

/-- The intrinsic at given types, each of which has to be an integer or a float type. -/
def ofTypes (kind : IntrinsicKind) (types : List NativeType) : Except Fault Intrinsic := do
  return { kind, overloads := ← types.mapM NativeType.overload }

/-- The type of the value that a call gives: the first of the overloaded types. -/
def resultType (i : Intrinsic) : ScalarType :=
  i.overloads.headD (.int 1)

end Intrinsic

/-- The intrinsics that a module declares, in the order of their first use. -/
structure IntrinsicTable where
  declared : Array Intrinsic := #[]
  deriving Repr, DecidableEq, Inhabited

namespace IntrinsicTable

/-- The place of the intrinsic that is declared under a name. -/
def find? (t : IntrinsicTable) (name : String) : Option Nat :=
  t.declared.findIdx? (·.name == name)

/-- The place of an intrinsic, which is declared at the end unless there is one of its name. -/
def get (t : IntrinsicTable) (i : Intrinsic) : Nat × IntrinsicTable :=
  match t.find? i.name with
  | some place => (place, t)
  | none => (t.declared.size, { declared := t.declared.push i })

/-- Declares an intrinsic unless it is declared already. -/
def declare (t : IntrinsicTable) (i : Intrinsic) : IntrinsicTable :=
  (t.get i).2

/-- The place of an intrinsic at given types, which is declared if need be. Nothing is declared if
    one of the types is none that an intrinsic can be overloaded on. -/
def request (t : IntrinsicTable) (kind : IntrinsicKind) (types : List NativeType) :
    Except Fault Nat × IntrinsicTable :=
  match Intrinsic.ofTypes kind types with
  | .error fault => (.error fault, t)
  | .ok i =>
    let (place, t) := t.get i
    (.ok place, t)

/-- The number of intrinsics declared. -/
def count (t : IntrinsicTable) : Nat :=
  t.declared.size

end IntrinsicTable

end WasmLowering.Ssa
