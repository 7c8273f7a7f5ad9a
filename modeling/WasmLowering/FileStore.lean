import WasmLowering.Bytes

/-!
# A directory of files

Files are written and read whole. They lie in one directory without subdirectories, so a name that
leads into another directory, or names a directory, can be neither written nor read.
-/

namespace WasmLowering

/-- The files of a directory, by name. -/
abbrev FileStore := List (Bytes × Bytes)

namespace FileStore

/-- The slash that separates the parts of a path. -/
def slash : UInt8 := 0x2F

/-- The parts of a path between its slashes. -/
def parts : Bytes → List Bytes
  | [] => [[]]
  | b :: rest =>
    if b = slash then [] :: parts rest
    else
      match parts rest with
      | [] => [[b]]
      | part :: more => (b :: part) :: more

/-- Whether a part of a path stays in the directory it starts from. -/
def staysHere (part : Bytes) : Bool :=
  part.isEmpty || part == .ofString "."

/-- The longest name that a file may have. -/
def maxNameLength : Nat := 255

/-- The file that a path names, if the path leads into no other directory. -/
def fileName? (path : Bytes) : Option Bytes :=
  match (parts path.untilNul).dropWhile staysHere with
  | [name] => if name == .ofString ".." || maxNameLength < name.length then none else some name
  | _ => none

/-- Writes a file, in place of one of the same name. -/
def insert (name content : Bytes) : FileStore → FileStore
  | [] => [(name, content)]
  | (other, x) :: rest =>
    if name = other then (name, content) :: rest else (other, x) :: insert name content rest

/-- Writes a file, if its path names one. -/
def write (s : FileStore) (path content : Bytes) : Option FileStore :=
  (fileName? path).map fun name => s.insert name content

/-- The content of a file, if there is one. -/
def read? (s : FileStore) (path : Bytes) : Option Bytes :=
  (fileName? path).bind fun name => s.lookup name

end FileStore

end WasmLowering
