import WasmLowering.Bytes

/-!
# Message headers

A log message starts with a header: a letter for its level, the time, and the place in the sources
that it comes from, if it is known.
-/

namespace WasmLowering.Log

/-- The level of a message. Higher levels are more severe; any number may be used. -/
abbrev Level := Int

namespace Level

def verbose : Level := 1
def debug : Level := 2
def info : Level := 3
def warning : Level := 4
def error : Level := 5
def critical : Level := 6

/-- The letters of the levels from zero on, and a zero byte after them. -/
def tags : List UInt8 := [0x7E, 0x56, 0x44, 0x49, 0x57, 0x45, 0x43, 0x00]

/-- The letter of a level: a tilde if the level is not in the table. -/
def tag (level : Level) : UInt8 :=
  if 0 ≤ level then tags[level.toNat]?.getD 0x7E else 0x7E

end Level

/-- A path without its first bytes, as many as the source directory `root` and a slash have, if it
    is longer than that. -/
def relativePath (root path : Bytes) : Bytes :=
  let offset := root.length + 1
  if offset < path.length then path.drop offset else path

/-- What is known of a message besides its text. A line number of zero means that the place in the
    sources is not known. -/
structure Header where
  level : Level
  timestamp : UInt64 := 0
  file : Bytes := []
  line : Int := 0
  func : Bytes := []
  deriving Repr, DecidableEq

/-- The header of a message from a place in the sources, which lie in the directory `root`. -/
def Header.ofPlace (root : Bytes) (level : Level) (timestamp : UInt64) (file : Option Bytes)
    (line : Int) (func : Option Bytes) : Header :=
  { level
    timestamp
    file := (file.map fun path => relativePath root path.untilNul).getD []
    line
    func := (func.map Bytes.untilNul).getD [] }

/-- The text of a header, given the text of its time. -/
def Header.text (time : Bytes) (h : Header) : Bytes :=
  let place : Bytes :=
    if h.line = 0 then []
    else .ofString "(" ++ h.func ++ .ofString ", " ++ h.file ++ .ofString ":" ++ .ofInt h.line ++
      .ofString ") "
  [h.level.tag] ++ .ofString " " ++ time.untilNul ++ .ofString " " ++ place

/-- The part of a text that a buffer of `capacity` bytes holds, with a terminator after it. -/
def fitBuffer (capacity : Nat) (text : Bytes) : Bytes :=
  text.take (capacity - 1)

/-- What printing to a buffer gives: the size that the whole text has, and the part of the text that
    is in the buffer. -/
structure Printed where
  size : Nat
  text : Bytes
  deriving Repr, DecidableEq

/-- Prints a header to a buffer of `capacity` bytes, given the text of its time. -/
def Header.print (capacity : Nat) (time : Bytes) (h : Header) : Printed :=
  let text := h.text time
  { size := text.length, text := fitBuffer capacity text }

end WasmLowering.Log
