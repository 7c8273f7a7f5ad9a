import Std.Time.DateTime.Timestamp
import WasmLowering.CommandLine
import WasmLowering.JsonValue.Text
import WasmLowering.Log.Session
import WasmLowering.Module.Compile
import WasmLowering.Module.Dump

/-!
# The compiler as a program

Reads the options and the input file, compiles it, and writes the listing of the lowered module and,
on request, the dump of its table. All decisions are made in the library; this file only reads and
writes.
-/

namespace WasmLowering.Program

/-- The version of the program. -/
def versionText : String := "0.0.0"

/-- The status of a run that failed. -/
def failed : UInt32 := 255

/-- The milliseconds since the start of 1970. -/
def currentTime : IO UInt64 := do
  let now ← Std.Time.Timestamp.now
  return UInt64.ofNat now.toMillisecondsSinceUnixEpoch.val.toNat

/-- Writes bytes to the standard output. -/
def writeOut (b : Bytes) : IO Unit := do
  let out ← IO.getStdout
  out.write ⟨b.toArray⟩
  out.flush

/-- Reads a file, if that is possible. -/
def readFile? (path : String) : IO (Option Bytes) := do
  try
    return some (← IO.FS.readBinFile path).data.toList
  catch _ => return none

/-- Writes a file, and says whether that was possible. -/
def writeFile (path : String) (content : Bytes) : IO Bool := do
  try
    IO.FS.writeBinFile path ⟨content.toArray⟩
    return true
  catch _ => return false

/-- Logs messages. -/
def logNow (s : Log.Session) (messages : List (Log.Level × Bytes)) : IO Log.Session := do
  let (console, s) := s.logAll (← currentTime) messages
  writeOut console
  return s

/-- Compiles the input file, and gives the status of the run. -/
def compileInput (settings : Settings) (s : Log.Session) : IO (UInt32 × Log.Session) := do
  let fail (s : Log.Session) (text : Bytes) : IO (UInt32 × Log.Session) := do
    return (failed, ← logNow s [(.error, text)])
  let some path := settings.value? .input | fail s (.ofString "no input file")
  let some input ← readFile? path | fail s (.ofString ("can't read " ++ path))
  let s ← logNow s
    [(.info, .ofString ("compiling " ++ path ++ ", size=") ++ .ofNat input.length)]
  let report := compile (.ofString ((settings.value? .moduleName).getD "")) input
  let s ← logNow s report.messages
  match report.outcome.bind fun m => do return (m.table, ← m.getLowered) with
  | .error fault => fail s (.ofString (fault.kind.name ++ ": ") ++ fault.message)
  | .ok (table, lowered) =>
    let s ← match settings.value? .output with
      | none => do
        writeOut lowered.listing
        pure s
      | some path =>
        if ← writeFile path lowered.listing then
          logNow s [(.info, .ofString ("IR written to " ++ path))]
        else return (← fail s (.ofString ("can't write " ++ path)))
    match settings.value? .info with
    | none => return (0, s)
    | some path =>
      if ← writeFile path table.dump.toText then
        return (0, ← logNow s [(.info, .ofString ("module info written to " ++ path))])
      else fail s (.ofString ("can't write " ++ path))

/-- Appends what was logged to the log files. -/
def writeLogs (directory : String) (s : Log.Session) : IO Unit := do
  for file in s.files do
    IO.FS.createDirAll directory
    if let some path := String.fromUTF8? ⟨file.path.toArray⟩ then
      let handle ← IO.FS.Handle.mk path .append
      handle.write ⟨file.text.toArray⟩

/-- Compiles with a logger. -/
def runLogged (settings : Settings) : IO UInt32 := do
  let directory := (settings.value? .logPath).getD ""
  let session : Log.Session := {}
  let path := Log.Logger.filePath session.calendar (.ofString directory) (.ofString "wasmir_")
    (← currentTime)
  match session.create settings.consoleLevel (settings.level .fileLogLevel 0) path with
  | .error e =>
    IO.eprintln e.message
    return failed
  | .ok s =>
    let (status, s) ← compileInput settings s
    writeLogs directory s
    return status

/-- The settings on the command line, and after them those in the configuration file. -/
def readSettings (args : List String) : IO (Except CliError Settings) := do
  match Settings.ofArguments args with
  | .error e => return .error e
  | .ok given =>
    let content ← readFile? ((given.value? .configFile).getD "")
    let text := (content.bind fun b => String.fromUTF8? ⟨b.toArray⟩).getD ""
    return (Settings.ofConfig text).map fun other => given ++ other

end WasmLowering.Program

open WasmLowering in
/-- Runs the program. -/
def main (args : List String) : IO UInt32 := do
  match ← Program.readSettings args with
  | .error e =>
    IO.println e.message
    IO.print usageText
    return Program.failed
  | .ok settings =>
    if settings.has .help then
      IO.print usageText
      return 0
    else if settings.has .version then
      IO.println Program.versionText
      return 0
    else Program.runLogged settings
