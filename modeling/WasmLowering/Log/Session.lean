import WasmLowering.Log.Header
import WasmLowering.Log.Timestamp

/-!
# Logging

At most one logger exists at a time. It writes to the console, to a file, or to both; each of the
two takes the messages from a level on, and level zero turns it off. A message is its header, its
text and a line feed.

Messages are put together in one buffer, through a stream that may hold text back. A message that is
complete is written from the buffer, which is emptied or, if it has grown large, given up for a new
one. The text of a message that ends while there is no logger stays, and starts the next message
that is written.
-/

namespace WasmLowering.Log

/-- A log file: its path and what was written to it. -/
structure LogFile where
  path : Bytes
  text : Bytes := []
  deriving Repr, DecidableEq

/-- How a logger writes the header of a message, given the text of its time. -/
abbrev HeaderFormat := Bytes → Header → Bytes

/-- A logger. -/
structure Logger where
  /-- The least level for the console, or zero. -/
  consoleLevel : Level
  /-- The least level for the file, or zero. -/
  fileLevel : Level
  file : Option LogFile
  calendar : Calendar
  headerFormat : HeaderFormat := Header.text
  timeFormat : Bytes := .ofString "%Y-%m-%d.%T"
  milliseconds : Bool := true

/-- Why a logger cannot be made. -/
inductive LoggerError where
  | alreadyInitialized
  | levelOutOfRange
  | noSink
  deriving Repr, DecidableEq

/-- The wording of an error. -/
def LoggerError.message : LoggerError → String
  | alreadyInitialized => "logger already initialized"
  | levelOutOfRange => "logger: minimal level out of range"
  | noSink => "no logger sink configured"

/-- Whether a sink with a least level takes messages of a level. -/
def accepts (least level : Level) : Bool :=
  least != 0 && least ≤ level

namespace Logger

/-- The end of a log file's name. -/
def fileSuffix (calendar : Calendar) (now : UInt64) : Bytes :=
  formatTimestamp calendar 128 (.ofString "%y_%m_%d_%H_%M_%S") now false ++ .ofString ".log"

/-- The path of a log file whose name starts with `stem`, in a directory. -/
def filePath (calendar : Calendar) (directory stem : Bytes) (now : UInt64) : Bytes :=
  let name := stem ++ fileSuffix calendar now
  if directory.isEmpty || directory.getLast? == some 0x2F then directory ++ name
  else directory ++ .ofString "/" ++ name

/-- Whether some sink takes messages of a level. -/
def takes (l : Logger) (level : Level) : Bool :=
  accepts l.consoleLevel level || accepts l.fileLevel level

/-- The size of the buffer for headers. -/
def headerCapacity : Nat := 256

/-- The size of the buffer for the text of a time. -/
def timeCapacity : Nat := 80

/-- The text of a message's time. -/
def timeText (l : Logger) (timestamp : UInt64) : Bytes :=
  if l.timeFormat.isEmpty then []
  else formatTimestamp l.calendar timeCapacity l.timeFormat timestamp l.milliseconds

/-- The text of a message's header. -/
def headerText (l : Logger) (h : Header) : Bytes :=
  fitBuffer headerCapacity (l.headerFormat (l.timeText h.timestamp) h)

/-- Writes a text with its header. Gives what goes to the console. -/
def write (l : Logger) (h : Header) (text : Bytes) : Bytes × Logger :=
  let output := l.headerText h ++ text
  let console := if accepts l.consoleLevel h.level then output else []
  let file :=
    if accepts l.fileLevel h.level then l.file.map fun f => { f with text := f.text ++ output }
    else l.file
  (console, { l with file })

end Logger

/-! ## The message buffer -/

/-- The buffer in which a message is put together, and the stream that leads to it. -/
structure MessageBuffer where
  /-- What has reached the buffer. -/
  text : Bytes := []
  /-- What the stream holds back. -/
  held : Bytes := []
  deriving Repr, DecidableEq

namespace MessageBuffer

/-- The size above which a buffer is not used again. -/
def sizeLimit : Nat := 10000

/-- Puts a text into the stream. -/
def insert (b : MessageBuffer) (text : Bytes) : MessageBuffer :=
  { b with held := b.held ++ text }

/-- Lets the stream pass on what it holds back. -/
def flush (b : MessageBuffer) : MessageBuffer :=
  { text := b.text ++ b.held, held := [] }

/-- Empties the buffer. The stream stays. -/
def clear (b : MessageBuffer) : MessageBuffer :=
  { b with text := [] }

/-- A new buffer with a new stream. The old stream is closed after the buffer has been replaced, and
    passes on what it holds back. -/
def renew (b : MessageBuffer) : MessageBuffer :=
  b.clear.flush

/-- Makes room for the next message. -/
def recycle (b : MessageBuffer) : MessageBuffer :=
  if sizeLimit < b.text.length then b.renew else b.clear

end MessageBuffer

/-! ## Sessions -/

/-- The logger, if there is one, the buffer for messages, and the files of loggers that are gone.
    All loggers of a session write times by one calendar. -/
structure Session where
  calendar : Calendar := .universal
  logger : Option Logger := none
  buffer : MessageBuffer := {}
  closed : List LogFile := []

namespace Session

/-- Makes a logger. A file is opened if it takes messages of any level. -/
def create (s : Session) (consoleLevel fileLevel : Level) (path : Bytes) :
    Except LoggerError Session :=
  if s.logger.isSome then .error .alreadyInitialized
  else if consoleLevel < 0 ∨ fileLevel < 0 then .error .levelOutOfRange
  else if consoleLevel = 0 ∧ fileLevel = 0 then .error .noSink
  else
    let file := if fileLevel = 0 then none else some { path }
    .ok { s with logger := some { consoleLevel, fileLevel, file, calendar := s.calendar } }

/-- Removes the logger. -/
def destroy (s : Session) : Session :=
  let files := (s.logger.bind Logger.file).toList
  { s with logger := none, closed := s.closed ++ files }

/-- All files written. -/
def files (s : Session) : List LogFile :=
  s.destroy.closed

/-- Changes the logger, if there is one. -/
def modifyLogger (s : Session) (f : Logger → Logger) : Session :=
  { s with logger := s.logger.map f }

/-- Sets the format of times. No format leaves times out. -/
def setTimeFormat (s : Session) (format : Option Bytes) (milliseconds : Bool) : Session :=
  s.modifyLogger fun l =>
    match format with
    | some format => { l with timeFormat := format.untilNul, milliseconds }
    | none => { l with timeFormat := [], milliseconds := false }

/-- Sets the format of headers. No format changes nothing. -/
def setHeaderFormat (s : Session) (format : Option HeaderFormat) : Session :=
  s.modifyLogger fun l =>
    match format with
    | some headerFormat => { l with headerFormat }
    | none => l

/-- Whether a message of a level would be written. -/
def willLog (s : Session) (level : Level) : Bool :=
  s.logger.any (·.takes level)

/-- A message, whatever its level. Gives what goes to the console. -/
def message (s : Session) (h : Header) (text : Bytes) : Bytes × Session :=
  let buffer := s.buffer.insert text
  match s.logger with
  | none => ([], { s with buffer })
  | some l =>
    let buffer := (buffer.insert (.ofString "\n")).flush
    let (console, l) := l.write h buffer.text
    (console, { s with logger := some l, buffer := buffer.recycle })

/-- A message, if its level is taken. Gives what goes to the console. -/
def log (s : Session) (h : Header) (text : Bytes) : Bytes × Session :=
  if s.willLog h.level then s.message h text else ([], s)

/-- Several messages without a place, given at one time, each if its level is taken. Gives what goes
    to the console. -/
def logAll (s : Session) (timestamp : UInt64) : List (Level × Bytes) → Bytes × Session
  | [] => ([], s)
  | (level, text) :: rest =>
    let (console, s) := s.log { level, timestamp } text
    let (consoles, s) := s.logAll timestamp rest
    (console ++ consoles, s)

end Session

/-- What a console logger that takes informative messages, without times, shows of some messages. -/
def consoleText (messages : List (Level × Bytes)) : Bytes :=
  match ({} : Session).create .info 0 [] with
  | .error _ => []
  | .ok s => ((s.setTimeFormat none true).logAll 0 messages).1

end WasmLowering.Log
