import Mathlib
import WasmLowering.Log.Session

/-!
# Delivery of log messages

All messages of a session share one buffer. A message is built as soon as one of the two sinks takes
it, and each sink is then asked again whether it wants the text. What makes the messages independent
of each other is an invariant of the session: between two messages the buffer is empty and its
stream holds nothing back, whether the last buffer was emptied or given up. From this it follows
that a sink gets the messages of its levels, each of them whole and once, in the order in which they
were given.

## Key results

- `MessageBuffer.recycle_flush`: both ways to make room for a message leave an empty buffer
- `Session.Ready.handle`, `Session.Ready.handleAll`: the invariant along a session
- `Session.log_of_ready`: what one message does
- `Session.messages_delivered`: what a sequence of messages does
-/

namespace WasmLowering.Log

/-! ## Events -/

/-- What can happen in a session in which messages are given only if their level is taken. -/
inductive Event where
  | create (consoleLevel fileLevel : Level) (path : Bytes)
  | destroy
  | setTimeFormat (format : Option Bytes) (milliseconds : Bool)
  | setHeaderFormat (format : Option HeaderFormat)
  | log (header : Header) (text : Bytes)

namespace Session

/-- What an event sends to the console, and the session after it. A logger that cannot be made
    leaves the session as it is. -/
def handle (s : Session) : Event → Bytes × Session
  | .create consoleLevel fileLevel path =>
    match s.create consoleLevel fileLevel path with
    | .ok t => ([], t)
    | .error _ => ([], s)
  | .destroy => ([], s.destroy)
  | .setTimeFormat format milliseconds => ([], s.setTimeFormat format milliseconds)
  | .setHeaderFormat format => ([], s.setHeaderFormat format)
  | .log header text => s.log header text

/-- What events send to the console, and the session after them. -/
def handleAll (s : Session) : List Event → Bytes × Session
  | [] => ([], s)
  | e :: es =>
    let next := s.handle e
    let last := next.2.handleAll es
    (next.1 ++ last.1, last.2)

end Session

/-! ## What a sink gets -/

namespace Logger

/-- A message as it is written: the first 255 bytes of its header, its text and a line feed. -/
def line (l : Logger) (message : Header × Bytes) : Bytes :=
  (l.headerFormat (l.timeText message.1.timestamp) message.1).take 255 ++ message.2 ++
    .ofString "\n"

/-- What a sink with a least level gets of some messages: the lines of those that have this level or
    a higher one, and nothing if the sink is turned off. -/
def lines (l : Logger) (least : Level) (messages : List (Header × Bytes)) : Bytes :=
  if least = 0 then []
  else (messages.filter fun message => least ≤ message.1.level).flatMap l.line

/-- The logger after a text was added to its file. -/
def addToFile (l : Logger) (text : Bytes) : Logger :=
  { l with file := l.file.map fun f => { f with text := f.text ++ text } }

variable (l : Logger) (message : Header × Bytes) (messages : List (Header × Bytes))

@[simp] theorem lines_addToFile (text : Bytes) (least : Level) :
    (l.addToFile text).lines least messages = l.lines least messages := rfl

@[simp] theorem addToFile_addToFile (text more : Bytes) :
    (l.addToFile text).addToFile more = l.addToFile (text ++ more) := by
  cases hfile : l.file <;> simp [addToFile, hfile]

private theorem addToFile_nil : l.addToFile [] = l := by
  simp [addToFile]

private theorem lines_nil (least : Level) : l.lines least [] = [] := by
  simp [lines]

/-- The line of a message comes before those that follow it. -/
private theorem lines_cons (least : Level) :
    l.lines least (message :: messages) =
      (if accepts least message.1.level then l.line message else []) ++ l.lines least messages := by
  by_cases hoff : least = 0
  · simp [lines, accepts, hoff]
  · by_cases hlevel : least ≤ message.1.level
    · simp [lines, accepts, hoff, hlevel]
    · simp [lines, accepts, hoff, hlevel]

/-- Each sink gets the line if it takes the level. -/
private theorem write_line :
    l.write message.1 (message.2 ++ .ofString "\n") =
      (l.lines l.consoleLevel [message], l.addToFile (l.lines l.fileLevel [message])) := by
  have hline : l.headerText message.1 ++ (message.2 ++ .ofString "\n") = l.line message := by
    rw [line, List.append_assoc]
    rfl
  rw [lines_cons, lines_cons, lines_nil, lines_nil, List.append_nil, List.append_nil, write, hline]
  -- The file level decides on its own, whatever the console does.
  refine Prod.ext rfl ?_
  cases accepts l.fileLevel message.1.level with
  | true => rfl
  | false => exact (addToFile_nil l).symm

private theorem lines_of_not_takes (h : l.takes message.1.level = false) :
    l.lines l.consoleLevel [message] = [] ∧ l.lines l.fileLevel [message] = [] := by
  obtain ⟨hconsole, hfile⟩ := Bool.or_eq_false_iff.1 h
  simp [lines_cons, lines_nil, hconsole, hfile]

end Logger

/-! ## The buffer -/

namespace MessageBuffer

/-- Once the stream has passed on everything, both ways to make room leave an empty buffer. -/
private theorem recycle_flush (b : MessageBuffer) : b.flush.recycle = {} := by
  unfold recycle
  split
  · rfl
  · rfl

theorem text_flush_insert (text more : Bytes) :
    ((({} : MessageBuffer).insert text).insert more).flush.text = text ++ more := rfl

end MessageBuffer

namespace Session

/-- Between two messages the buffer is empty, and there is a log file if it takes messages. -/
structure Ready (s : Session) : Prop where
  buffer : s.buffer = {}
  file : ∀ l ∈ s.logger, (l.file.isSome = true ↔ l.fileLevel ≠ 0)

/-- Nothing has been given yet when a session starts. -/
private theorem ready_start (calendar : Calendar) : Ready { calendar } where
  buffer := rfl
  file l h := by simp at h

/-! ## Single events -/

/-- A message in a session with a logger goes to the sinks that take it, and leaves the buffer
    empty. -/
private theorem log_of_ready {s : Session} {l : Logger} (ready : s.Ready) (hl : s.logger = some l)
    (message : Header × Bytes) :
    s.log message.1 message.2 = (l.lines l.consoleLevel [message],
      { s with logger := some (l.addToFile (l.lines l.fileLevel [message])) }) := by
  obtain ⟨header, text⟩ := message
  have hwill : s.willLog header.level = l.takes header.level := by simp [willLog, hl]
  rw [log, hwill]
  cases htakes : l.takes header.level with
  | true =>
    -- The message is built and offered to both sinks.
    have hwrite := l.write_line (header, text)
    simp only [if_true, message, hl, ready.buffer, MessageBuffer.text_flush_insert, hwrite,
      MessageBuffer.recycle_flush]
  | false =>
    -- Nothing is built; the log file stays as it is.
    obtain ⟨hconsole, hfile⟩ := l.lines_of_not_takes (header, text) htakes
    rw [hconsole, hfile, Logger.addToFile_nil, ← hl]
    rfl

private theorem log_of_none {s : Session} (hnone : s.logger = none) (header : Header)
    (text : Bytes) :
    s.log header text = ([], s) := by
  simp [log, willLog, hnone]

/-- A new logger has a file if and only if its file takes messages. -/
theorem Ready.create {s t : Session} {consoleLevel fileLevel : Level} {path : Bytes}
    (ready : s.Ready) (h : s.create consoleLevel fileLevel path = .ok t) : t.Ready := by
  unfold Session.create at h
  split at h
  · cases h
  · split at h
    · cases h
    · split at h
      · cases h
      · obtain rfl := Except.ok.inj h
        -- The file is opened under the same condition.
        refine ⟨ready.buffer, fun l hl => ?_⟩
        obtain rfl := Option.some.inj hl
        by_cases hoff : fileLevel = 0 <;> simp [hoff]

/-- What leaves the log file and its level alone keeps a session ready. -/
theorem Ready.modifyLogger {s : Session} {change : Logger → Logger} (ready : s.Ready)
    (same : ∀ l, (change l).file = l.file ∧ (change l).fileLevel = l.fileLevel) :
    (s.modifyLogger change).Ready := by
  refine ⟨ready.buffer, fun l hl => ?_⟩
  obtain ⟨old, hold, rfl⟩ := Option.map_eq_some_iff.1 hl
  rw [(same old).1, (same old).2]
  exact ready.file old hold

/-- Every event keeps a session ready. -/
theorem Ready.handle {s : Session} (ready : s.Ready) (e : Event) : (s.handle e).2.Ready := by
  cases e with
  | create consoleLevel fileLevel path =>
    simp only [Session.handle]
    split
    · next t ht => exact ready.create ht
    · exact ready
  | destroy => exact ⟨ready.buffer, fun l hl => by cases hl⟩
  | setTimeFormat format milliseconds =>
    exact ready.modifyLogger fun l => by cases format <;> exact ⟨rfl, rfl⟩
  | setHeaderFormat format =>
    exact ready.modifyLogger fun l => by cases format <;> exact ⟨rfl, rfl⟩
  | log header text =>
    simp only [Session.handle]
    cases hl : s.logger with
    -- Nothing is written, and nothing changes.
    | none => rwa [log_of_none hl]
    | some l =>
      rw [log_of_ready ready hl (header, text)]
      refine ⟨ready.buffer, fun m hm => ?_⟩
      obtain rfl := Option.some.inj hm
      have hfile := ready.file l hl
      simpa [Logger.addToFile] using hfile

/-! ## Sessions -/

/-- A session stays ready, whatever happens in it. -/
theorem Ready.handleAll {s : Session} (ready : s.Ready) (events : List Event) :
    (s.handleAll events).2.Ready := by
  induction events generalizing s with
  | nil => exact ready
  | cons e events ih => exact ih (ready.handle e)

/-- What a sequence of messages does, if it starts with an empty buffer. -/
private theorem handleAll_log {s : Session} {l : Logger} (ready : s.Ready) (hl : s.logger = some l)
    (messages : List (Header × Bytes)) :
    s.handleAll (messages.map fun m => .log m.1 m.2) = (l.lines l.consoleLevel messages,
      { s with logger := some (l.addToFile (l.lines l.fileLevel messages)) }) := by
  -- Along the messages; each of them leaves a session that is ready for the next.
  induction messages generalizing s l with
  | nil =>
    rw [Logger.lines_nil, Logger.lines_nil, Logger.addToFile_nil, ← hl]
    rfl
  | cons message messages ih =>
    have hfirst : s.handle (.log message.1 message.2) = (l.lines l.consoleLevel [message],
        { s with logger := some (l.addToFile (l.lines l.fileLevel [message])) }) :=
      log_of_ready ready hl message
    have hready := ready.handle (.log message.1 message.2)
    rw [hfirst] at hready
    have hrest := ih hready rfl
    -- The first message and the others, for either sink.
    have hcons : ∀ least : Level,
        l.lines least [message] ++ l.lines least messages =
          l.lines least (message :: messages) := by
      intro least
      rw [Logger.lines_cons, Logger.lines_cons, Logger.lines_nil, List.append_nil]
    simp only [List.map_cons, Session.handleAll, hfirst, hrest]
    simp only [Logger.lines_addToFile, Logger.addToFile_addToFile]
    exact Prod.ext (hcons l.consoleLevel) (by rw [← hcons l.fileLevel]; rfl)

/-- Whatever the calendar is, whatever happened before in a session, and whatever messages follow:
    the console and the log file get the lines of the messages that have their least level or a
    higher one, whole, once and in order, and a sink that is turned off gets nothing. A log file
    exists if it is not turned off, and keeps what it held. Nothing else changes. -/
theorem messages_delivered (calendar : Calendar) (history : List Event)
    (messages : List (Header × Bytes)) {l : Logger}
    (hl : (handleAll { calendar } history).2.logger = some l) :
    let s := (handleAll { calendar } history).2
    let t := s.handleAll (messages.map fun m => .log m.1 m.2)
    t.1 = l.lines l.consoleLevel messages ∧
      t.2.logger.bind Logger.file =
        l.file.map (fun f => { f with text := f.text ++ l.lines l.fileLevel messages }) ∧
      (l.fileLevel ≠ 0 ↔ ∃ f, l.file = some f) ∧
      t.2 = { s with logger := t.2.logger } := by
  have ready := (ready_start calendar).handleAll history
  have hrun := handleAll_log ready hl messages
  simp only [hrun]
  refine ⟨trivial, rfl, ?_, trivial⟩
  rw [← ready.file l hl, Option.isSome_iff_exists]

/-- A logger that shows more on the console than in its file, and writes no times. -/
def openingEvents : List Event :=
  [.create .info .error [0x66], .setTimeFormat none false]

/-- A message that outgrows the buffer, one that no sink takes, and one for both sinks. -/
def mixedMessages : List (Header × Bytes) :=
  [({ level := .warning }, List.replicate 20000 0x78), ({ level := .debug }, [0x64]),
    ({ level := .error }, [0x65])]

/-- The large message goes to the console only, and nothing of it is left for the last one. -/
theorem messages_delivered_mixed :
    let t := (handleAll {} openingEvents).2.handleAll (mixedMessages.map fun m => .log m.1 m.2)
    t.1 = [0x57, 0x20, 0x20] ++ List.replicate 20000 0x78 ++ [0x0A, 0x45, 0x20, 0x20, 0x65, 0x0A] ∧
      t.2.logger.bind Logger.file =
        some { path := [0x66], text := [0x45, 0x20, 0x20, 0x65, 0x0A] } := by
  let l : Logger :=
    { consoleLevel := .info, fileLevel := .error, file := some { path := [0x66] }
      calendar := .universal, timeFormat := [], milliseconds := false }
  have hl : (handleAll {} openingEvents).2.logger = some l := rfl
  obtain ⟨hconsole, hfile, -, -⟩ := messages_delivered .universal openingEvents mixedMessages hl
  -- Without a time and a place the header is the letter of the level and two blanks.
  have hline : ∀ level text, level ∈ [Level.warning, Level.error] →
      l.line ({ level }, text) = [level.tag, 0x20, 0x20] ++ text ++ [0x0A] := by
    intro level text hlevel
    have hheader : ∀ level ∈ [Level.warning, Level.error],
        (l.headerFormat (l.timeText 0) { level }).take 255 = [level.tag, 0x20, 0x20] := by
      decide +kernel
    have hfeed : Bytes.ofString "\n" = [0x0A] := by decide +kernel
    rw [Logger.line, hheader level hlevel, hfeed]
  have hlarge := hline .warning (List.replicate 20000 0x78) (by simp)
  have hlast := hline .error [0x65] (by simp)
  have hshown : accepts l.consoleLevel .warning = true ∧ accepts l.consoleLevel .debug = false ∧
      accepts l.consoleLevel .error = true := by decide
  have hfiled : accepts l.fileLevel .warning = false ∧ accepts l.fileLevel .debug = false ∧
      accepts l.fileLevel .error = true := by decide
  have hlines : l.lines l.fileLevel mixedMessages = [0x45, 0x20, 0x20, 0x65, 0x0A] := by
    simp only [mixedMessages, Logger.lines_cons, Logger.lines_nil, hlast, hfiled]
    rfl
  refine ⟨hconsole.trans ?_, hfile.trans (by rw [hlines]; rfl)⟩
  simp only [mixedMessages, Logger.lines_cons, Logger.lines_nil, hlarge, hlast, hshown, if_true,
    List.append_assoc]
  rfl

end Session

end WasmLowering.Log
