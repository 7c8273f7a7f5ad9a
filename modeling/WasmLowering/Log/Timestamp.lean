import WasmLowering.Bytes

/-!
# Calendar text of a timestamp

A timestamp counts milliseconds from the start of 1970. Its text follows a format in which a percent
sign and a letter stand for a field of the date or the time. Which fields there are, and which date
and time it is, is a matter of the system's calendar. The text is written to a buffer of limited
size: what does not fit, with a terminator after it, is not written at all.
-/

namespace WasmLowering.Log

/-- A day of the Gregorian calendar. -/
structure Date where
  year : Nat
  month : Nat
  day : Nat
  deriving Repr, DecidableEq

/-- The date a number of days after the first of January 1970. The count is shifted to start at the
    first of March of the year zero, so that a leap day ends its year, and is then split into eras
    of 400 years. -/
def Date.ofDays (days : Nat) : Date :=
  let shifted := days + 719468
  let era := shifted / 146097
  let dayOfEra := shifted % 146097
  let yearOfEra := (dayOfEra - dayOfEra / 1460 + dayOfEra / 36524 - dayOfEra / 146096) / 365
  let dayOfYear := dayOfEra - (365 * yearOfEra + yearOfEra / 4 - yearOfEra / 100)
  let marchMonth := (5 * dayOfYear + 2) / 153
  let month := if marchMonth < 10 then marchMonth + 3 else marchMonth - 9
  let year := era * 400 + yearOfEra
  { year := if month ≤ 2 then year + 1 else year
    month
    day := dayOfYear - (153 * marchMonth + 2) / 5 + 1 }

/-- A date and a time of day. -/
structure Moment where
  date : Date
  hour : Nat
  minute : Nat
  second : Nat
  deriving Repr, DecidableEq

/-- The moment a number of seconds after the start of 1970, in universal time. -/
def Moment.ofSeconds (seconds : Nat) : Moment :=
  { date := .ofDays (seconds / 86400)
    hour := seconds / 3600 % 24
    minute := seconds / 60 % 60
    second := seconds % 60 }

/-- Two decimal digits. -/
def twoDigits (n : Nat) : Bytes :=
  .ofString (decimalDigits 2 n)

/-- Hour, minute and second. -/
def Moment.clock (m : Moment) : Bytes :=
  twoDigits m.hour ++ .ofString ":" ++ twoDigits m.minute ++ .ofString ":" ++ twoDigits m.second

/-- The field that a letter stands for. A letter without a meaning stands for itself behind its
    percent sign. -/
def Moment.field (m : Moment) (letter : UInt8) : Bytes :=
  match Char.ofNat letter.toNat with
  | 'Y' => .ofNat m.date.year
  | 'y' => twoDigits (m.date.year % 100)
  | 'm' => twoDigits m.date.month
  | 'd' => twoDigits m.date.day
  | 'H' => twoDigits m.hour
  | 'M' => twoDigits m.minute
  | 'S' => twoDigits m.second
  | 'T' => m.clock
  | '%' => .ofString "%"
  | _ => .ofString "%" ++ [letter]

/-- The percent sign. -/
def percent : UInt8 := 0x25

/-- A moment written in a format. -/
def Moment.format (m : Moment) : Bytes → Bytes
  | [] => []
  | [b] => [b]
  | b :: c :: rest =>
    if b = percent then m.field c ++ m.format rest else b :: m.format (c :: rest)

/-- How a system writes the moment a number of seconds after the start of 1970 in a format. -/
abbrev Calendar := Bytes → Nat → Bytes

/-- The calendar of universal time, with the fields of `Moment.field`. -/
def Calendar.universal : Calendar := fun format seconds =>
  (Moment.ofSeconds seconds).format format

/-- A timestamp written in a format to a buffer of `capacity` bytes. The text is dropped if it does
    not fit with a terminator, and the milliseconds are left out if they do not fit after it. -/
def formatTimestamp (calendar : Calendar) (capacity : Nat) (format : Bytes) (timestamp : UInt64)
    (milliseconds : Bool) : Bytes :=
  let text := calendar format.untilNul (timestamp.toNat / 1000)
  let text := if text.length < capacity then text else []
  if milliseconds && 4 < capacity - text.length then
    text ++ .ofString "." ++ .ofString (decimalDigits 3 (timestamp.toNat % 1000))
  else text

end WasmLowering.Log
