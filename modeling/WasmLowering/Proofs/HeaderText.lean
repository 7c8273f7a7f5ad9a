import WasmLowering.Log.Header
import WasmLowering.Proofs.IntrinsicNames
import WasmLowering.Proofs.PlainFaults

/-!
# The text of message headers

A header has a letter for the level of its message, the time and, if it is known, the place in the
sources: the function, the file and the line. Six levels have letters of their own, and all others
show a tilde. A file that lies under the source directory is named from there, and any other one by
its path. What is printed is the beginning of this text that fits the buffer, and its full size.

This holds with two exceptions. The table of letters has a zero byte at its end, and the level after
the last one shows this byte. And a path loses its first bytes, as many as the source directory and
a slash have, whenever it is longer than these, so that a long path outside of the directory is cut.

## Key results

- `Bytes.ofInt_eq_signedDigits`: a line number is written with its decimal digits
- `Level.tag_eq_letter_iff`: which levels show their letters
- `relativePath_eq_sourceName`, `length_relativePath_eq_iff`: which paths are shortened correctly
- `headers_printed`: what is printed, and for which messages it is the header described above
-/

namespace WasmLowering

/-! ## Decimal numbers -/

/-- The byte of a decimal digit. -/
def digitByte (d : Nat) : UInt8 :=
  .ofNat (0x30 + d)

/-- The decimal digits of an integer other than zero, with a minus sign if it is negative. -/
def signedDigits (n : Int) : Bytes :=
  (if n < 0 then [0x2D] else []) ++ ((Nat.digits 10 n.natAbs).map digitByte).reverse

/-- A digit is one byte. -/
private theorem utf8EncodeChar_digitChar {d : Nat} (h : d < 10) :
    String.utf8EncodeChar (Nat.digitChar d) = [digitByte d] := by
  have hall : ∀ e : Fin 10, String.utf8EncodeChar (Nat.digitChar e.val) = [digitByte e.val] := by
    decide
  exact hall ⟨d, h⟩

namespace Bytes

/-- The last digit comes off the end. -/
private theorem ofNat_eq (n : Nat) :
    ofNat n = (if n < 10 then [] else ofNat (n / 10)) ++ [digitByte (n % 10)] := by
  -- Digits are characters of one byte each.
  have hbytes : ∀ m, ofNat m = (Nat.toDigits 10 m).flatMap String.utf8EncodeChar := by
    intro m
    rw [ofNat, ofString_eq, toList_decimalDigits]
  rw [hbytes, hbytes, Nat.toDigits_eq_if (by decide)]
  split
  · next hlt =>
    rw [Nat.mod_eq_of_lt hlt, List.flatMap_singleton, utf8EncodeChar_digitChar hlt, List.nil_append]
  · rw [List.flatMap_append, List.flatMap_singleton,
      utf8EncodeChar_digitChar (Nat.mod_lt n (by decide))]

/-- A positive number is written with its decimal digits. -/
private theorem ofNat_eq_digits {n : Nat} (h : 0 < n) :
    ofNat n = ((Nat.digits 10 n).map digitByte).reverse := by
  -- Both sides take the last digit off and go on with the quotient by ten.
  induction n using Nat.strong_induction_on with
  | _ n ih =>
    rw [ofNat_eq, Nat.digits_def' (by decide) h, List.map_cons, List.reverse_cons]
    split
    · next hlt => rw [Nat.div_eq_of_lt hlt, Nat.digits_zero, List.map_nil, List.reverse_nil]
    · rw [ih (n / 10) (by omega) (by omega)]

/-- A number other than zero is written with its decimal digits, behind its sign. -/
private theorem ofInt_eq_signedDigits {n : Int} (h : n ≠ 0) : ofInt n = signedDigits n := by
  cases n with
  | ofNat m =>
    have hpos : 0 < m := by
      have : m ≠ 0 := fun hzero => h (by rw [hzero]; rfl)
      omega
    have hsign : ¬ Int.ofNat m < 0 := Int.not_lt.2 (Int.natCast_nonneg m)
    rw [ofInt, ofNat_eq_digits hpos, signedDigits, if_neg hsign, List.nil_append]
    rfl
  -- A negative number has a sign and the digits of its absolute value.
  | negSucc m =>
    have hminus : ofString "-" = [0x2D] := by decide +kernel
    rw [ofInt, ofNat_eq_digits m.succ_pos, hminus, signedDigits, if_pos (Int.negSucc_lt_zero m),
      Int.natAbs_negSucc]

end Bytes

namespace Log

/-! ## Letters of levels -/

namespace Level

/-- The levels with names, and their letters. -/
def letters : List (Int × Char) :=
  [(verbose, 'V'), (debug, 'D'), (info, 'I'), (warning, 'W'), (error, 'E'), (critical, 'C')]

/-- The letter that stands for a level: a tilde if the level has no name. -/
def letter (level : Level) : UInt8 :=
  ((letters.lookup level).getD '~').toUInt8

/-- Levels outside of the named ones have the tilde. -/
private theorem letter_of_unnamed {level : Int} (h : level < 1 ∨ 6 < level) :
    letter level = '~'.toUInt8 := by
  have hnone : letters.lookup level = none := by
    have hrange : ∀ p ∈ letters, 1 ≤ p.1 ∧ p.1 ≤ 6 := by decide
    refine List.lookup_eq_none_iff.2 fun p hp => bne_iff_ne.2 fun heq => ?_
    have := hrange p hp
    omega
  rw [letter, hnone, Option.getD_none]

/-- Levels outside of the table show the tilde. -/
private theorem tag_of_outside {level : Int} (h : level < 0 ∨ 8 ≤ level) :
    tag level = '~'.toUInt8 := by
  obtain hneg | hhigh := h
  · exact if_neg (Int.not_le.2 hneg)
  · -- The table has eight entries, with the zero byte at its end.
    have hpos : 0 ≤ level := by omega
    have hlong : tags.length ≤ level.toNat := by
      have : tags.length = 8 := rfl
      omega
    rw [tag, if_pos hpos, List.getElem?_eq_none hlong]
    rfl

/-- Only the entry after the last letter differs: it is the end of the table. -/
private theorem tag_eq (level : Int) : tag level = if level = 7 then 0 else letter level := by
  by_cases htable : 0 ≤ level ∧ level < 8
  -- The eight entries of the table, one by one.
  · obtain ⟨hlow, hhigh⟩ := htable
    interval_cases level <;> decide
  · rw [tag_of_outside (by omega), if_neg (by omega), letter_of_unnamed (by omega)]

/-- All levels but one show their letters. -/
private theorem tag_eq_letter_iff {level : Level} : level.tag = level.letter ↔ level ≠ 7 := by
  rw [tag_eq]
  by_cases h : level = 7
  · subst h
    decide
  · simp [h]

end Level

/-! ## Names of files -/

/-- The source directory, as the beginning of the paths that lie under it. -/
def sourceDirectory (root : Bytes) : Bytes :=
  root ++ .ofString "/"

/-- The path lies under the source directory. The directory does not lie under itself. -/
def UnderSources (root path : Bytes) : Prop :=
  ∃ name, name ≠ [] ∧ path = sourceDirectory root ++ name

/-- The name of a file in a header: the way to it from the source directory if it lies under this
    directory, and its path otherwise. -/
def sourceName (root path : Bytes) : Bytes :=
  ((path.dropPrefix? (sourceDirectory root)).filter (· ≠ [])).getD path

section Paths

variable {root path name : Bytes}

/-- A file under the source directory is named from there. -/
private theorem sourceName_under (h : name ≠ []) :
    sourceName root (sourceDirectory root ++ name) = name := by
  have hdrop : (sourceDirectory root ++ name).dropPrefix? (sourceDirectory root) = some name :=
    List.dropPrefix?_eq_some_iff.2 ⟨sourceDirectory root, rfl, by simp⟩
  rw [sourceName, hdrop, Option.filter_some, if_pos (by simpa using h), Option.getD_some]

/-- Any other file is named by its path. -/
private theorem sourceName_outside (h : ¬ UnderSources root path) :
    sourceName root path = path := by
  have hnone : (path.dropPrefix? (sourceDirectory root)).filter (· ≠ []) = none := by
    rw [Option.filter_eq_none_iff]
    intro name hname hne
    obtain ⟨front, rfl, hfront⟩ := List.dropPrefix?_eq_some_iff.1 hname
    exact h ⟨name, by simpa using hne, by rw [eq_of_beq hfront]⟩
  rw [sourceName, hnone, Option.getD_none]

private theorem length_sourceDirectory (root : Bytes) :
    (sourceDirectory root).length = root.length + 1 := by
  rw [sourceDirectory, List.length_append]
  rfl

/-- A short path is not cut. -/
private theorem relativePath_of_le (h : path.length ≤ (sourceDirectory root).length) :
    relativePath root path = path := by
  rw [length_sourceDirectory] at h
  exact if_neg (by omega)

/-- A long path is cut, whatever it begins with. -/
private theorem relativePath_of_lt (h : (sourceDirectory root).length < path.length) :
    relativePath root path = path.drop (sourceDirectory root).length := by
  rw [length_sourceDirectory] at h ⊢
  exact if_pos h

/-- A path under the source directory is longer than that of the directory. -/
theorem UnderSources.lt_length (h : UnderSources root path) :
    (sourceDirectory root).length < path.length := by
  obtain ⟨name, hname, rfl⟩ := h
  have := List.length_pos_iff.2 hname
  rw [List.length_append]
  omega

/-- Paths under the source directory and short ones are named as they should be. -/
theorem relativePath_eq_sourceName
    (h : UnderSources root path ∨ path.length ≤ (sourceDirectory root).length) :
    relativePath root path = sourceName root path := by
  obtain hunder | hshort := h
  · rw [relativePath_of_lt hunder.lt_length]
    obtain ⟨name, hname, rfl⟩ := hunder
    rw [List.drop_left, sourceName_under hname]
  · have houtside : ¬ UnderSources root path := fun hunder => absurd hunder.lt_length (by omega)
    rw [relativePath_of_le hshort, sourceName_outside houtside]

/-- A path that is cut wrongly does not even keep its length. -/
theorem length_relativePath_eq_iff :
    (relativePath root path).length = (sourceName root path).length ↔
      UnderSources root path ∨ path.length ≤ (sourceDirectory root).length := by
  refine ⟨fun hlength => ?_, fun h => by rw [relativePath_eq_sourceName h]⟩
  -- Otherwise the path should be kept as it is, but loses at least the slash.
  by_contra hcut
  obtain ⟨houtside, hlong⟩ := not_or.1 hcut
  rw [relativePath_of_lt (by omega), sourceName_outside houtside, List.length_drop] at hlength
  have : 0 < (sourceDirectory root).length := by rw [length_sourceDirectory]; omega
  omega

end Paths

/-! ## Headers -/

/-- The place of a message, as it stands in a header. -/
def placeForm (line : Int) (func file : Bytes) : Bytes :=
  if line = 0 then []
  else Bytes.ofString "(" ++ func ++ Bytes.ofString ", " ++ file ++ Bytes.ofString ":" ++
    signedDigits line ++ Bytes.ofString ") "

/-- A header: a letter, the time and the place. -/
def headerForm (letter : UInt8) (time : Bytes) (line : Int) (func file : Bytes) : Bytes :=
  letter :: (Bytes.ofString " " ++ time ++ Bytes.ofString " " ++ placeForm line func file)

/-- A text up to its first zero byte; nothing if there is no text. -/
def given (text : Option Bytes) : Bytes :=
  (text.map Bytes.untilNul).getD []

/-- What is printed is a text, as far as it fits a buffer of `capacity` bytes with a terminator. -/
structure Printed.Shows (p : Printed) (capacity : Nat) (text : Bytes) : Prop where
  size : p.size = text.length
  text : p.text = text.take (min p.size (capacity - 1))

/-- What is printed shows the text of the header. -/
theorem Header.print_shows (h : Header) (capacity : Nat) (time : Bytes) :
    (h.print capacity time).Shows capacity (h.text time) where
  size := rfl
  text := by
    rw [min_comm]
    exact List.take_eq_take_min

/-- Two texts are printed alike if they have the same size and the same beginning. -/
theorem Printed.Shows.iff {p : Printed} {capacity : Nat} {text other : Bytes}
    (h : p.Shows capacity text) :
    p.Shows capacity other ↔
      text.length = other.length ∧ text.take (capacity - 1) = other.take (capacity - 1) := by
  -- A text that has the printed size is shown up to the capacity.
  have hbeginning : ∀ s : Bytes, p.size = s.length →
      s.take (min p.size (capacity - 1)) = s.take (capacity - 1) := by
    intro s hs
    rw [hs, min_comm, ← List.take_eq_take_min]
  have htext : p.text = text.take (capacity - 1) := h.text.trans (hbeginning text h.size)
  constructor
  · intro hother
    refine ⟨h.size.symm.trans hother.size, ?_⟩
    rw [← htext, hother.text, hbeginning other hother.size]
  · rintro ⟨hlength, htake⟩
    have hsize : p.size = other.length := h.size.trans hlength
    exact ⟨hsize, by rw [hbeginning other hsize, htext, htake]⟩

section Forms

variable {letter other : UInt8} {time func file name : Bytes} {line : Int}

/-- The size does not depend on the letter, and it depends on the file only if there is a place. -/
private theorem length_headerForm_eq_iff :
    (headerForm letter time line func file).length =
        (headerForm other time line func name).length ↔
      line = 0 ∨ file.length = name.length := by
  by_cases hline : line = 0
  · simp [headerForm, placeForm, hline]
  · simp only [headerForm, placeForm, hline, if_false, List.length_cons, List.length_append,
      false_or]
    omega

/-- Beginnings agree if the letters do, or if nothing is left of them. -/
private theorem take_headerForm_eq_iff {count : Nat} :
    (headerForm letter time line func file).take count =
        (headerForm other time line func file).take count ↔
      letter = other ∨ count = 0 := by
  cases count with
  | zero => simp
  | succ count => simp [headerForm, List.take_succ_cons]

/-- The text of a header from a place: its letter, its time and its place. -/
private theorem text_ofPlace (root : Bytes) (level : Level) (timestamp : UInt64)
    (path : Option Bytes) (line : Int) (func : Option Bytes) (time : Bytes) :
    (Header.ofPlace root level timestamp path line func).text time =
      headerForm level.tag time.untilNul line (given func) (relativePath root (given path)) := by
  -- A path that is not given is too short to be cut.
  have hfile : (Header.ofPlace root level timestamp path line func).file =
      relativePath root (given path) := by
    cases path with
    | none => rfl
    | some path => rfl
  by_cases hline : line = 0
  · simp [Header.text, headerForm, placeForm, Header.ofPlace, hline]
  · rw [Header.text, hfile]
    simp [headerForm, placeForm, Header.ofPlace, given, hline, Bytes.ofInt_eq_signedDigits hline]

end Forms

/-- For every source directory, level, time, place and buffer, a header is printed that shows the
    letter of the level, or a zero byte for level seven, and the path, without its first bytes if it
    is longer than these. So the header is the described one exactly if the level is not seven or
    nothing fits the buffer, and the place is not known, or its path lies under the source directory
    or is too short to be cut. -/
theorem headers_printed (root : Bytes) (level : Level) (timestamp : UInt64) (path : Option Bytes)
    (line : Int) (func : Option Bytes) (time : Bytes) (capacity : Nat) :
    let printed := (Header.ofPlace root level timestamp path line func).print capacity time
    let offset := (sourceDirectory root).length
    printed.Shows capacity
      (headerForm (if level = 7 then 0 else level.letter) time.untilNul line (given func)
        (if (given path).length ≤ offset then given path else (given path).drop offset)) ∧
    (printed.Shows capacity
        (headerForm level.letter time.untilNul line (given func) (sourceName root (given path))) ↔
      (level ≠ 7 ∨ capacity ≤ 1) ∧
        (line = 0 ∨ UnderSources root (given path) ∨ (given path).length ≤ offset)) := by
  intro printed offset
  have hshows : printed.Shows capacity (headerForm level.tag time.untilNul line (given func)
      (relativePath root (given path))) := by
    rw [← text_ofPlace root level timestamp path line func time]
    exact Header.print_shows _ capacity time
  constructor
  · have hcut : relativePath root (given path) =
        if (given path).length ≤ offset then given path else (given path).drop offset := by
      split
      · next hshort => exact relativePath_of_le hshort
      · next hlong => exact relativePath_of_lt (Nat.lt_of_not_le hlong)
    rwa [Level.tag_eq, hcut] at hshows
  · rw [hshows.iff, length_headerForm_eq_iff, length_relativePath_eq_iff, and_comm]
    refine and_congr_left fun hplace => ?_
    -- The sizes agree, so the two texts differ in the letter at most.
    have hfile :
        headerForm level.tag time.untilNul line (given func) (relativePath root (given path)) =
          headerForm level.tag time.untilNul line (given func) (sourceName root (given path)) := by
      obtain rfl | hnamed := hplace
      · rfl
      · rw [relativePath_eq_sourceName hnamed]
    rw [hfile, take_headerForm_eq_iff, Level.tag_eq_letter_iff, Nat.sub_eq_zero_iff_le]

/-- Level seven shows a zero byte where a tilde should be, and a path outside of the source
    directory `/project` is shown without its first nine bytes. -/
theorem header_of_level_seven_or_foreign_path :
    let root := Bytes.ofString "/project"
    (let printed := (Header.ofPlace root 7 0 none 0 none).print 64 (.ofString "12:00")
      let described := headerForm (Level.letter 7) (.ofString "12:00") 0 [] (sourceName root [])
      printed = { size := 8, text := 0x00 :: Bytes.ofString " 12:00 " } ∧
        described = .ofString "~ 12:00 " ∧ ¬ printed.Shows 64 described) ∧
    (let path := Bytes.ofString "/other/dir/x.cpp"
      let func := Bytes.ofString "fn"
      let printed :=
        (Header.ofPlace root .info 0 (some path) 12 (some func)).print 200 (.ofString "t")
      let described := headerForm Level.info.letter (.ofString "t") 12 func (sourceName root path)
      printed = { size := 21, text := .ofString "I t (fn, r/x.cpp:12) " } ∧
        described = .ofString "I t (fn, /other/dir/x.cpp:12) " ∧
        ¬ printed.Shows 200 described) := by
  intro root
  refine ⟨⟨by decide +kernel, by decide +kernel, fun h => absurd h.text ?_⟩,
    ⟨by decide +kernel, by decide +kernel, fun h => absurd h.size ?_⟩⟩
  · -- They differ in the first byte.
    decide +kernel
  · -- They differ in the size.
    decide +kernel

end Log

end WasmLowering
