/-
  Score - the contents of a tune.

  The music data holds three tables and the streams of words that two of them
  point into.  A track step is eight numbers: for each track a pattern and a
  transposition, or a command with its arguments.  The pattern and macro
  pointers are offsets into the music data.

  * `TrackStep` and `StepCommand` are the track steps and what they command;
  * `SubSong` is an entry of the song table;
  * `Score` is everything that a replay reads, `trackStep?`, `pattern?`,
    `macroStart?`, `word?` and `subSong?` are its look-ups;
  * `Score.songCount` is the number of sub-songs;
  * `Tune` is a score with what the file says about itself.
-/
import PaulaReplay.Bytes
import PaulaReplay.Octet
import PaulaReplay.Text.Blank
import PaulaReplay.Word
import PaulaReplay.Sound.Bank
import PaulaReplay.Tune.Dialect
import PaulaReplay.Tune.Format

namespace PaulaReplay

open Bytes

/-! ## Track steps -/

/-- One record of the track step table. -/
structure TrackStep where
  fields : Octet UInt16
deriving DecidableEq, Repr

/-- What a track step commands. -/
inductive StepCommand where
  /-- The song is over. -/
  | stop
  /-- Go on at a step, so many times. -/
  | loop (target count : UInt16)
  /-- Set the ticks of a row, and perhaps the tempo. -/
  | speed (ticks tempo : UInt16)
  /-- Switch seven voices on, and perhaps set the tempo. -/
  | timeShare (tempo : UInt16)
  /-- Slide the master volume. -/
  | fade (speed target : UInt16)
  /-- A command without effect. -/
  | idle
deriving DecidableEq, Repr

namespace TrackStep

/-- Whether the step is a command. -/
def isCommand (s : TrackStep) : Bool := s.fields[Slot.ofNat 0] == commandMark

/-- The number of the command. -/
def number (s : TrackStep) : UInt16 := s.fields[Slot.ofNat 1]

/-- The two arguments of the command. -/
def argument (s : TrackStep) : Fin 2 → UInt16
  | 0 => s.fields[Slot.ofNat 2]
  | 1 => s.fields[Slot.ofNat 3]

/-- The command of the step, `none` for a step that plays patterns. -/
def command? (s : TrackStep) : Option StepCommand :=
  if s.isCommand then
    match s.number.toNat with
    | 0 => some .stop
    | 1 => some (.loop (s.argument 0) (s.argument 1))
    | 2 => some (.speed (s.argument 0) (s.argument 1))
    | 3 => some (.timeShare (s.argument 1))
    | 4 => some (.fade (s.argument 0) (s.argument 1))
    | _ => some .idle
  else none

/-- The pattern of a track: the high byte of its field. -/
def patternOf (s : TrackStep) (i : Slot) : UInt8 := (s.fields[i] >>> 8).toUInt8

/-- The transposition of a track: the low byte of its field. -/
def transposeOf (s : TrackStep) (i : Slot) : Int8 := s.fields[i].toUInt8.toInt8

end TrackStep

/-- The track step at an offset of the music data. -/
def trackStepAt? (music : ByteArray) (o : Nat) : Option TrackStep := do
  let a ← u16? music o
  let b ← u16? music (o + 2)
  let c ← u16? music (o + 4)
  let d ← u16? music (o + 6)
  let e ← u16? music (o + 8)
  let f ← u16? music (o + 10)
  let g ← u16? music (o + 12)
  let h ← u16? music (o + 14)
  return ⟨⟨#v[a, b, c, d, e, f, g, h]⟩⟩

/-! ## Sub-songs -/

/-- A sub-song: its first and last position, and its tempo. -/
structure SubSong where
  first : UInt16
  last : UInt16
  tempo : UInt16
deriving DecidableEq, Repr, Inhabited

/-- The position that stands for no position in the song table. -/
def noPosition : UInt16 := 0x1ff

/-- Whether an entry ends the song table: it holds no position, its first
    position is no track step, or it and the next first position are zero. -/
def SubSong.isLast (s : SubSong) (steps : Nat) (next : UInt16) : Bool :=
  s.first == noPosition || s.last == noPosition || steps ≤ s.first.toNat ||
    (s.first == s.last && s.first == 0 && next == 0)

/-- The index of the entry at which reading the song table stops, counted
    from `i`: the first one that ends the table, the one that begins at zero
    when only `zeros` more may, or the very last one. -/
def stopIndex (steps : Nat) : (zeros i : Nat) → List SubSong → Nat
  | _, i, [] => i
  | zeros, i, s :: rest =>
    let left := if s.first = 0 then zeros - 1 else zeros
    let next := (rest.head?.map SubSong.first).getD 0
    if s.isLast steps next ∨ left = 0 ∨ rest = [] then i
    else stopIndex steps left (i + 1) rest

/-! ## The score -/

/-- Everything that a replay reads. -/
structure Score where
  /-- The six lines of text of the file. -/
  comment : List String
  songs : Vector SubSong 32
  /-- Where in the music data the three tables begin. -/
  trackStart : Nat
  patternStart : Nat
  macroStart : Nat
  trackSteps : Array TrackStep
  patterns : Array UInt32
  macros : Array UInt32
  /-- The size of the music data, without its ending. -/
  musicSize : Nat
  dialect : Dialect
  bank : Bank
  /-- The music data, filled up to whole words and ended by a word of ones. -/
  music : ByteArray

namespace Score

/-- The track step at a position.  Positions past the table are read from the
    music data, since songs may run into it. -/
def trackStep? (s : Score) (position : UInt16) : Option TrackStep :=
  match s.trackSteps[position.toNat]? with
  | some step => some step
  | none => trackStepAt? s.music (s.trackStart + position.toNat * 16)

/-- Where the words of a pattern begin. -/
def pattern? (s : Score) (n : UInt8) : Option UInt32 := s.patterns[n.toNat]?

/-- Where the words of a macro begin. -/
def macroStart? (s : Score) (n : UInt8) : Option UInt32 := s.macros[n.toNat]?

/-- Word `step` of the stream that begins at `o`. -/
def word? (s : Score) (o : UInt32) (step : UInt16) : Option Word :=
  (u32? s.music (o.toNat + step.toNat * 4)).map Word.mk

/-- Entry `n` of the song table. -/
def subSong? (s : Score) (n : Nat) : Option SubSong := s.songs[n]?

/-- The number of sub-songs: the entries before the table ends, but at least
    one. -/
def songCount (s : Score) : Nat :=
  max 1 (stopIndex s.trackSteps.size 2 0 s.songs.toList)

end Score

/-! ## Tunes -/

/-- A score with what its file says about itself. -/
structure Tune where
  format : Format
  description : String
  creator : String
  score : Score

namespace Tune

/-- The number of channels that the kind of tune announces. -/
def channels (t : Tune) : Nat := t.format.channels

/-- The first line of the comment, without blanks around it. -/
def title (t : Tune) : String :=
  match t.score.comment with
  | [] => ""
  | line :: _ => Blank.trim line

/-- One line about the tune. -/
def summary (t : Tune) : String :=
  t.description ++ " (" ++ Column.decimal 1 t.channels ++ " channels, " ++
    Column.decimal 1 t.score.trackSteps.size ++ " track steps, " ++
    Column.decimal 1 t.score.patterns.size ++ " patterns, " ++
    Column.decimal 1 t.score.macros.size ++ " macros)"

end Tune

end PaulaReplay
