/-
  Loader - reading a tune from its file.

  The header of the music comes first: a comment of six lines, the song
  table, and where the tables of track steps, patterns and macros begin.
  Then comes the music data, in which a table of pointers ends at the first
  one that is not valid, and the track steps end where the first pattern
  begins.

  * `commentLines`, `songTable`, `tableBase` read the header;
  * `musicData` cuts out the music data and gives it an ending;
  * `pointerTable` and `trackSteps` decode the tables;
  * `load` reads a whole tune; of two things that are wrong it reports the
    one that it meets first.
-/
import PaulaReplay.Text.Utf8
import PaulaReplay.Tune.Score

namespace PaulaReplay

open Bytes

/-! ## The header -/

/-- The size of the header of the music. -/
def headerSize : Nat := 0x200

/-- The text of `n` bytes at `i`, a zero byte read as a blank. -/
def text? (b : ByteArray) (i n : Nat) : Option String :=
  (slice? b i n).map fun s =>
    String.ofList ((Utf8.decode s).toList.map fun c => if c = '\x00' then ' ' else c)

/-- The six lines of the comment of the music at `start`. -/
def commentLines (b : ByteArray) (start : Nat) : Except Error (List String) :=
  (List.range 6).mapM fun i =>
    (orShortRead (text? b (start + 16 + i * 40) 40)).map Blank.trimEnd

/-- Entry `i` of the song table of the music at `start`. -/
def songEntry (b : ByteArray) (start : Nat) (i : Fin 32) : Except Error SubSong := do
  let first ← orShortRead (u16? b (start + songStartOffset + i.val * 2))
  let last ← orShortRead (u16? b (start + 0x140 + i.val * 2))
  let tempo ← orShortRead (u16? b (start + 0x180 + i.val * 2))
  return { first, last, tempo }

/-- The song table of the music at `start`. -/
def songTable (b : ByteArray) (start : Nat) : Except Error (Vector SubSong 32) :=
  (Vector.finRange 32).mapM (songEntry b start)

/-- The offset into the music data of a table whose header entry is `v`: zero
    stands for the usual place. -/
def tableBase (v : UInt32) (usual : Nat) : Except Error Nat :=
  if v = 0 then .ok usual
  else if v.toNat < headerSize then .error (.load (.invalidBase v))
  else .ok (v.toNat - headerSize)

/-! ## The music data -/

/-- The largest size of the music data. -/
def maxMusicSize : Nat := 0xfffc

/-- The music data of `size` bytes from `start` on, as far as the file goes
    and then zero, filled up to whole words and ended by a word of ones. -/
def musicData (b : ByteArray) (start size : Nat) : ByteArray :=
  let body := b.extract start (min (start + size) b.size)
  let filled := (size + 3) / 4 * 4
  body ++ ⟨Array.replicate (filled - body.size) 0⟩ ++ ⟨#[0xff, 0xff, 0xff, 0xff]⟩

/-- The offset into the music data that a pointer of a table stands for, if
    the pointer is valid: not below the music data, on a whole word, and not
    past its end. -/
def pointer? (musicSize : Nat) (v : UInt32) : Option UInt32 :=
  let o := v.toNat - headerSize
  if headerSize ≤ v.toNat ∧ o % 4 = 0 ∧ o ≤ musicSize then some (v - 0x200)
  else none

/-- The valid pointers at `base`, at most so many, up to the first one that is
    not. -/
def pointerList (music : ByteArray) (musicSize : Nat) : (n base : Nat) → List UInt32
  | 0, _ => []
  | n + 1, base => match (u32? music base).bind (pointer? musicSize) with
    | some p => p :: pointerList music musicSize n (base + 4)
    | none => []

/-- The table of pointers at `base`. -/
def pointerTable (music : ByteArray) (musicSize base limit : Nat) : Array UInt32 :=
  (pointerList music musicSize limit base).toArray

/-- The largest number of macros, and of patterns. -/
def maxPointers : Nat := 128

/-- How many patterns fit between their table and the one of the macros. -/
def patternLimit (patternStart macroStart : Nat) : Nat :=
  min ((macroStart - patternStart) / 4) maxPointers

/-- The `n` track steps at `base`. -/
def trackSteps (music : ByteArray) (base n : Nat) : Except Error (Array TrackStep) :=
  (Array.range n).mapM fun i =>
    match trackStepAt? music (base + i * 16) with
    | some step => .ok step
    | none => .error (.load .stepsBeyondMusic)

/-! ## The samples -/

/-- The samples of a container, or those of the sample file. -/
def sampleBank (b : ByteArray) (container? : Option Container) (samples? : Option ByteArray) :
    Except Error Bank :=
  match container? with
  | some c =>
    match slice? b (c.headerSize.toNat + c.musicSize.toNat) c.sampleSize.toNat with
    | some s => .ok ⟨s⟩
    | none => .error (.load .samplesOutside)
  | none =>
    match samples? with
    | some s => .ok ⟨s⟩
    | none => .error (.load .missingSamples)

/-! ## The tune -/

/-- The name of a kind of tune. -/
def Format.description : Format → String
  | early => "TFMX 1.5"
  | professional => "TFMX Professional"
  | sevenVoices => "TFMX 7 voices"

/-- The description of a tune: its kind, and how many files hold it. -/
def Probe.description (p : Probe) : String :=
  p.format.description ++
    (match p.container? with
      | some _ => " (single file)"
      | none => " (two files)")

/-- The score of a file whose kind is known. -/
def loadScore (b : ByteArray) (samples? : Option ByteArray) (p : Probe) : Except Error Score := do
  let start := (p.container?.map fun c => c.headerSize.toNat).getD 0
  if b.size < start + headerSize then throw (.load .truncatedHeader)
  let comment ← commentLines b start
  let songs ← songTable b start
  let trackStart ← tableBase (← orShortRead (u32? b (start + tableOffset))) 0x600
  let patternStart ← tableBase (← orShortRead (u32? b (start + tableOffset + 4))) 0x200
  let macroStart ← tableBase (← orShortRead (u32? b (start + tableOffset + 8))) 0x400
  let musicSize := match p.container? with
    | some c => c.musicSize.toNat
    | none => b.size - (start + headerSize)
  if maxMusicSize < musicSize then throw (.load (.musicTooLarge musicSize))
  let music := musicData b (start + headerSize) musicSize
  let macros := pointerTable music musicSize macroStart maxPointers
  let patterns := pointerTable music musicSize patternStart (patternLimit patternStart macroStart)
  match patterns[0]? with
  | none => throw (.load .noPatterns)
  | some first =>
    if first.toNat < trackStart then throw (.load (.patternsFirst first.toNat trackStart))
    let steps ← trackSteps music trackStart ((first.toNat - trackStart) / 16)
    let bank ← sampleBank b p.container? samples?
    return { comment, songs, trackStart, patternStart, macroStart, trackSteps := steps, patterns,
             macros, musicSize, dialect := Dialect.ofMusic (music.extract 0 musicSize), bank,
             music }

/-- The tune of a file, with the sample file that belongs to it. -/
def load (b : ByteArray) (samples? : Option ByteArray) : Except Error Tune := do
  let p ← probe b
  let score ← loadScore b samples? p
  return { format := p.format, description := p.description, creator := "Chris Huelsbeck", score }

end PaulaReplay
