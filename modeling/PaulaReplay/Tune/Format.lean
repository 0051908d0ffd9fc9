/-
  Format - which kind of tune a file holds.

  A tune is either a music file, to which a sample file belongs, or a
  container: a header, the music and the samples in one file.  The music
  begins with one of a few marks.  The kind for seven voices is told from the
  one for four by its sub-songs: it is the one in which the command steps at
  the start of some sub-song switch the time share on.

  * `Format` is the kind, `Container` the header of a container;
  * `probeMusic` tells the kind of music from its marks;
  * `Walk` follows the command steps at the start of a sub-song, and
    `hasTimeShare` tries the sub-songs in turn;
  * `probe` tells the kind of a whole file.
-/
import PaulaReplay.Bytes
import PaulaReplay.Error

namespace PaulaReplay

open Bytes

/-! ## Kinds -/

/-- The kinds of tune. -/
inductive Format where
  /-- The old kind, without a song mark. -/
  | early
  /-- The kind for four voices. -/
  | professional
  /-- The kind for seven voices. -/
  | sevenVoices
deriving DecidableEq, Repr

/-- How many channels a kind of tune announces. -/
def Format.channels : Format → Nat
  | sevenVoices => 7
  | _ => 4

/-- The header of a container. -/
structure Container where
  headerSize : UInt32
  kind : UInt8
  version : UInt8
  musicSize : UInt32
  sampleSize : UInt32
deriving DecidableEq, Repr

/-- What is known of a file before it is loaded. -/
structure Probe where
  format : Format
  container? : Option Container
deriving DecidableEq, Repr

/-- Four characters as the 32-bit number they make in a file. -/
def mark (a b c d : Char) : UInt32 :=
  a.val <<< 24 ||| b.val <<< 16 ||| c.val <<< 8 ||| d.val

/-- Whether a file is a container. -/
def isContainer (b : ByteArray) : Bool :=
  u32? b 0 == some (mark 'T' 'F' 'H' 'D')

/-- The header of a container, if the file is one. -/
def container? (b : ByteArray) : Except Error (Option Container) := do
  if isContainer b then
    let headerSize ← orShortRead (u32? b 4)
    let kind ← orShortRead (u8? b 8)
    let version ← orShortRead (u8? b 9)
    let musicSize ← orShortRead (u32? b 10)
    let sampleSize ← orShortRead (u32? b 14)
    return some { headerSize, kind, version, musicSize, sampleSize }
  else
    return none

/-! ## Time share -/

/-- The first number of a track step that is a command. -/
def commandMark : UInt16 := 0xeffe

/-- Where in the music header the song starts are. -/
def songStartOffset : Nat := 0x100

/-- Where in the music header the places of the tables are. -/
def tableOffset : Nat := 0x1d0

/-- A walk over the command steps at the start of a sub-song: the step it has
    come to, the jumps the loop in hand still has to make (negative before a
    loop, and `0` where none was met), and whether the time share is on. -/
structure Walk where
  position : Nat
  jumps : Int
  timeShare : Bool
deriving DecidableEq, Repr

namespace Walk

/-- The walk after a loop command to step `target`, to be made `count` times.
    The first loop met is passed over and only arms the counter. -/
def loop (w : Walk) (target count : Nat) : Walk :=
  if w.jumps = 0 then { w with jumps := -1, position := w.position + 1 }
  else if w.jumps < 0 then { w with jumps := (count : Int) - 1, position := target }
  else { w with jumps := w.jumps - 1, position := target }

/-- One step of a walk over the track steps at `base`: `none` in the second
    place where the walk ends. -/
def step (b : ByteArray) (base : Nat) (w : Walk) : Walk × Bool :=
  let o := base + w.position * 16
  if u16? b o ≠ some commandMark then (w, false)
  else match ((u16? b (o + 2)).getD 0xffff).toNat with
    | 1 => (w.loop ((u16? b (o + 4)).getD 0).toNat ((u16? b (o + 6)).getD 0).toNat, true)
    | 2 | 4 => ({ w with position := w.position + 1 }, true)
    | 3 => ({ w with position := w.position + 1, timeShare := true }, true)
    | _ => ({ w with timeShare := false }, false)

/-- At most so many steps of a walk. -/
def run (b : ByteArray) (base : Nat) : Nat → Walk → Walk
  | 0, w => w
  | n + 1, w => match w.step b base with
    | (w, true) => run b base n w
    | (w, false) => w

end Walk

/-- How many command steps are walked at the start of a sub-song. -/
def walkBound : Nat := 0x10000

/-- Whether one of the sub-songs from `i` on, of `n`, switches the time share
    on; `jumps` is the loop counter that the walks before have left. -/
def anyTimeShare (b : ByteArray) (start base : Nat) : (n i : Nat) → (jumps : Int) → Bool
  | 0, _, _ => false
  | n + 1, i, jumps =>
    match u16? b (start + songStartOffset + i * 2) with
    | none => false
    | some position =>
      if position = 0x1ff then false
      else
        let w := Walk.run b base walkBound ⟨position.toNat, jumps, false⟩
        if w.timeShare then true else anyTimeShare b start base n (i + 1) w.jumps

/-- Whether one of the first 31 sub-songs switches the time share on. -/
def hasTimeShare (b : ByteArray) (start : Nat) : Bool :=
  match u32? b (start + tableOffset) with
  | none => false
  | some offset =>
    anyTimeShare b start (start + if offset = 0 then 0x800 else offset.toNat) 31 0 0

/-! ## Probing -/

/-- Whether three fields are the marks of the old kind: no song mark follows
    the first one. -/
def marksEarly (mark1 mark2 : UInt32) (mark3 : UInt8) : Bool :=
  mark1 == mark 'T' 'F' 'M' 'X' &&
    (mark2 &&& 0x00ffffff != mark '\x00' 'S' 'O' 'N' && mark3 != 'G'.toUInt8)

/-- Whether three fields are the marks of a song. -/
def marksSong (mark1 mark2 : UInt32) (mark3 : UInt8) : Bool :=
  (mark1 == mark 'T' 'F' 'M' 'X' &&
    (mark2 == mark '-' 'S' 'O' 'N' || mark2 == mark '_' 'S' 'O' 'N') && mark3 == 'G'.toUInt8) ||
  (mark1 == mark 't' 'f' 'm' 'x' && mark2 == mark 's' 'o' 'n' 'g')

/-- The kind of the music at `start`. -/
def probeMusic (b : ByteArray) (start : Nat) : Except Error Format := do
  let mark1 ← orShortRead (u32? b start)
  let mark2 ← orShortRead (u32? b (start + 4))
  let mark3 ← orShortRead (u8? b (start + 8))
  if marksEarly mark1 mark2 mark3 then return .early
  else if ¬ marksSong mark1 mark2 mark3 then throw (.format .badMagic)
  else if hasTimeShare b start then return .sevenVoices
  else return .professional

/-- The least size of a file that holds a tune. -/
def leastSize : Nat := 512

/-- The kind that a container's header names, `none` where it leaves the
    question to the music. -/
def Container.format? (c : Container) : Except Error (Option Format) :=
  if c.kind &&& 0x80 ≠ 0 ∨ c.kind &&& 0x7f = 0 then .ok none
  else match (c.kind &&& 0x7f).toNat with
    | 1 => .ok (some .early)
    | 2 => .ok (some .professional)
    | 3 => .ok (some .sevenVoices)
    | _ => .error (.format (.unknownKind (c.kind &&& 0x7f)))

/-- The kind of a file. -/
def probe (b : ByteArray) : Except Error Probe := do
  if b.size < leastSize then throw (.format (.tooShort b.size))
  match ← container? b with
  | none => return ⟨← probeMusic b 0, none⟩
  | some c => match ← c.format? with
    | some format => return ⟨format, some c⟩
    | none => return ⟨← probeMusic b c.headerSize.toNat, some c⟩

end PaulaReplay
