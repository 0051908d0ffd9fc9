/-
  Dispatch - words that come to a channel.

  The third byte of a word names the channel in its low bits.  A word starts
  a macro with a note, slides to a note, sets an effect, or locks the channel
  for a time; a locked channel takes nothing but another lock.

  * `notePeriods` are the periods of the notes, `detunedPeriod` is one of them
    with a fine tune;
  * `Channel.lockFor`, `Channel.begin`, `Channel.slideTo` and
    `Channel.setEffect` are what words do;
  * `Channel.receive` is a channel after a word, `Machine.dispatch` the
    machine.
-/
import PaulaReplay.Engine.Machine
import PaulaReplay.Tune.Score

namespace PaulaReplay

/-- The periods of the notes; the last sixteen say the highest ones again. -/
def notePeriods : Vector UInt16 64 := #v[
  0x6ae, 0x64e, 0x5f4, 0x59e, 0x54d, 0x501, 0x4b9, 0x475,
  0x435, 0x3f9, 0x3c0, 0x38c, 0x358, 0x32a, 0x2fc, 0x2d0,
  0x2a8, 0x282, 0x25e, 0x23b, 0x21b, 0x1fd, 0x1e0, 0x1c6,
  0x1ac, 0x194, 0x17d, 0x168, 0x154, 0x140, 0x12f, 0x11e,
  0x10e, 0x0fe, 0x0f0, 0x0e3, 0x0d6, 0x0ca, 0x0bf, 0x0b4,
  0x0aa, 0x0a0, 0x097, 0x08f, 0x087, 0x07f, 0x078, 0x071,
  0x0d6, 0x0ca, 0x0bf, 0x0b4, 0x0aa, 0x0a0, 0x097, 0x08f,
  0x087, 0x07f, 0x078, 0x071, 0x0d6, 0x0ca, 0x0bf, 0x0b4]

/-- The period of a note, of which the low six bits count. -/
def notePeriod (note : UInt8) : UInt16 := notePeriods[Fin.ofNat 64 note.toNat]

/-- The period of a note, changed by a fine tune and a detune in parts of
    256. -/
def detunedPeriod (note fineTune : UInt8) (detune : Int8) : UInt16 :=
  UInt16.ofInt (((notePeriod note).toNat * (0x100 + fineTune.toNat + detune.toInt)) >>> (8 : Nat))

namespace Channel

/-- Notes are kept off for a time. -/
def lockFor (c : Channel) (w : Word) : Channel :=
  { c with reservation.lock := w.byte1, reservation.time := w.byte3.toUInt16.toInt16 }

/-- The macro that begins at `base` starts with a note. -/
def begin (c : Channel) (dialect : Dialect) (w : Word) (base : UInt32) : Channel :=
  { c with
    pitch.fineTune := if dialect.startsAtOnce then 0 else w.byte3
    pitch.velocity := (w.byte2 >>> 4) &&& 0xf
    pitch.previousNote := c.pitch.note
    pitch.note := w.byte0
    program.held := 1
    program.yields := 0xff
    program.number := w.byte1.toUInt16
    program.base := base
    program.step := 0
    program.wait := 0
    program.keyDown := true
    program.jumps := -1
    program.running := -1
    bending := 0 }

/-- A slide to a note begins. -/
def slideTo (c : Channel) (w : Word) : Channel :=
  let note := w.byte0 &&& 0x3f
  { c with
    slide.reset := w.byte1
    slide.time := 1
    slide.period := if c.slide.rate = 0 then c.pitch.target else c.slide.period
    slide.rate := w.byte3.toUInt16.toInt16
    pitch.note := note
    pitch.target := notePeriod note }

/-- An effect is set: an envelope, a vibrato, or the release of the key. -/
def setEffect (c : Channel) (w : Word) : Channel :=
  if w.byte0 = 0xf7 then
    let reset := (w.byte2 >>> 4) + 1
    { c with envelope := { rate := w.byte1, reset, time := reset, target := w.byte3.toInt8 } }
  else if w.byte0 = 0xf6 then
    let reset := w.byte1 &&& 0xfe
    { c with vibrato :=
        { reset, time := reset >>> 1, width := w.byte3.toInt8, offset := 0, flag := true } }
  else if w.byte0 = 0xf5 then { c with program.keyDown := false }
  else c

/-- A channel after a word that came to it. -/
def receive (score : Score) (w : Word) (c : Channel) : Channel :=
  if w.byte0 = 0xfc then c.lockFor w
  else if c.reservation.lock ≠ 0 then c
  else if w.byte0 < 0xc0 then
    match score.macroStart? w.byte1 with
    | some base => c.begin score.dialect w base
    | none => c.halted
  else if w.byte0 < 0xf0 then c.slideTo w
  else c.setEffect w

end Channel

/-- The machine after a word: the channel that it names receives it. -/
def Machine.dispatch (score : Score) (w : Word) (m : Machine) : Machine :=
  let i := m.channelOf w.byte2
  m.setChannel i (m.channels[i].receive score w)

end PaulaReplay
