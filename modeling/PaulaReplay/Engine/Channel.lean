/-
  Channel - the registers of one channel.

  A channel runs a macro, a little program that works the voice of the
  channel, and between the steps of the macro it bends the pitch, the volume
  and the place in the bank.

  * `Program` is where the macro stands;
  * `Pitch`, `Slide`, `Vibrato`, `Envelope`, `Sweep`, `Region` are the parts
    of the sound;
  * `Reservation` is a sound effect of the host, or a lock, on the channel;
  * `Channel` joins them, `Lane` is a channel with its voice.
-/
import PaulaReplay.Sound.Voice

namespace PaulaReplay

/-- Where the macro of a channel stands. -/
structure Program where
  /-- Where its words begin, and the next one. -/
  base : UInt32 := 0
  step : UInt16 := 0
  /-- Ticks to wait before the next word. -/
  wait : UInt16 := 0
  number : UInt16 := 0
  /-- Nonzero while the macro runs. -/
  running : Int8 := 0
  /-- Nonzero where a wait, or a note, ends the turn of the macro. -/
  yields : UInt8 := 0
  /-- How often a wait that holds just once was met. -/
  held : UInt8 := 0
  keyDown : Bool := false
  /-- Jumps the loop in hand still makes, negative outside of loops. -/
  jumps : Int16 := 0
  /-- The place to go back to. -/
  returnBase : UInt16 := 0
  returnStep : UInt16 := 0
deriving DecidableEq, Repr, Inhabited

/-- The note of a channel and the period it is played at. -/
structure Pitch where
  note : UInt8 := 0
  previousNote : UInt8 := 0
  fineTune : UInt8 := 0
  velocity : UInt8 := 0
  /-- The period being played, and the one of the note. -/
  period : UInt16 := 0
  target : UInt16 := 0
deriving DecidableEq, Repr, Inhabited

/-- A slide from one period to another. -/
structure Slide where
  period : UInt16 := 0
  /-- Zero while there is no slide. -/
  rate : Int16 := 0
  time : UInt8 := 0
  reset : UInt8 := 0
deriving DecidableEq, Repr, Inhabited

/-- A vibrato; there is none while `reset` is zero. -/
structure Vibrato where
  reset : UInt8 := 0
  time : UInt8 := 0
  width : Int8 := 0
  offset : Int16 := 0
  flag : Bool := false
deriving DecidableEq, Repr, Inhabited

/-- A slide of the volume; there is none while `reset` is zero. -/
structure Envelope where
  rate : UInt8 := 0
  reset : UInt8 := 0
  time : UInt8 := 0
  target : Int8 := 0
deriving DecidableEq, Repr, Inhabited

/-- A movement of the start of the sample, to and fro; there is none while
    `time` is zero. -/
structure Sweep where
  step : Int32 := 0
  time : UInt8 := 0
  reset : UInt8 := 0
deriving DecidableEq, Repr, Inhabited

/-- The region of the bank that the voice is to play next: where it begins and
    its length in words. -/
structure Region where
  address : UInt32 := 0
  savedAddress : UInt32 := 0
  savedLength : UInt16 := 0
  length : UInt16 := 0
deriving DecidableEq, Repr, Inhabited

/-- What keeps the notes of the tune from a channel: a lock for a time, or a
    sound effect of the host. -/
structure Reservation where
  /-- Nonzero while notes are kept off. -/
  lock : UInt8 := 0
  priority : UInt32 := 0
  /-- The word of a sound effect that waits for the next tick, or zero. -/
  code : UInt32 := 0
  time : Int16 := 0
deriving DecidableEq, Repr, Inhabited

/-- The registers of a channel. -/
structure Channel where
  program : Program := {}
  pitch : Pitch := {}
  slide : Slide := {}
  vibrato : Vibrato := {}
  envelope : Envelope := {}
  sweep : Sweep := {}
  region : Region := {}
  reservation : Reservation := {}
  /-- Negative while the sound is left alone, zero for one tick more, then
      positive. -/
  bending : Int8 := 0
  volume : Int8 := 0
deriving DecidableEq, Repr, Inhabited

/-- A channel with the voice it works. -/
structure Lane where
  channel : Channel
  voice : Voice
deriving DecidableEq, Repr, Inhabited

namespace Channel

/-- Without vibrato, envelope, sweep and slide. -/
def unbent (c : Channel) : Channel :=
  { c with envelope.reset := 0, vibrato.reset := 0, sweep.time := 0, slide.rate := 0 }

/-- With its macro stopped. -/
def halted (c : Channel) : Channel := { c with program.running := 0 }

end Channel

/-- The length of a region in samples.  A length of zero stands for more than
    16 bits can say, and so does any of 0x8000 words or above. -/
def regionSamples (words : UInt16) : UInt16 := words <<< 1

end PaulaReplay
