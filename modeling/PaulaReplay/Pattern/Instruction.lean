/-
  Instruction - what the first byte of a pattern word asks for.

  A first byte below 0xf0 is a note: its low six bits are the pitch, its high
  two bits say how the note is played.  From 0xf0 on it is a command, named
  by its low four bits.

  * `NoteKind` and `Command` are the two families;
  * `Instruction.ofByte` reads a first byte.
-/
import PaulaReplay.Word

namespace PaulaReplay.Pattern

/-- How a note is played. -/
inductive NoteKind where
  /-- The note starts, and the next instruction follows at once. -/
  | plain
  /-- The note starts, and the track waits as long as the last byte says. -/
  | hold
  /-- The channel slides from its pitch to the note. -/
  | slide
deriving DecidableEq, Repr

/-- The commands of a pattern, in the order of their numbers. -/
inductive Command where
  /-- The pattern is over and the next track step is due. -/
  | finish
  /-- Jump back a number of times. -/
  | loop
  /-- Go on in another pattern. -/
  | jump
  /-- Wait a number of rows. -/
  | wait
  /-- The track stops. -/
  | stop
  /-- Release the key of a channel. -/
  | keyUp
  /-- Set the vibrato of a channel. -/
  | vibrato
  /-- Set the envelope of a channel. -/
  | envelope
  /-- Go on in another pattern and remember the place. -/
  | call
  /-- Go back to the place remembered. -/
  | back
  /-- Slide the master volume. -/
  | fade
  /-- Start a pattern on a track. -/
  | play
  /-- Keep a channel from notes for a time. -/
  | lock
  /-- Hand a number to the host. -/
  | cue
  /-- The track stops, and so does a pattern played by itself. -/
  | stopCustom
  /-- Nothing. -/
  | rest
deriving DecidableEq, Repr

/-- The command of a number, of which the low four bits count. -/
def Command.ofByte (t : UInt8) : Command :=
  match (t &&& 0x0f).toNat with
  | 0 => finish
  | 1 => loop
  | 2 => jump
  | 3 => wait
  | 4 => stop
  | 5 => keyUp
  | 6 => vibrato
  | 7 => envelope
  | 8 => call
  | 9 => back
  | 10 => fade
  | 11 => play
  | 12 => lock
  | 13 => cue
  | 14 => stopCustom
  | _ => rest

/-- The way of playing that the high two bits of a note ask for. -/
def NoteKind.ofByte (t : UInt8) : NoteKind :=
  if t &&& 0xc0 = 0x80 then hold
  else if t &&& 0xc0 = 0xc0 then slide
  else plain

/-- What a pattern word asks for. -/
inductive Instruction where
  | note (kind : NoteKind)
  | command (c : Command)
deriving DecidableEq, Repr

/-- The instruction of a first byte. -/
def Instruction.ofByte (t : UInt8) : Instruction :=
  if t < 0xf0 then note (.ofByte t) else command (.ofByte t)

end PaulaReplay.Pattern
