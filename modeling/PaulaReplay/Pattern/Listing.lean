/-
  Listing - pattern words written out for a reader.

  A note is its pitch, the way it is played and three bytes; a command is its
  name, one byte and a 16-bit number.  Numbers are hexadecimal.

  * `pitch` names the twelve notes, with the octave after them;
  * `Command.label` and `NoteKind.label` are the names;
  * `line` is the text of a word.
-/
import PaulaReplay.Text.Column
import PaulaReplay.Pattern.Instruction

namespace PaulaReplay.Pattern

/-- The twelve notes of an octave. -/
def noteNames : Vector String 12 :=
  #v["C ", "C#", "D ", "D#", "E ", "F ", "F#", "G ", "G#", "A ", "A#", "B "]

/-- The pitch of a note number. -/
def pitch (note : Nat) : String :=
  noteNames[Fin.ofNat 12 note] ++ Column.decimal 1 (note / 12)

/-- The name of a way of playing. -/
def NoteKind.label : NoteKind → String
  | plain => "note"
  | hold => "wait"
  | slide => "port"

/-- The name of a command, four characters wide. -/
def Command.label : Command → String
  | finish => "End "
  | loop => "Loop"
  | jump => "Cont"
  | wait => "Wait"
  | stop => "Stop"
  | keyUp => "Kup^"
  | vibrato => "Vibr"
  | envelope => "Enve"
  | call => "GsPt"
  | back => "RoPt"
  | fade => "Fade"
  | play => "PPat"
  | lock => "Lock"
  | cue => "Cue "
  | stopCustom => "StCu"
  | rest => "NOP "

/-- A byte as two hexadecimal digits. -/
def hexByte (b : UInt8) : String := Column.hex 2 b.toNat

/-- The text of a word. -/
def line (w : Word) : String :=
  match Instruction.ofByte w.byte0 with
  | .note kind =>
    pitch (w.byte0 &&& 0x3f).toNat ++ " " ++ kind.label ++ " " ++ hexByte w.byte1 ++ " " ++
      hexByte w.byte2 ++ " " ++ hexByte w.byte3
  | .command c => c.label ++ " " ++ hexByte w.byte1 ++ " " ++ Column.hex 4 w.low.toNat

end PaulaReplay.Pattern
