/-
  Track - the eight pattern streams, and one row of them.

  A track runs a pattern: it takes words until one of them makes it wait for
  the next row, or ends it.  What a word does to the tracks is the same
  whether the song is heard or only gone through; what it asks of the machine
  is a `Request`, which a machine grants and a simulation leaves.

  * `Track` is the place of a stream, `Tracks` the eight of them;
  * `Request` is what a word asks of the machine;
  * `Step` is what a word leaves: the tracks, a request, and whether the row
    of the track goes on;
  * `Tracks.execute` runs one word, `Tracks.step` fetches it first;
  * `Tracks.enter` is how a row of a track begins.
-/
import PaulaReplay.Engine.Machine
import PaulaReplay.Pattern.Instruction
import PaulaReplay.Tune.Score

namespace PaulaReplay

open Pattern

/-! ## Tracks -/

/-- The place of a pattern stream. -/
structure Track where
  /-- Where its words begin, zero while there are none. -/
  base : UInt32 := 0
  /-- The number of its pattern; from 0x90 on the track is stopped. -/
  number : UInt8 := 0
  transpose : Int8 := 0
  step : UInt16 := 0
  /-- Rows to wait before the next word. -/
  wait : UInt8 := 0
  /-- Jumps the loop in hand still makes, 0xffff outside of loops. -/
  loops : UInt16 := 0
  /-- Whether the pattern has begun a loop without end. -/
  looped : Bool := false
  /-- The place to go back to. -/
  returnBase : UInt32 := 0
  returnStep : UInt16 := 0
deriving DecidableEq, Repr, Inhabited

/-- The number of a track that is stopped. -/
def stoppedNumber : UInt8 := 0xff

/-- The number of a track that is to switch a channel off. -/
def offNumber : UInt8 := 0xfe

/-- The loop counter outside of loops. -/
def noLoops : UInt16 := 0xffff

namespace Track

/-- Whether the track plays nothing. -/
def isStopped (t : Track) : Bool := 0x90 ≤ t.number

/-- The track without its pattern. -/
def stop (t : Track) : Track := { t with number := stoppedNumber }

/-- The track at the start of a pattern. -/
def atStart (t : Track) (base : UInt32) : Track :=
  { t with base, step := 0, wait := 0, loops := noLoops }

/-- The track after a loop command that jumps to `target`, `count` times in
    all: the first time it is met the counter is only armed where it was used
    up.  The second part is `true` where the loop has no end. -/
def loop (t : Track) (count : UInt8) (target : UInt16) : Track × Bool :=
  if t.loops = 0 then ({ t with loops := noLoops }, false)
  else
    let left := (if t.loops = noLoops then count.toUInt16 else t.loops) - 1
    if left = noLoops then ({ t with loops := left, step := target, looped := true }, true)
    else ({ t with loops := left, step := target, looped := false }, false)

/-- The track in another pattern, or stopped where there is none. -/
def jump (t : Track) (base? : Option UInt32) (step : UInt16) : Track :=
  match base? with
  | some base => { t with base, step }
  | none => t.stop

/-- The track with the place to go back to. -/
def mark (t : Track) : Track := { t with returnBase := t.base, returnStep := t.step }

/-- The track back at the place remembered. -/
def back (t : Track) : Track := { t with base := t.returnBase, step := t.returnStep }

/-- The track as another one starts a pattern on it, or stopped where there is
    no such pattern. -/
def play (t : Track) (number : UInt8) (base? : Option UInt32) (transpose : Int8) : Track :=
  match base? with
  | some base => { t.atStart base with number, transpose }
  | none => t.stop

end Track

/-- The eight tracks. -/
abbrev Tracks := Octet Track

/-! ## Words -/

/-- What a word of a pattern asks of the machine. -/
inductive Request where
  /-- Dispatch a word. -/
  | dispatch (w : Word)
  /-- Slide the master volume. -/
  | fade (speed target : Int8)
  /-- Hand a number to the host. -/
  | cue (slot : UInt8) (value : UInt16)
  /-- End a pattern that is played by itself. -/
  | endPattern
  /-- Every track is stopped or in a loop without end: the song is over. -/
  | endSong
deriving DecidableEq, Repr

/-- What follows a word in its row. -/
inductive Flow where
  /-- The next word. -/
  | goesOn
  /-- Nothing: the row of the track is done. -/
  | rests
  /-- Nothing: the pattern is over, and the next track step is due. -/
  | finishes
deriving DecidableEq, Repr

/-- What a word leaves. -/
structure Step where
  tracks : Tracks
  request : Option Request
  flow : Flow
deriving DecidableEq, Repr

namespace Tracks

/-- Whether every track is stopped. -/
def allStopped (ts : Tracks) : Bool := ts.all Track.isStopped

/-- Whether every track is stopped or in a loop without end. -/
def allDone (ts : Tracks) : Bool := ts.all fun t => t.isStopped || t.looped

/-- The word of a note as it is dispatched: transposed, and for a wait without
    the number of rows. -/
def noteWord (transpose : Int8) (kind : NoteKind) (w : Word) : Word :=
  let note := (w.byte0 + transpose.toUInt8) &&& 0x3f
  match kind with
  | .plain => w.withByte0 note
  | .hold => (w.withByte3 0).withByte0 note
  | .slide => w.withByte0 (note ||| 0xc0)

/-- One note of track `i`. -/
def playNote (i : Slot) (kind : NoteKind) (w : Word) (ts : Tracks) : Step :=
  let request := some (.dispatch (noteWord ts[i].transpose kind w))
  match kind with
  | .hold => ⟨ts.modify i ({ · with wait := w.byte3 }), request, .rests⟩
  | _ => ⟨ts, request, .goesOn⟩

/-- One command of track `i`. -/
def obey (score : Score) (i : Slot) (c : Command) (w : Word) (ts : Tracks) : Step :=
  match c with
  | .finish => ⟨ts.modify i Track.stop, none, .finishes⟩
  | .loop =>
    let (t, endless) := ts[i].loop w.byte1 w.low
    let ts := ts.set i t
    ⟨ts, if endless && allDone ts then some .endSong else none, .goesOn⟩
  | .jump => ⟨ts.modify i (·.jump (score.pattern? w.byte1) w.low), none, .goesOn⟩
  | .call => ⟨ts.modify i (·.mark.jump (score.pattern? w.byte1) w.low), none, .goesOn⟩
  | .back => ⟨ts.modify i Track.back, none, .goesOn⟩
  | .wait => ⟨ts.modify i ({ · with wait := w.byte1 }), none, .rests⟩
  | .stop => ⟨ts.modify i Track.stop, none, .rests⟩
  | .stopCustom => ⟨ts.modify i Track.stop, some .endPattern, .rests⟩
  | .keyUp | .vibrato | .envelope | .lock => ⟨ts, some (.dispatch w), .goesOn⟩
  | .fade => ⟨ts, some (.fade w.byte1.toInt8 w.byte3.toInt8), .goesOn⟩
  | .cue => ⟨ts, some (.cue w.byte1 w.low), .goesOn⟩
  | .play =>
    ⟨ts.modify (Slot.ofNat w.byte2.toNat)
      (·.play w.byte1 (score.pattern? w.byte1) w.byte3.toInt8), none, .goesOn⟩
  | .rest => ⟨ts, none, .goesOn⟩

/-- One word of track `i`. -/
def execute (score : Score) (i : Slot) (w : Word) (ts : Tracks) : Step :=
  match Instruction.ofByte w.byte0 with
  | .note kind => playNote i kind w ts
  | .command c => obey score i c w ts

/-- The next word of track `i`: it is fetched, and the track stands behind it
    as it is run.  A track that runs past the music data stops. -/
def step (score : Score) (i : Slot) (ts : Tracks) : Step :=
  match score.word? ts[i].base ts[i].step with
  | none => ⟨ts.modify i Track.stop, none, .rests⟩
  | some w => execute score i w (ts.modify i fun t => { t with step := t.step + 1 })

/-! ## Rows -/

/-- How many words the row of a track may run. -/
def rowBound : Nat := 0x4000

/-- How the row of a track begins. -/
inductive Entry where
  /-- The track plays nothing in this row. -/
  | idle (ts : Tracks)
  /-- The track stops, and switches a channel off. -/
  | switchesOff (ts : Tracks) (channel : Nat)
  /-- The track takes its next words. -/
  | runs (ts : Tracks)

/-- How the row of track `i` begins: its wait counts down. -/
def enter (i : Slot) (ts : Tracks) : Entry :=
  let t := ts[i]
  if t.number = offNumber then
    .switchesOff (ts.modify i Track.stop) t.transpose.toUInt8.toNat
  else if t.base = 0 ∨ t.isStopped then .idle ts
  else
    let ts := ts.modify i ({ · with wait := t.wait - 1 })
    if t.wait ≠ 0 then .idle ts else .runs ts

/-- At most so many words of track `i`, without a machine: `true` where its
    pattern is over or the song is. -/
def simulateWords (score : Score) (i : Slot) : Nat → Tracks → Tracks × Bool
  | 0, ts => (ts.modify i Track.stop, false)
  | n + 1, ts =>
    let s := step score i ts
    if s.request = some .endSong then (s.tracks, true)
    else match s.flow with
      | .goesOn => simulateWords score i n s.tracks
      | .rests => (s.tracks, false)
      | .finishes => (s.tracks, true)

/-- The row of track `i`, without a machine: `true` where its pattern is over
    or the song is. -/
def simulateRow (score : Score) (i : Slot) (ts : Tracks) : Tracks × Bool :=
  match enter i ts with
  | .idle ts | .switchesOff ts _ => (ts, false)
  | .runs ts => simulateWords score i rowBound ts

end Tracks

end PaulaReplay
