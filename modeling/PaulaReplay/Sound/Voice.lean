/-
  Voice - one voice of the sound chip, and the frames it plays.

  A voice reads a region of the bank.  Its phase counts how far it has come
  into the region, with 14 bits of fraction; each frame moves the phase on by
  the step, and gives the sample under it.  Where the phase passes the end of
  the region, the voice goes on in the region set up last, so that a sound
  may begin with one region and then repeat another.

  * `Voice` holds the registers, `LoopMode` what the end of a region means;
  * `Voice.audible` says when a voice plays at all, `Voice.amplitude` how
    loud the sample under its phase is;
  * `Voice.frame` is one frame: `Frame.plays` with the voice after it, or
    `Frame.runsOut` where no region is left;
  * `Voice.render` plays a number of frames; a voice that runs out leaves the
    frames after it as they are.
-/
import PaulaReplay.Sound.Bank

namespace PaulaReplay

/-- What a voice does at the end of its region. -/
inductive LoopMode where
  /-- It plays on. -/
  | normal
  /-- It plays on, and at the end of so many more regions the channel's macro
      is told to resume. -/
  | armOnCount (n : UInt16)
deriving DecidableEq, Repr, Inhabited

/-- The registers of a voice. -/
structure Voice where
  /-- Bit 0: switched on.  Bit 1: playing.  Bit 2: to be switched off after
      the frames of this tick. -/
  mode : UInt8 := 0
  /-- The region to play next: where it begins and how long it is. -/
  nextStart : Int32 := 0
  nextLength : UInt16 := 0
  /-- The region being played. -/
  start : Int32 := 0
  length : UInt16 := 0
  phase : UInt32 := 0
  step : UInt32 := 0
  volume : UInt8 := 0
  loopMode : LoopMode := .normal
deriving DecidableEq, Repr, Inhabited

/-- The bits of fraction in a phase. -/
def phaseShift : UInt32 := 14

/-- The phase at the end of a region; one below this is too short to play. -/
def leastLimit : UInt32 := 0x10000

/-- The greatest volume that is heard. -/
def fullVolume : Nat := 0x40

namespace Voice

/-- The phase at which the region being played ends. -/
def limit (v : Voice) : UInt32 := v.length.toUInt32 <<< phaseShift

/-- Whether a voice plays: it is switched on, its region is long enough, and
    both regions begin inside the bank. -/
def audible (bank : Bank) (v : Voice) : Bool :=
  0 ≤ v.nextStart.toInt && 0 ≤ v.start.toInt && v.nextStart.toInt < bank.size &&
    v.start.toInt < bank.size && v.mode &&& 1 != 0 && leastLimit ≤ v.limit

/-- A voice that was just switched on begins with the next region. -/
def latch (v : Voice) : Voice :=
  if v.mode &&& 3 = 1 then
    { v with start := v.nextStart, length := v.nextLength, phase := 0, mode := v.mode ||| 2 }
  else v

/-- A voice that is to be switched off after its frames is switched off. -/
def release (v : Voice) : Voice :=
  if v.mode &&& 4 ≠ 0 then { v with mode := 0 } else v

/-- How loud the sample under the phase is: the sample times the volume, four
    times over. -/
def amplitude (bank : Bank) (v : Voice) : Int :=
  let o := v.start.toInt + (v.phase >>> phaseShift).toNat
  (bank.sample o.toNat).toInt * (min v.volume.toNat fullVolume : Nat) * 4

/-- The count at the end of a region: the voice after it, and whether the
    channel's macro is to resume. -/
def count (v : Voice) : Voice × Bool :=
  match v.loopMode with
  | .normal => (v, false)
  | .armOnCount n =>
    if n = 0 then ({ v with loopMode := .normal }, true)
    else ({ v with loopMode := .armOnCount (n - 1) }, false)

/-- The voice as it goes into its next region. -/
def enter (v : Voice) : Voice :=
  { v with phase := v.phase - v.limit, start := v.nextStart, length := v.nextLength }

/-- The voice as it runs out. -/
def exhausted (v : Voice) : Voice :=
  { v with start := 0, length := 0, phase := 0, step := 0 }

/-- What becomes of a voice in a frame. -/
inductive Frame where
  /-- It plays on; `fired` where its channel's macro is to resume. -/
  | plays (v : Voice) (fired : Bool)
  /-- No region is left to play. -/
  | runsOut (v : Voice)

/-- The voice as its phase moves on by a step. -/
def advance (v : Voice) : Voice := { v with phase := v.phase + v.step }

/-- What becomes of a voice whose phase has moved on. -/
def settle (v : Voice) : Frame :=
  if v.phase < v.limit then .plays v false
  else
    let v := v.enter
    if v.limit < leastLimit then .runsOut v.exhausted
    else .plays v.count.1 v.count.2

/-- One frame: its loudness, and what becomes of the voice. -/
def frame (bank : Bank) (v : Voice) : Int × Frame :=
  let v := v.advance
  (v.amplitude bank, v.settle)

/-- What a voice has played: the voice afterwards, its frames, and whether its
    channel's macro is to resume. -/
structure Rendering where
  voice : Voice
  frames : Array Int
  fired : Bool

/-- At most `n` more frames of a voice that plays. -/
def play (bank : Bank) : (n : Nat) → Rendering → Rendering
  | 0, r => r
  | n + 1, ⟨v, frames, fired⟩ =>
    match v.frame bank with
    | (x, .plays v f) => play bank n ⟨v, frames.push x, fired || f⟩
    | (x, .runsOut v) => ⟨v, frames.push x, fired⟩

/-- What a voice plays in `n` frames; it has fewer frames where the voice is
    silent or runs out. -/
def render (bank : Bank) (n : Nat) (v : Voice) : Rendering :=
  if v.audible bank then
    let r := play bank n ⟨v.latch, Array.emptyWithCapacity n, false⟩
    { r with voice := r.voice.release }
  else ⟨v, #[], false⟩

/-- The frames of a voice written over the head of a buffer. -/
def Rendering.over (r : Rendering) (buffer : Array Int) : Array Int :=
  r.frames.extract 0 buffer.size ++ buffer.extract r.frames.size buffer.size

end Voice

end PaulaReplay
