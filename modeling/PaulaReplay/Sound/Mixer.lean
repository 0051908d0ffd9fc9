/-
  Mixer - the voices of a tick, joined to channels and to stereo.

  With four voices, output channel `c` is voice `c`.  With seven, voice 3
  makes room for four more: voices 4 to 7 are output channels 3 to 6.  Output
  channels that no voice feeds are silent.  Half of the channels go to the
  left and half to the right.

  * `source?` is the voice that feeds an output channel;
  * `Side.ofChannel` is the side a channel is on;
  * `Mix` is the sound of a tick, `Mix.ofVoices` makes it from nothing;
  * `Mixer` keeps its buffers from tick to tick: `Mixer.play` makes the sound
    of a tick in the buffers of the last one.
-/
import PaulaReplay.Octet
import PaulaReplay.Sound.Voice

namespace PaulaReplay

/-- The two sides. -/
inductive Side where
  | left
  | right
deriving DecidableEq, Repr

/-- The side an output channel is on. -/
def Side.ofChannel (c : Fin 7) : Side :=
  match c with
  | 0 | 3 | 6 => left
  | 1 | 2 | 4 | 5 => right

/-- How many output channels are heard. -/
def channelCount (multi : Bool) : Nat := if multi then 7 else 4

/-- The voice that feeds an output channel, with seven voices or with four. -/
def source? (multi : Bool) (c : Fin 7) : Option Slot :=
  if c.val < 3 then some c.castSucc
  else if multi then some c.succ
  else if c.val = 3 then some c.castSucc
  else none

/-- Whether a voice is heard. -/
def heard (multi : Bool) (v : Slot) : Bool :=
  if multi then v.val != 3 else v.val < 4

/-- A sum of samples as a sample, cut to the range of 16 bits. -/
def clamp (x : Int) : Int16 :=
  if 32767 < x then 32767 else if x < -32768 then -32768 else Int16.ofInt x

/-- The sound of a tick. -/
structure Mix where
  multi : Bool
  /-- The number of frames. -/
  size : Nat
  channels : Vector (Array Int16) 7
  /-- Left and right in turn. -/
  stereo : Array Int16

namespace Mix

/-- Before anything was played. -/
def empty : Mix := ⟨false, 0, Vector.replicate 7 #[], #[]⟩

/-- What a voice has played as an output channel of `n` frames. -/
def channelOf (n : Nat) (r : Voice.Rendering) : Array Int16 :=
  (r.over (Array.replicate n 0)).map Int16.ofInt

/-- The sum of one side of a frame over the output channels heard. -/
def sideSum (multi : Bool) (channels : Vector (Array Int16) 7) (side : Side) (i : Nat) : Int :=
  Fin.foldl 7 (fun sum c =>
    if c.val < channelCount multi && Side.ofChannel c == side then
      sum + (channels[c][i]?.getD 0).toInt
    else sum) 0

/-- The output channels as `n` frames of stereo behind what is in `out`, each
    side at half its loudness. -/
def downmix (multi : Bool) (n : Nat) (channels : Vector (Array Int16) 7) (out : Array Int16) :
    Array Int16 :=
  n.fold (fun i _ out =>
    (out.push (clamp (sideSum multi channels .left i >>> (1 : Nat)))).push
      (clamp (sideSum multi channels .right i >>> (1 : Nat)))) out

/-- What each voice plays in `n` frames; a voice not heard plays nothing. -/
def renderings (bank : Bank) (multi : Bool) (n : Nat) (voices : Octet Voice) :
    Octet Voice.Rendering :=
  Octet.ofFn fun v =>
    if heard multi v then voices[v].render bank n else ⟨voices[v], #[], false⟩

/-- The sound of `n` frames of the voices, the voices afterwards, and for
    which of them a macro is to resume. -/
def ofVoices (bank : Bank) (multi : Bool) (n : Nat) (voices : Octet Voice) :
    Mix × Octet Voice × Octet Bool :=
  let rs := renderings bank multi n voices
  let channels := Vector.ofFn fun c => match source? multi c with
    | some v => channelOf n rs[v]
    | none => Array.replicate n 0
  (⟨multi, n, channels, downmix multi n channels (Array.emptyWithCapacity (2 * n))⟩,
    rs.map (·.voice), rs.map (·.fired))

/-- The samples of an output channel, none for one that does not exist. -/
def channel (m : Mix) (c : Nat) : Array Int16 := m.channels[c]?.getD #[]

end Mix

/-! ## The buffers of a mixer -/

/-- A buffer cut down or filled up with `a` to a size. -/
def resize {α : Type} (n : Nat) (a : α) (buffer : Array α) : Array α :=
  buffer.take n ++ Array.replicate (n - buffer.size) a

/-- The sound of the last tick, and the buffers that the next one is made
    in. -/
structure Mixer where
  mix : Mix
  /-- The frames of the output channels, before they are cut to samples. -/
  frames : Vector (Array Int) 7

namespace Mixer

/-- Before anything was played. -/
def empty : Mixer := ⟨Mix.empty, Vector.replicate 7 #[]⟩

/-- The frames of the output channels, emptied and silent for `n` frames. -/
def wipe (n : Nat) (frames : Vector (Array Int) 7) : Vector (Array Int) 7 :=
  frames.map fun buffer => resize n 0 (buffer.take 0)

/-- What the voices have played, written over the frames of their output
    channels. -/
def overwrite (multi : Bool) (rs : Octet Voice.Rendering) (frames : Vector (Array Int) 7) :
    Vector (Array Int) 7 :=
  Vector.ofFn fun c => match source? multi c with
    | some v => rs[v].over frames[c]
    | none => frames[c]

/-- The frames cut to samples, in the emptied buffers of the output
    channels. -/
def cut (frames : Vector (Array Int) 7) (channels : Vector (Array Int16) 7) :
    Vector (Array Int16) 7 :=
  Vector.ofFn fun c => channels[c].take 0 ++ frames[c].map Int16.ofInt

/-- The mixer after `n` frames of the voices, the voices afterwards, and for
    which of them a macro is to resume. -/
def play (bank : Bank) (multi : Bool) (n : Nat) (voices : Octet Voice) (m : Mixer) :
    Mixer × Octet Voice × Octet Bool :=
  let rs := Mix.renderings bank multi n voices
  let frames := overwrite multi rs (wipe n m.frames)
  let channels := cut frames m.mix.channels
  let stereo := Mix.downmix multi n channels (m.mix.stereo.take 0)
  (⟨⟨multi, n, channels, stereo⟩, frames.map fun buffer => buffer.map fun _ => 0⟩,
    rs.map (·.voice), rs.map (·.fired))

end Mixer

end PaulaReplay
