/-
  Player - a tune being played.

  A player renders a tune tick by tick, or fills buffers of any length from
  the ticks.  It can be put at a position, be given sound effects, and be put
  back to an earlier state.

  * `Player` is the state, `Player.new` a player at the start of a tune;
  * `Player.tick` renders one tick;
  * `Player.fill` fills a buffer, and `Player.isOver` says whether the song
    has ended often enough; `Overrun` is a buffer that asks for more of the
    last tick than there is;
  * `Player.seek`, `Player.playEffect`, `Player.snapshot`, `Player.restore`,
    `Player.drain` and `Player.info` are the rest of what a host may do.
-/
import PaulaReplay.Engine.Sequencer
import PaulaReplay.Sound.Mixer
import PaulaReplay.Timeline

namespace PaulaReplay

/-- The lowest and the highest output rate, and the usual one. -/
def minRate : UInt32 := 4000
def maxRate : UInt32 := 96000
def usualRate : UInt32 := 44100

/-- A tune being played. -/
structure Player where
  tune : Tune
  rate : UInt32
  replay : Replay
  mixer : Mixer
  /-- How many ticks the song has come to its end in. -/
  loopCount : Nat
  /-- Whether a buffer was asked for past the end. -/
  isOver : Bool
  /-- How much of the last tick's sound is in buffers, of how much. -/
  consumed : Nat
  available : Nat

/-- A buffer takes samples up to `stop` from the sound of a tick, which has
    `size` of them. -/
structure Overrun where
  stop : Nat
  size : Nat
deriving DecidableEq, Repr

/-- What was put into a buffer, and the player after it. -/
abbrev Filled := Except Overrun (Array Int16 × Player)

/-- What a host shows of a player. -/
structure PlayerInfo where
  position : Nat
  song : Nat
  age : Nat
  speed : Nat
  tempo : Nat
  channels : Nat
deriving DecidableEq, Repr

namespace Player

/-- The sound of the last tick. -/
abbrev mix (p : Player) : Mix := p.mixer.mix

/-! ## Starting -/

/-- Start a sub-song from the beginning. -/
def start (p : Player) (song : Nat) : Except Error Player :=
  if p.tune.score.songCount ≤ song then .error (.format (.invalidSong song))
  else
    let replay := Replay.initial (p.tune.format = .sevenVoices)
    .ok { p with
      replay := replay.reset.start p.tune.score song
      loopCount := 0
      isOver := false
      consumed := 0
      available := 0 }

/-- A player of a tune at an output rate, at the start of its first
    sub-song. -/
def new (tune : Tune) (rate : UInt32) : Except Error Player :=
  if rate < minRate ∨ maxRate < rate then .error (.format (.invalidRate rate))
  else
    start { tune, rate, replay := Replay.initial (tune.format = .sevenVoices),
            mixer := Mixer.empty, loopCount := 0, isOver := false, consumed := 0,
            available := 0 } 0

/-! ## Ticks -/

/-- The channels and the sequencer in a tick, where the replay is enabled. -/
def advance (score : Score) (rate : UInt32) (r : Replay) : Replay :=
  let r := { r with machine.master.ended := false }
  if r.machine.master.enabled then
    let r := r.onMachine (·.tickChannels score rate)
    if 0 ≤ r.song then r.tickTracks score else r
  else r

/-- The macros of the voices that have fired resume. -/
def resume (fired : Octet Bool) (m : Machine) : Machine :=
  { m with
    channels := Octet.ofFn fun i =>
      if fired[i] then { m.channels[i] with program.running := -1 } else m.channels[i] }

/-- The sound of a tick, made in the buffers of a mixer, and the replay after
    it. -/
def render (bank : Bank) (rate : UInt32) (mixer : Mixer) (r : Replay) : Mixer × Replay :=
  let (frames, clock) := r.clock.tick rate
  let (mixer, voices, fired) := mixer.play bank r.machine.multi frames r.machine.voices
  (mixer, { r with clock, machine := resume fired { r.machine with voices } })

/-- Render one tick. -/
def tick (p : Player) : Player :=
  let r := advance p.tune.score p.rate p.replay
  let ended := r.machine.endCount != p.replay.machine.endCount
  let (mixer, replay) := render p.tune.score.bank p.rate p.mixer r
  { p with replay, mixer, loopCount := if ended then p.loopCount + 1 else p.loopCount }

/-! ## Buffers -/

/-- The sound of the last tick that is in no buffer yet, at most `n` samples
    of it.  The count of it is kept apart from the sound itself, and may ask
    for samples that are not there. -/
def take (p : Player) (n : Nat) : Filled :=
  let stop := p.consumed + min n (p.available - p.consumed)
  if p.consumed ≤ p.available ∧ stop ≤ p.mix.stereo.size then
    .ok (p.mix.stereo.extract p.consumed stop, { p with consumed := stop })
  else .error ⟨stop, p.mix.stereo.size⟩

/-- The next tick, for a buffer: `false` where the song has ended `loops`
    times, unless that is zero. -/
def refill (p : Player) (loops : Nat) : Player × Bool :=
  let p := p.tick
  if 0 < loops ∧ loops ≤ p.loopCount then
    ({ p with isOver := true, consumed := 0, available := 0 }, false)
  else ({ p with consumed := 0, available := p.mix.stereo.size }, true)

/-- The buffer `out` with `n` more samples, from as many ticks as it takes. -/
def fillFrom (loops n : Nat) (p : Player) (out : Array Int16) : Option Filled :=
  if n = 0 then some (.ok (out, p))
  else if p.consumed = p.available then
    match p.refill loops with
    | (p, true) => p |>.fillFrom loops n out
    | (p, false) => some (.ok (out ++ Array.replicate n 0, p))
  else match p.take n with
    | .ok (samples, p) => p |>.fillFrom loops (n - samples.size) (out ++ samples)
    | .error e => some (.error e)
partial_fixpoint

/-- Fill a buffer of `n` samples; where the song has ended `loops` times the
    rest is silence, and with zero `loops` it goes on for ever.  `none` where
    no tick has any length, and the filling never ends. -/
def fill (p : Player) (n loops : Nat) : Option Filled :=
  fillFrom loops n p (Array.emptyWithCapacity n)

/-! ## Snapshots, positions and effects -/

/-- The state to come back to. -/
def snapshot (p : Player) : Replay := p.replay

/-- Come back to a state. -/
def restore (p : Player) (r : Replay) : Player :=
  { p with replay := r, consumed := 0, available := 0 }

/-- Go to a position of the sub-song, with the speed and the tempo that hold
    there. -/
def seek (p : Player) (position : Nat) (e : Timeline.Entry) : Player :=
  let r := p.replay
  let r := if e.clocks ≠ 0 then
      { r with machine.master.clocks := e.clocks, clock := r.clock.withClocks e.clocks }
    else r
  let current := r.place.first + UInt16.ofNat position
  let r := { r with
    machine.master.speedCount := e.speed
    place.speed := e.speed
    place.current := current
    firstTime := current == r.place.first || r.firstTime }
  let r := r.seekStep p.tune.score
  let r := (r.notify (.speed e.speed)).notify (.tempo (bpm r.machine.master.clocks))
  { p with replay := r, consumed := 0, available := 0 }

/-- Give a sound effect to a channel, for its next tick; an effect of higher
    priority that waits already is not replaced.  `false` where the effect is
    refused. -/
def playEffect (p : Player) (channel : Nat) (word : UInt32) (priority : UInt32) :
    Bool × Player :=
  let m := p.replay.machine
  if h : channel ≤ m.channelMask.toNat ∧ channel < 8 then
    let i : Slot := ⟨channel, h.2⟩
    let c := m.channels[i]
    if c.reservation.code ≠ 0 ∧ priority < c.reservation.priority then (false, p)
    else
      let w : Word := ⟨word⟩
      let w := w.withByte2 ((w.byte2 &&& 0xf0) ||| UInt8.ofNat channel)
      let c := { c with reservation.code := w.bits, reservation.priority := priority }
      let m := m.setChannel i c
      (true, { p with replay.machine := m })
  else (false, p)

/-- The notices for the host, and the player without them. -/
def drain (p : Player) : List Notice × Player :=
  let (ns, m) := p.replay.machine.drain
  (ns, { p with replay.machine := m })

/-! ## What a host shows -/

/-- How many output channels are heard. -/
def channels (p : Player) : Nat := channelCount p.replay.machine.multi

/-- The sub-song being played. -/
def song (p : Player) : Nat := p.replay.song.toInt.toNat

/-- The position in the sub-song. -/
def position (p : Player) : Nat := p.replay.position.toNat

/-- The number of positions of the sub-song. -/
def songLength (p : Player) : Nat := p.replay.place.last.toNat + 1 - p.replay.place.first.toNat

/-- What a host shows of a player. -/
def info (p : Player) : PlayerInfo where
  position := p.position
  song := p.song
  age := p.replay.age.toNat
  speed := p.replay.place.speed.toNat
  tempo := (bpm p.replay.machine.master.clocks).toNat
  channels := p.channels

end Player

end PaulaReplay
