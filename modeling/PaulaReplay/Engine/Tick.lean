/-
  Tick - what the channels do in a tick.

  Each channel counts its lock down, takes a sound effect that waits for it,
  gives its macro a turn, changes its sound, and sets its voice up.

  * `Channel.countLock`, `Channel.takeCode` and `Channel.countWait` are the
    first steps;
  * `Lane.load` sets up the voice;
  * `Machine.tickChannel` is one channel, `Machine.tickChannels` all that are
    heard, channel 3 the last of them;
  * `Machine.channelOff` and `Machine.allOff` silence channels.
-/
import PaulaReplay.Engine.Effects
import PaulaReplay.Engine.Macro
import PaulaReplay.Engine.Timing

namespace PaulaReplay

namespace Channel

/-- The lock counts down; a tick after it has run out it is gone. -/
def countLock (c : Channel) : Channel :=
  if 0 ≤ c.reservation.time then { c with reservation.time := c.reservation.time - 1 }
  else { c with reservation.lock := 0, reservation.priority := 0 }

/-- The sound effect that waits is taken, and breaks the lock. -/
def takeCode (c : Channel) : Channel := { c with reservation.lock := 0, reservation.code := 0 }

/-- The wait of a running macro counts down; `true` where its turn has
    come. -/
def countWait (c : Channel) : Channel × Bool :=
  if c.program.running = 0 then (c, false)
  else ({ c with program.wait := c.program.wait - 1 }, c.program.wait = 0)

/-- Switched off: without region, sweep and volume, its macro stopped. -/
def silenced (c : Channel) : Channel :=
  { c with
    sweep.time := 0
    sweep.reset := 0
    program.running := 0
    program.yields := 0xff
    region.savedAddress := 0
    region.savedLength := 1
    region.length := 1
    volume := 0 }

/-- As it is before a song starts. -/
def cleared (c : Channel) : Channel :=
  { c with
    program.wait := 0
    program.running := 0
    program.jumps := -1
    program.yields := 0xff
    volume := 0
    reservation.lock := 0
    reservation.code := 0
    reservation.time := -1
    region.savedAddress := 0
    region.savedLength := 2 }

end Channel

namespace Voice

/-- Switched off. -/
def silenced (v : Voice) : Voice := { v with mode := 0, volume := 0, loopMode := .normal }

/-- As it is before a song starts. -/
def cleared (v : Voice) : Voice :=
  { v.silenced with start := 0, nextStart := 0, nextLength := 2, length := 2 }

end Voice

/-- The volume of a voice: the one of its channel in parts of the master
    volume. -/
def voiceVolume (volume master : Int8) : UInt8 :=
  UInt8.ofInt ((volume.toInt * master.toInt) >>> (6 : Nat))

/-- The voice with the period, the region and the volume of its channel; a
    voice that was just switched on plays that region first. -/
def Lane.load (l : Lane) (master : Int8) (rate : UInt32) : Voice :=
  let c := l.channel
  let start := c.region.savedAddress.toInt32
  let length := regionSamples c.region.savedLength
  let fresh := l.voice.mode &&& 3 = 1
  { l.voice with
    step := playbackStep c.pitch.period rate
    nextStart := start
    nextLength := length
    start := if fresh then start else l.voice.start
    length := if fresh then length else l.voice.length
    volume := voiceVolume c.volume master }

namespace Machine

/-- The machine with a channel changed. -/
def onChannel (m : Machine) (i : Slot) (f : Channel → Channel) : Machine :=
  m.setChannel i (f m.channels[i])

/-- The sound effect that waits for a channel is dispatched. -/
def takeEffect (score : Score) (i : Slot) (m : Machine) : Machine :=
  let code := m.channels[i].reservation.code
  if code = 0 then m else (m.onChannel i Channel.takeCode).dispatch score ⟨code⟩

/-- The macro of a channel has its turn when its wait is over. -/
def takeTurn (score : Score) (i : Slot) (m : Machine) : Machine :=
  match m.channels[i].countWait with
  | (c, true) => runMacro score i (m.setChannel i c)
  | (c, false) => m.setChannel i c

/-- The voice of a channel is set up for the frames of the tick. -/
def loadVoice (i : Slot) (rate : UInt32) (m : Machine) : Machine :=
  m.setVoice i ((m.lane i).load m.master.fade.volume rate)

/-- One channel's tick. -/
def tickChannel (score : Score) (rate : UInt32) (i : Slot) (m : Machine) : Machine :=
  let m := m.onChannel i Channel.countLock
  let m := m.takeEffect score i
  let m := m.takeTurn score i
  let m := m.bend i
  m.loadVoice i rate

/-- The channels that have ticks, in their order. -/
def channelOrder (multi : Bool) : List Slot :=
  (if multi then [0, 1, 2, 4, 5, 6, 7, 3] else [0, 1, 2, 3]).map Slot.ofNat

/-- The tick of all channels. -/
def tickChannels (score : Score) (rate : UInt32) (m : Machine) : Machine :=
  (channelOrder m.multi).foldl (fun m i => m.tickChannel score rate i) m

/-- A channel is switched off, unless it is locked; of its number the low four
    bits count, and there is no channel from eight on. -/
def channelOff (n : Nat) (m : Machine) : Machine :=
  if h : n % 16 < 8 then
    let i : Slot := ⟨n % 16, h⟩
    if m.channels[i].reservation.lock = 0 then
      m.setLane i ⟨m.channels[i].silenced, m.voices[i].silenced⟩
    else m
  else m

/-- All channels and voices as they are before a song starts, locked or not,
    and the replay disabled. -/
def allOff (m : Machine) : Machine :=
  { m with
    master.enabled := false
    channels := m.channels.map Channel.cleared
    voices := m.voices.map Voice.cleared }

end Machine

end PaulaReplay
