/-
  Machine - the eight channels with their voices, and what they share.

  * `Fade` is the master volume and its slide: `Fade.start` begins a slide,
    `Fade.advance` is one step of it;
  * `Master` holds the registers of the whole replay;
  * `Machine` joins them with the channels, the voices, the cues for the host
    and the notices;
  * `Machine.lane` and `Machine.setLane` reach a channel with its voice;
  * `Machine.lane_setLane_self`, `Machine.lane_setLane_ne` and
    `Machine.setLane_lane` say that they fit each other.
-/
import PaulaReplay.Engine.Channel
import PaulaReplay.Engine.Notice
import PaulaReplay.Octet

namespace PaulaReplay

/-! ## The master volume -/

/-- The master volume, and its slide to a target. -/
structure Fade where
  volume : Int8 := 0
  target : Int8 := 0
  time : Int8 := 0
  reset : Int8 := 0
  /-- The change of a step, zero while there is no slide. -/
  slope : Int8 := 0
deriving DecidableEq, Repr, Inhabited

namespace Fade

/-- Begin a slide to a target.  A speed of zero, or one that is the volume
    itself, sets the volume at once. -/
def start (f : Fade) (speed target : Int8) : Fade :=
  let f := { f with target, time := speed, reset := speed }
  if speed = 0 ∨ f.volume = speed then { f with volume := target, slope := 0 }
  else { f with slope := if f.volume > target then -1 else 1 }

/-- One step of the slide in hand. -/
def advance (f : Fade) : Fade :=
  if f.slope = 0 then f
  else
    let f := { f with time := f.time - 1 }
    if f.time ≠ 0 then f
    else
      let f := { f with time := f.reset, volume := f.volume + f.slope }
      if f.target = f.volume then { f with slope := 0 } else f

end Fade

/-! ## The machine -/

/-- The registers of the whole replay. -/
structure Master where
  enabled : Bool := false
  /-- Whether the song has come to its end in this tick. -/
  ended : Bool := false
  fade : Fade := {}
  /-- Jumps the track loop in hand still makes, negative outside of loops. -/
  trackLoop : Int16 := 0
  /-- Ticks to wait before the next row. -/
  speedCount : UInt16 := 0
  /-- The clocks of a tick that were asked for last. -/
  clocks : UInt16 := 0
  patternFlag : Bool := false
deriving DecidableEq, Repr, Inhabited

/-- The channels with their voices, and what they share. -/
structure Machine where
  master : Master := {}
  channels : Octet Channel := Octet.replicate {}
  voices : Octet Voice := Octet.replicate {}
  /-- Numbers that the tune hands to the host. -/
  cues : Vector UInt16 4 := Vector.replicate 4 0
  /-- Whether seven voices are heard. -/
  multi : Bool := false
  /-- How often the song has come to its end. -/
  endCount : UInt32 := 0
  /-- The notices that wait for the host, the oldest first. -/
  notices : List Notice := []
deriving DecidableEq, Repr, Inhabited

namespace Machine

/-- A channel with its voice. -/
def lane (m : Machine) (i : Slot) : Lane := ⟨m.channels[i], m.voices[i]⟩

/-- The machine with another channel. -/
def setChannel (m : Machine) (i : Slot) (c : Channel) : Machine :=
  { m with channels := m.channels.set i c }

/-- The machine with another voice. -/
def setVoice (m : Machine) (i : Slot) (v : Voice) : Machine :=
  { m with voices := m.voices.set i v }

/-- The machine with another channel and its voice. -/
def setLane (m : Machine) (i : Slot) (l : Lane) : Machine :=
  (m.setChannel i l.channel).setVoice i l.voice

theorem lane_setLane_self (m : Machine) (i : Slot) (l : Lane) : (m.setLane i l).lane i = l := by
  simp [lane, setLane, setChannel, setVoice]

theorem lane_setLane_ne (m : Machine) {i j : Slot} (h : i ≠ j) (l : Lane) :
    (m.setLane i l).lane j = m.lane j := by
  simp [lane, setLane, setChannel, setVoice, Octet.getElem_set_ne, h]

theorem setLane_lane (m : Machine) (i : Slot) : m.setLane i (m.lane i) = m := by
  simp [lane, setLane, setChannel, setVoice, Octet.set_getElem_self]

/-- The machine with a number for the host; of the slot the low two bits
    count. -/
def setCue (m : Machine) (slot : UInt8) (value : UInt16) : Machine :=
  { m with cues := m.cues.set (Fin.ofNat 4 slot.toNat) value }

/-- The machine with one more notice for the host. -/
def notify (m : Machine) (n : Notice) : Machine := { m with notices := enqueue m.notices n }

/-- The song has come to its end, which counts once in a tick. -/
def reachEnd (m : Machine) : Machine :=
  if m.master.ended then m
  else
    notify { m with master.ended := true, endCount := m.endCount + 1 } .ended

/-- The notices for the host, and the machine without them. -/
def drain (m : Machine) : List Notice × Machine := (m.notices, { m with notices := [] })

/-- Which bits of a channel number count: four channels answer, or with seven
    voices all eight. -/
def channelMask (m : Machine) : UInt8 := if m.multi then 7 else 3

/-- The channel that a number names. -/
def channelOf (m : Machine) (n : UInt8) : Slot := Slot.ofNat (n &&& m.channelMask).toNat

end Machine

end PaulaReplay
