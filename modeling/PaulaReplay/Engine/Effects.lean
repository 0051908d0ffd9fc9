/-
  Effects - how a channel changes from tick to tick.

  Between the words of its macro a channel moves the start of its sample to
  and fro, sways and slides its pitch, and slides its volume; with it goes a
  step of the master volume's slide.

  * `Channel.sweepOn`, `Channel.sway`, `Channel.slideOn` and
    `Channel.swell` are the four changes;
  * `Channel.bend` makes all of them;
  * `Machine.bend` is a channel's share of a tick: a channel that is left
    alone keeps its sound.
-/
import PaulaReplay.Engine.Machine

namespace PaulaReplay

namespace Channel

/-- The sample start moves by a step, and turns back when its time is up. -/
def sweepOn (c : Channel) : Channel :=
  if c.sweep.time = 0 then c
  else
    let address := c.region.address + c.sweep.step.toUInt32
    let time := c.sweep.time - 1
    { c with
      region.address := address
      region.savedAddress := address
      sweep.time := if time = 0 then c.sweep.reset else time
      sweep.step := if time = 0 then -c.sweep.step else c.sweep.step }

/-- A sample start that has left the address space goes to zero, and stays. -/
def groundSweep (c : Channel) : Channel :=
  if c.region.address.toInt32 < 0 then { c with sweep := {}, region.address := 0 } else c

/-- The period sways about the one of the note, and turns back when its time
    is up. -/
def sway (c : Channel) : Channel :=
  if c.vibrato.reset = 0 then c
  else
    let offset := c.vibrato.offset + c.vibrato.width.toInt16
    let period := UInt16.ofInt ((c.pitch.target.toNat * (0x800 + offset.toInt)) >>> (11 : Nat))
    let time := c.vibrato.time - 1
    { c with
      pitch.period := if c.slide.rate = 0 then period else c.pitch.period
      vibrato.offset := offset
      vibrato.time := if time = 0 then c.vibrato.reset else time
      vibrato.width := if time = 0 then -c.vibrato.width else c.vibrato.width }

/-- The next period of a slide from `period` to `target`, and whether the
    slide has come there: each step changes the period by `rate` parts of
    256. -/
def slideStep (period target rate : Int32) : Int32 × Bool :=
  if target < period then
    let a := (period * (256 - rate) - 128) >>> 8
    (a, a ≤ target)
  else if period < target then
    let a := (period * (256 + rate)) >>> 8
    (a, target ≤ a)
  else (target, true)

/-- The period slides to the one of the note. -/
def slideOn (c : Channel) : Channel :=
  if c.slide.rate = 0 then c
  else
    let time := c.slide.time - 1
    if time ≠ 0 then { c with slide.time := time }
    else
      let target := c.pitch.target.toUInt32.toInt32
      let (a, arrived) := slideStep c.slide.period.toUInt32.toInt32 target c.slide.rate.toInt32
      let period := (if arrived then target else a).toUInt32.toUInt16
      { c with
        slide.time := c.slide.reset
        slide.rate := if arrived then 0 else c.slide.rate
        slide.period := period
        pitch.period := period }

/-- The next volume of an envelope from `volume` to `target`, and whether it
    has come there: a step that would pass the target, or leave the range
    below, ends the envelope. -/
def swellStep (volume target : Int8) (rate : UInt8) : Int8 × Bool :=
  if target < volume then
    let low := volume.toInt < rate.toNat
    let v := if low then volume else volume - rate.toInt8
    (v, low || v < target)
  else if volume < target then
    let v := volume + rate.toInt8
    (v, target < v)
  else (volume, false)

/-- The volume slides to the target of the envelope. -/
def swell (c : Channel) : Channel :=
  if c.envelope.reset = 0 then c
  else if c.envelope.time ≠ 0 then { c with envelope.time := c.envelope.time - 1 }
  else
    let (v, arrived) := swellStep c.volume c.envelope.target c.envelope.rate
    if arrived then
      { c with envelope.reset := 0, envelope.time := 0, volume := c.envelope.target }
    else { c with envelope.time := c.envelope.reset, volume := v }

/-- All that changes from tick to tick. -/
def bend (c : Channel) : Channel := c.sweepOn.groundSweep.sway.slideOn.swell

end Channel

/-- A channel's share of a tick: nothing while it is left alone, and nothing
    yet in the tick after that. -/
def Machine.bend (i : Slot) (m : Machine) : Machine :=
  let c := m.channels[i]
  if c.bending < 0 then m
  else if c.bending = 0 then m.setChannel i { c with bending := 1 }
  else
    let m := m.setChannel i c.bend
    { m with master.fade := m.master.fade.advance }

end PaulaReplay
