/-
  Timing - tempos, tick lengths and playback steps.

  The length of a tick is a count of timer clocks.  A tempo is a number of
  beats per minute; the tempo times the clocks of a tick is a constant.

  * `bpm` is the tempo of a tick length;
  * `tempoTiming`, `speedClocks?` and `timeShareClocks?` read the tempo of a
    sub-song, of a speed command and of a time share command;
  * `playbackStep` is the step of a voice that plays at a period;
  * `TickClock.tick` is the number of frames of a tick, with the remainder
    carried over to later ticks.
-/
namespace PaulaReplay

/-- The product of a tempo and the clocks of its tick. -/
def beatClocks : UInt32 := 0x1b51f8

/-- The clocks of a tick unless something else is asked for: 125 beats per
    minute. -/
def usualClocks : UInt16 := 14318

/-- The tempo of a tick of so many clocks, none for one of no length. -/
def bpm (clocks : UInt16) : UInt32 :=
  if clocks = 0 then 0 else beatClocks / clocks.toUInt32

/-- The clocks of a tick at a tempo. -/
def clocksOf (tempo : UInt32) : UInt16 := (beatClocks / tempo).toUInt16

/-- The clocks of a tick, and the ticks of a row less one, that the tempo of a
    sub-song asks for: a small one is a speed, another one a true tempo. -/
def tempoTiming (tempo : UInt16) : UInt16 × UInt16 :=
  if 0x10 ≤ tempo then (clocksOf tempo.toUInt32, 5) else (usualClocks, tempo)

/-- The clocks of a tick that a speed command asks for, if its argument is a
    tempo. -/
def speedClocks? (tempo : UInt16) : Option UInt16 :=
  let t := tempo &&& 0x1ff
  if tempo &&& 0xf200 = 0 ∧ 0xf < t then some (clocksOf t.toUInt32) else none

/-- The clocks of a tick that a time share command asks for: the usual ones,
    changed by a percentage not below -32. -/
def timeShareClocks? (percent : UInt16) : Option UInt16 :=
  if percent &&& 0x8000 ≠ 0 then none
  else
    let p := max percent.toUInt8.toInt8.toInt (-0x20)
    some (UInt16.ofInt (usualClocks.toNat * (p + 100) / 100))

/-- The clock of the sound chip. -/
def chipClock : UInt32 := 3579545

/-- The step of a voice that plays at a period, at an output rate: zero where
    the period is too short to divide by. -/
def playbackStep (period : UInt16) (rate : UInt32) : UInt32 :=
  if period = 0 then 0
  else
    let divisor := (period.toUInt32 * rate) >>> 5
    if divisor = 0 then 0 else (chipClock <<< 9) / divisor

/-- Half the clocks of a second, which goes with half the output rate. -/
def halfSecond : UInt64 := 357955

/-- How long ticks are, and what is left over of the ticks before. -/
structure TickClock where
  clocks : UInt32 := usualClocks.toUInt32
  remainder : UInt64 := 0
deriving DecidableEq, Repr, Inhabited

namespace TickClock

/-- The clock at another tick length. -/
def withClocks (c : TickClock) (clocks : UInt16) : TickClock :=
  { c with clocks := clocks.toUInt32 }

/-- The frames of the next tick at an output rate, and the clock after it. -/
def tick (c : TickClock) (rate : UInt32) : Nat × TickClock :=
  let n := c.clocks.toUInt64 * (rate >>> 1).toUInt64
  let frames := n / halfSecond
  let left := c.remainder + n % halfSecond
  if halfSecond < left then ((frames + 1).toNat, { c with remainder := left - halfSecond })
  else (frames.toNat, { c with remainder := left })

end TickClock

end PaulaReplay
