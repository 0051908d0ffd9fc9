/-
  Sequencer - the replay of a song, tick by tick.

  The song is a run of positions, each a track step.  Every so many ticks a
  row is played on all tracks; where a pattern is over, or all tracks are
  stopped, the next position is read.  A track step that is a command is
  obeyed, and the next one read at once.

  * `Place` is the position in the song and the speed, `Replay` the whole
    state;
  * `Replay.start` begins a sub-song;
  * `Replay.obey` is one command, `Replay.readStep` one track step,
    `Replay.seekStep` reads until a step that plays patterns;
  * `Replay.playRows` is a row of all tracks, `Replay.tickTracks` the share of
    the sequencer in a tick.
-/
import PaulaReplay.Engine.Row

namespace PaulaReplay

/-- The position in the song. -/
structure Place where
  current : UInt16 := 0
  first : UInt16 := 0
  last : UInt16 := 0
  /-- The ticks of a row, less one. -/
  speed : UInt16 := 0
deriving DecidableEq, Repr, Inhabited

/-- The whole state of a replay. -/
structure Replay where
  place : Place := {}
  tracks : Tracks := Octet.replicate {}
  machine : Machine := {}
  /-- The sub-song, negative before one is started. -/
  song : Int32 := -1
  /-- Whether the first position was not read yet. -/
  firstTime : Bool := true
  /-- The ticks since the last track step was read. -/
  age : UInt32 := 0
  clock : TickClock := {}
deriving DecidableEq, Repr, Inhabited

namespace Replay

/-- Before any song, with seven voices or with four. -/
def initial (multi : Bool) : Replay := { machine.multi := multi }

/-- The replay with its machine changed. -/
def onMachine (r : Replay) (f : Machine → Machine) : Replay := { r with machine := f r.machine }

/-- The replay with one more notice for the host. -/
def notify (r : Replay) (n : Notice) : Replay := r.onMachine (·.notify n)

/-- The song has come to its end. -/
def reachEnd (r : Replay) : Replay := r.onMachine Machine.reachEnd

/-- The position in the sub-song. -/
def position (r : Replay) : UInt16 := r.place.current - r.place.first

/-- The replay at another position, of which the host is told. -/
def moveTo (r : Replay) (current : UInt16) : Replay :=
  let r := { r with place.current := current }
  r.notify (.position r.position)

/-- The replay at the next position. -/
def nextPosition (r : Replay) : Replay := r.moveTo (r.place.current + 1)

/-- The replay with ticks of another length, of which the host is told. -/
def setClocks (r : Replay) (clocks : UInt16) : Replay :=
  notify { r with
    machine.master.clocks := clocks
    clock := r.clock.withClocks clocks } (.tempo (bpm clocks))

/-! ## Commands -/

/-- The loop command: it jumps until its counter has run down, and a loop that
    is not to be made, or has no end, is the end of the song. -/
def obeyLoop (r : Replay) (target count : UInt16) : Replay :=
  let jumps := r.machine.master.trackLoop
  if jumps = 0 then nextPosition { r with machine.master.trackLoop := -1 }
  else
    let fresh := jumps - 1 < 0
    let left := if fresh then count.toInt16 else jumps - 1
    let r := { r with machine.master.trackLoop := left }
    let r := if fresh ∧ (left = 0 ∨ 1000 < left) then r.reachEnd else r
    let target := max target r.place.first
    let r := if target < r.place.current ∧ left < 0 then r.reachEnd else r
    r.moveTo target

/-- The speed command: the ticks of a row, and perhaps a tempo. -/
def obeySpeed (r : Replay) (ticks tempo : UInt16) : Replay :=
  let r := notify { r with place.speed := ticks, machine.master.speedCount := ticks } (.speed ticks)
  match speedClocks? tempo with
  | some clocks => (r.setClocks clocks).nextPosition
  | none => r.nextPosition

/-- The time share command: seven voices, and a tempo. -/
def obeyTimeShare (r : Replay) (tempo : UInt16) : Replay :=
  match timeShareClocks? tempo with
  | some clocks => (setClocks { r with machine.multi := true } clocks).nextPosition
  | none => r.nextPosition

/-- The fade command: a slide of the master volume. -/
def obeyFade (r : Replay) (speed target : UInt16) : Replay :=
  nextPosition { r with
    machine.master.fade :=
      r.machine.master.fade.start speed.toUInt8.toInt8 target.toUInt8.toInt8 }

/-- One command; `true` where the next track step is to be read. -/
def obey (r : Replay) : StepCommand → Replay × Bool
  | .stop => (r.reachEnd, false)
  | .loop target count => (r.obeyLoop target count, true)
  | .speed ticks tempo => (r.obeySpeed ticks tempo, true)
  | .timeShare tempo => (r.obeyTimeShare tempo, true)
  | .fade speed target => (r.obeyFade speed target, true)
  | .idle => (r.nextPosition, true)

/-! ## Track steps -/

/-- A track as a track step gives it a pattern and a transposition; from
    number 0x80 on it goes on with what it plays. -/
def assign (score : Score) (number : UInt8) (transpose : Int8) (t : Track) : Track :=
  let t := { t with number, transpose }
  if number < 0x80 then
    let t := { t.atStart t.base with looped := false }
    match score.pattern? number with
    | some base => { t with base }
    | none => { t.stop with base := 0 }
  else t

/-- The tracks with the patterns of a track step. -/
def assignAll (score : Score) (s : TrackStep) (ts : Tracks) : Tracks :=
  Octet.ofFn fun i => assign score (s.patternOf i) (s.transposeOf i) ts[i]

/-- The first position is read: for the first time, or because the song has
    come to its end. -/
def greetFirst (r : Replay) : Replay :=
  if r.place.current = r.place.first then
    if r.firstTime then { r with firstTime := false } else r.reachEnd
  else r

/-- One track step; `true` where another one is to be read. -/
def readStep (score : Score) (r : Replay) : Replay × Bool :=
  let r := { r.greetFirst with age := 0 }
  match score.trackStep? r.place.current with
  | none => (r.reachEnd, false)
  | some s => match s.command? with
    | some c => r.obey c
    | none => ({ r with tracks := assignAll score s r.tracks }, false)

/-- How many track steps are read in a row. -/
def stepBound : Nat := 0x1000

/-- At most so many track steps; a song that gives no patterns by then is at
    its end. -/
def readSteps (score : Score) : Nat → Replay → Replay
  | 0, r => r.reachEnd
  | n + 1, r => match r.readStep score with
    | (r, true) => readSteps score n r
    | (r, false) => r

/-- Read track steps from the position on, up to one that plays patterns. -/
def seekStep (score : Score) (r : Replay) : Replay := readSteps score stepBound r

/-! ## Ticks -/

/-- The position is over: go to the next one, or from the last one to the
    first. -/
def endPosition (score : Score) (r : Replay) : Replay :=
  let r := if r.place.current = r.place.last then
      (notify { r with place.current := r.place.first } (.position 0)).reachEnd
    else r.nextPosition
  r.seekStep score

/-- The rows of some tracks, up to the first one whose pattern is over. -/
def playTracks (score : Score) : List Slot → Replay → Replay × Bool
  | [], r => (r, false)
  | i :: rest, r =>
    match Tracks.playRow score i r.tracks r.machine with
    | ((tracks, machine), true) => ({ r with tracks, machine }, true)
    | ((tracks, machine), false) => playTracks score rest { r with tracks, machine }

/-- How many positions may end in a row. -/
def restartBound : Nat := 0x401

/-- The row of all tracks; where a pattern is over the next position is read,
    and the row begins anew. -/
def playRows (score : Score) : Nat → Replay → Replay
  | 0, r => r
  | n + 1, r => match playTracks score Slot.all r with
    | (r, true) => playRows score n (r.endPosition score)
    | (r, false) => r

/-- A row of the song. -/
def playRow (score : Score) (r : Replay) : Replay :=
  let r := playRows score restartBound { r with machine.master.speedCount := r.place.speed }
  if Tracks.allStopped r.tracks then r.endPosition score else r

/-- The share of the sequencer in a tick: a row where the ticks of the last
    one are over. -/
def tickTracks (score : Score) (r : Replay) : Replay :=
  let count := r.machine.master.speedCount
  let r := { r with age := r.age + 1, machine.master.speedCount := count - 1 }
  if count ≠ 0 then r else r.playRow score

/-! ## Songs -/

/-- All channels off and all tracks stopped. -/
def reset (r : Replay) : Replay :=
  { r with
    machine := (List.range 8).foldl (fun m i => m.channelOff i) r.machine.allOff
    tracks := r.tracks.map fun (t : Track) => { t.stop with base := 0 } }

/-- The place and the speed of a sub-song; without one, nothing but the tempo
    is set. -/
def enterSong (r : Replay) (song? : Option SubSong) : Replay :=
  match song? with
  | some s =>
    let (clocks, speed) := tempoTiming s.tempo
    (notify { r with place := { current := s.first, first := s.first, last := s.last, speed } }
      (.speed speed)).setClocks clocks
  | none => r.setClocks usualClocks

/-- Begin sub-song `n`. -/
def start (score : Score) (n : Nat) (r : Replay) : Replay :=
  let m := { r.machine.master with
    enabled := false
    fade := { r.machine.master.fade with volume := 0x40, slope := 0 }
    trackLoop := -1
    patternFlag := false }
  let r := enterSong { r with machine.master := m } (score.subSong? n)
  let r := { r with tracks := r.tracks.map fun (t : Track) =>
    { t.stop with base := 0, transpose := 0, step := 0 } }
  let r := r.seekStep score
  { r with
    machine.master := { r.machine.master with speedCount := 0, ended := false, enabled := true }
    song := Int32.ofNat n }

end Replay

end PaulaReplay
