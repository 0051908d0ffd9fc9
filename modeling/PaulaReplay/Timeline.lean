/-
  Timeline - how long a sub-song takes, found without playing it.

  The track steps of a sub-song are gone through, and the rows of each are
  counted by running the patterns without a machine.  A song that jumps back
  for good is cut at the jump.

  * `Timeline.Entry` is what holds at the start of a position, `Timeline` the
    entries with the duration;
  * `Survey` is the state of going through a song, `Survey.step` one track
    step of it;
  * `Timeline.ofSong` surveys one sub-song, `Timeline.all` every one.
-/
import PaulaReplay.Engine.Timing
import PaulaReplay.Engine.Track

namespace PaulaReplay

/-- What holds at the start of a position. -/
structure Timeline.Entry where
  /-- The ticks of a row, less one. -/
  speed : UInt16
  /-- The clocks of a tick. -/
  clocks : UInt16
  /-- Milliseconds since the start of the song. -/
  time : UInt32
deriving DecidableEq, Repr

/-- The duration of a sub-song in milliseconds, and its positions. -/
structure Timeline where
  duration : UInt32
  entries : Array Timeline.Entry
deriving DecidableEq, Repr

/-- The state of going through a sub-song. -/
structure Survey where
  /-- The position come to. -/
  position : Nat
  speed : UInt16
  clocks : UInt16
  tracks : Tracks
  /-- Jumps the track loop in hand still makes, negative outside of loops. -/
  trackLoop : Int16
  /-- Milliseconds so far. -/
  time : Float32
  entries : Array Timeline.Entry
  /-- Whether the position is to be entered: not after a jump. -/
  records : Bool

namespace Survey

/-- At the start of a sub-song. -/
def ofSong (s : SubSong) : Survey :=
  let (clocks, speed) := tempoTiming s.tempo
  { position := s.first.toNat, speed, clocks, tracks := Octet.replicate {}, trackLoop := -1,
    time := 0, entries := #[], records := true }

/-- The position is entered, with those before it that were jumped over. -/
def record (first : Nat) (s : Survey) : Survey :=
  let missing := if s.records then s.position + 1 - first - s.entries.size else 0
  { s with
    entries := s.entries ++ Array.replicate missing ⟨s.speed, s.clocks, s.time.toUInt32⟩
    records := true }

/-- At the next position. -/
def next (s : Survey) : Survey := { s with position := s.position + 1 }

/-! ## Commands -/

/-- A loop command: `none` where the song ends at it. -/
def loop (s : Survey) (target count : UInt16) : Option Survey :=
  let jumps := s.trackLoop
  if jumps = 0 then some { s with trackLoop := -1 }.next
  else
    let fresh := jumps - 1 < 0
    let left := if fresh then count.toInt16 else jumps - 1
    if fresh ∧ (left = 0 ∨ 1000 < left) then none
    else if target.toNat < s.position ∧ left < 0 then none
    else some { s with trackLoop := left, position := target.toNat, records := false }

/-- One command: `none` where the song ends at it. -/
def obey (s : Survey) : StepCommand → Option Survey
  | .stop => none
  | .loop target count => s.loop target count
  | .speed ticks tempo =>
    some { s with speed := ticks, clocks := (speedClocks? tempo).getD s.clocks }.next
  | .timeShare tempo => some { s with clocks := (timeShareClocks? tempo).getD s.clocks }.next
  | .fade _ _ | .idle => some s.next

/-! ## Rows -/

/-- A track as a track step gives it a pattern. -/
def assign (score : Score) (number : UInt8) (t : Track) : Track :=
  let t := { t with number }
  if number < 0x80 then
    let t := { t.atStart t.base with looped := false }
    match score.pattern? number with
    | some base => { t with base }
    | none => { t.stop with base := 0 }
  else t

/-- The milliseconds of a row: the clocks of a tick as microseconds, times the
    ticks. -/
def rowTime (s : Survey) : Float32 :=
  s.clocks.toFloat32 * 1.3968255 / 1000.0 * (s.speed.toFloat32 + 1.0)

/-- A row of all tracks: `true` where a pattern is over or the song is. -/
def simulateRow (score : Score) (ts : Tracks) : Tracks × Bool :=
  Slot.all.foldl (fun (ts, ended) i =>
    let (ts, o) := Tracks.simulateRow score i ts
    (ts, ended || o)) (ts, false)

/-- At most so many rows of a position, of `rowTime` each. -/
def rows (score : Score) (rowTime : Float32) : Nat → Tracks → Float32 → Tracks × Float32
  | 0, ts, time => (ts, time)
  | n + 1, ts, time =>
    match simulateRow score ts with
    | (ts, true) => (ts, time)
    | (ts, false) =>
      let time := time + rowTime
      if Tracks.allStopped ts then (ts, time) else rows score rowTime n ts time

/-- How many rows of a position are gone through. -/
def rowBound : Nat := 0x4000

/-- The rows of a track step. -/
def playStep (score : Score) (step : TrackStep) (s : Survey) : Survey :=
  let tracks := Octet.ofFn fun i => assign score (step.patternOf i) s.tracks[i]
  let (tracks, time) := rows score s.rowTime rowBound tracks s.time
  { s with tracks, time }.next

/-! ## Songs -/

/-- One track step, of a sub-song that begins at `first`; `true` where the
    next one is to be gone through. -/
def step (score : Score) (first : Nat) (s : Survey) : Survey × Bool :=
  let s := s.record first
  match score.trackStep? (UInt16.ofNat s.position) with
  | none => (s, false)
  | some t => match t.command? with
    | some c => match s.obey c with
      | some s => (s, true)
      | none => (s, false)
    | none => (s.playStep score t, true)

/-- How many track steps are gone through. -/
def stepBound : Nat := 0x10000

/-- At most so many track steps of a sub-song. -/
def run (score : Score) (song : SubSong) : Nat → Survey → Survey
  | 0, s => s
  | n + 1, s =>
    if s.position ≤ song.last.toNat then
      match s.step score song.first.toNat with
      | (s, true) => run score song n s
      | (s, false) => s
    else s

end Survey

namespace Timeline

/-- The timeline of a sub-song; nothing where there is none. -/
def ofSong (score : Score) (n : Nat) : Timeline :=
  match score.subSong? n with
  | none => ⟨0, #[]⟩
  | some song =>
    let s := Survey.run score song Survey.stepBound (Survey.ofSong song)
    ⟨s.time.toUInt32, s.entries⟩

/-- The timelines of all sub-songs. -/
def all (score : Score) : List Timeline := (List.range score.songCount).map (ofSong score)

end Timeline

end PaulaReplay
