/-
  Row - the rows of the tracks, played on the machine.

  * `Machine.grant` does what a word of a pattern asks for;
  * `Tracks.playWords` and `Tracks.playRow` run the row of a track, as
    `Tracks.simulateRow` does without a machine.
-/
import PaulaReplay.Engine.Tick
import PaulaReplay.Engine.Track

namespace PaulaReplay

/-- The machine after a request. -/
def Machine.grant (score : Score) (m : Machine) : Request → Machine
  | .dispatch w => m.dispatch score w
  | .fade speed target => { m with master.fade := m.master.fade.start speed target }
  | .cue slot value => m.setCue slot value
  | .endPattern => { m with master.patternFlag := false }
  | .endSong => m.reachEnd

/-- The machine after the request of a word, if it makes one. -/
def Machine.grant? (score : Score) (m : Machine) (r : Option Request) : Machine :=
  match r with
  | some r => m.grant score r
  | none => m

namespace Tracks

/-- At most so many words of track `i`: `true` where its pattern is over. -/
def playWords (score : Score) (i : Slot) :
    Nat → Tracks → Machine → (Tracks × Machine) × Bool
  | 0, ts, m => ((ts.modify i Track.stop, m), false)
  | n + 1, ts, m =>
    let s := step score i ts
    let m := m.grant? score s.request
    match s.flow with
    | .goesOn => playWords score i n s.tracks m
    | .rests => ((s.tracks, m), false)
    | .finishes => ((s.tracks, m), true)

/-- The row of track `i`: `true` where its pattern is over. -/
def playRow (score : Score) (i : Slot) (ts : Tracks) (m : Machine) : (Tracks × Machine) × Bool :=
  match enter i ts with
  | .idle ts => ((ts, m), false)
  | .switchesOff ts channel => ((ts, m.channelOff channel), false)
  | .runs ts => playWords score i rowBound ts m

end Tracks

end PaulaReplay
