/-
  Moves: the replay taken apart.

  A tick is a run of moves, each of them one step of a channel, of a track or
  of the song: a word of a macro, the row of a track, a track step, and so on.
  What each move keeps, a tick keeps, and what is to be said of the work of a
  tick is said of its moves.

  * `Machine.Move` are the moves of the channels, `Replay.Move` all of them,
    with `apply` for what they do;
  * `Machine.run` and `Replay.run` make moves one after the other;
  * `Machine.tickMoves`, `Replay.seekMoves`, `Replay.tickMoves` and their parts
    are the moves of a tick of the channels, of a search for a track step and
    of a whole tick, and `run_tickMoves` and the lemmas before it say so;
  * `Replay.Move.ofTrack`, `ofRow` and `ofSong` are kinds of moves: what all of a
    kind are, the moves of a row (`all_rowMoves`) and of the sequencer
    (`all_ofSong_sequencerMoves`) are; `Replay.Heard` says that the channel of a
    move is one that has ticks;
  * `Replay.Along` says that something holds of each move where it is made,
    and `Along.run` what a run of such moves keeps; `Reachable.replay_keeps` is
    for all that a host may do.
-/
import PaulaReplay.Proofs.Reachable

namespace PaulaReplay

/-! ## Moves of the channels -/

/-- A move of a channel. -/
inductive Machine.Move where
  /-- The lock counts down. -/
  | countLock (i : Slot)
  /-- The sound effect that waits, if there is one, is dispatched. -/
  | takeEffect (i : Slot)
  /-- The wait of the macro counts down. -/
  | countWait (i : Slot)
  /-- The macro begins its turn. -/
  | wake (i : Slot)
  /-- A word of the macro is run. -/
  | word (i : Slot)
  /-- The macro that does not rest is stopped. -/
  | halt (i : Slot)
  /-- The sound is changed. -/
  | bend (i : Slot)
  /-- The voice is set up. -/
  | load (i : Slot)
deriving DecidableEq, Repr

/-- Whether a word ends the turn of its macro. -/
def Outcome.isRest : Outcome → Bool
  | .rests _ => true
  | _ => false

namespace Machine

variable {score : Score} {rate : UInt32}

/-- The machine after one word of the macro of a channel. -/
def runWord (score : Score) (i : Slot) (m : Machine) : Machine :=
  match (m.lane i).turn score with
  | .goesOn l | .rests l => m.setLane i l
  | .cues l slot value => (m.setLane i l).setCue slot value
  | .starts l w => (m.setLane i l).dispatch score w

/-- What a move does. -/
def Move.apply (score : Score) (rate : UInt32) (m : Machine) : Move → Machine
  | .countLock i => m.onChannel i Channel.countLock
  | .takeEffect i => m.takeEffect score i
  | .countWait i => m.onChannel i fun c => c.countWait.1
  | .wake i => m.onChannel i fun c => { c with program.wait := 0 }
  | .word i => m.runWord score i
  | .halt i => m.onChannel i Channel.halted
  | .bend i => m.bend i
  | .load i => m.loadVoice i rate

/-- The machine after some moves. -/
def run (score : Score) (rate : UInt32) (ms : List Move) (m : Machine) : Machine :=
  ms.foldl (Move.apply score rate) m

theorem run_append (ms ns : List Move) (m : Machine) :
    run score rate (ms ++ ns) m = run score rate ns (run score rate ms m) :=
  List.foldl_append

theorem run_cons (mv : Move) (ms : List Move) (m : Machine) :
    run score rate (mv :: ms) m = run score rate ms (mv.apply score rate m) := rfl

/-- The moves of at most so many words of a macro. -/
def wordMoves (score : Score) (i : Slot) : Nat → Machine → List Move
  | 0, _ => [.halt i]
  | n + 1, m =>
    .word i :: if ((m.lane i).turn score).isRest then []
      else wordMoves score i n (m.runWord score i)

theorem runWords_succ (i : Slot) (n : Nat) (m : Machine) :
    runWords score i (n + 1) m = if ((m.lane i).turn score).isRest then m.runWord score i
      else runWords score i n (m.runWord score i) := by
  rw [runWords, runWord]
  cases (m.lane i).turn score <;> rfl

theorem run_wordMoves (i : Slot) : ∀ (n : Nat) (m : Machine),
    run score rate (wordMoves score i n m) m = runWords score i n m
  | 0, _ => rfl
  | n + 1, m => by
    rw [wordMoves, run_cons, runWords_succ]
    split
    · rfl
    · exact run_wordMoves i n _

/-- The moves of the turn of a macro, if it has one. -/
def turnMoves (score : Score) (i : Slot) (m : Machine) : List Move :=
  .countWait i :: if m.channels[i].countWait.2 then
    .wake i :: wordMoves score i macroBound
      ((m.onChannel i fun c => c.countWait.1).onChannel i fun c => { c with program.wait := 0 })
  else []

theorem run_turnMoves (i : Slot) (m : Machine) :
    run score rate (turnMoves score i m) m = m.takeTurn score i := by
  unfold turnMoves takeTurn
  rw [run_cons]
  rcases h : m.channels[i].countWait with ⟨c, _ | _⟩
  · exact congrArg (m.setChannel i) (congrArg Prod.fst h)
  · have hm : (m.onChannel i fun c => c.countWait.1) = m.setChannel i c :=
      congrArg (m.setChannel i) (congrArg Prod.fst h)
    simp only [if_true, run_cons, Move.apply, hm]
    exact run_wordMoves i macroBound _

/-- The moves of a channel's tick. -/
def channelMoves (score : Score) (i : Slot) (m : Machine) : List Move :=
  [.countLock i, .takeEffect i] ++
    turnMoves score i ((m.onChannel i Channel.countLock).takeEffect score i) ++ [.bend i, .load i]

theorem run_channelMoves (i : Slot) (m : Machine) :
    run score rate (channelMoves score i m) m = m.tickChannel score rate i := by
  have hfirst : run score rate [.countLock i, .takeEffect i] m =
      (m.onChannel i Channel.countLock).takeEffect score i := rfl
  have hlast : ∀ m : Machine,
      run score rate [.bend i, .load i] m = (m.bend i).loadVoice i rate := fun _ => rfl
  rw [channelMoves, run_append, run_append, hfirst, run_turnMoves, hlast, tickChannel]

/-- The moves of the ticks of some channels. -/
def channelsMoves (score : Score) (rate : UInt32) : List Slot → Machine → List Move
  | [], _ => []
  | i :: is, m => channelMoves score i m ++ channelsMoves score rate is (m.tickChannel score rate i)

theorem run_channelsMoves : ∀ (is : List Slot) (m : Machine),
    run score rate (channelsMoves score rate is m) m =
      is.foldl (fun m i => m.tickChannel score rate i) m
  | [], _ => rfl
  | i :: is, m => by
    rw [channelsMoves, run_append, run_channelMoves, List.foldl_cons]
    exact run_channelsMoves is _

/-- The moves of the tick of all channels. -/
def tickMoves (score : Score) (rate : UInt32) (m : Machine) : List Move :=
  channelsMoves score rate (channelOrder m.multi) m

theorem run_tickMoves (m : Machine) :
    run score rate (tickMoves score rate m) m = m.tickChannels score rate :=
  run_channelsMoves _ m

/-! ### The channels of moves -/

/-- The channel whose turn a move is of. -/
def Move.slot : Move → Slot
  | .countLock i | .takeEffect i | .countWait i | .wake i | .word i | .halt i | .bend i
  | .load i => i

theorem slot_of_mem_wordMoves {mv : Move} (i : Slot) : ∀ (n : Nat) (m : Machine),
    mv ∈ wordMoves score i n m → mv.slot = i := by
  intro n
  induction n with
  | zero =>
    intro m h
    rw [List.mem_singleton.1 h]
    rfl
  | succ n ih =>
    intro m h
    rw [wordMoves] at h
    rcases List.mem_cons.1 h with rfl | h
    · rfl
    · split at h
      · cases h
      · exact ih _ h

theorem slot_of_mem_channelMoves {mv : Move} {i : Slot} {m : Machine}
    (h : mv ∈ channelMoves score i m) : mv.slot = i := by
  unfold channelMoves turnMoves at h
  simp only [List.mem_append, List.mem_cons, List.not_mem_nil, or_false] at h
  rcases h with ((rfl | rfl) | rfl | h) | rfl | rfl
  · rfl
  · rfl
  · rfl
  · split at h
    · rcases List.mem_cons.1 h with rfl | h
      · rfl
      · exact slot_of_mem_wordMoves i _ _ h
    · cases h
  · rfl
  · rfl

theorem slot_of_mem_channelsMoves {mv : Move} : ∀ (is : List Slot) (m : Machine),
    mv ∈ channelsMoves score rate is m → mv.slot ∈ is := by
  intro is
  induction is with
  | nil =>
    rintro m ⟨⟩
  | cons i is ih =>
    intro m h
    rw [channelsMoves] at h
    rcases List.mem_append.1 h with h | h
    · rw [slot_of_mem_channelMoves h]
      exact List.mem_cons_self
    · exact List.mem_cons_of_mem i (ih _ h)

/-- What all moves of a channel leave, some of them leave. -/
theorem run_leaves {α : Type} {f : Machine → α} {i : Slot}
    (hf : ∀ (m : Machine) (mv : Move), mv.slot = i → f (mv.apply score rate m) = f m) :
    ∀ (ms : List Move) (m : Machine), (∀ mv ∈ ms, mv.slot = i) → f (run score rate ms m) = f m
  | [], _, _ => rfl
  | mv :: ms, m, h => by
    rw [run_cons, run_leaves hf ms _ fun mv' h' => h mv' (List.mem_cons_of_mem mv h'),
      hf m mv (h mv List.mem_cons_self)]

/-- So its tick leaves it. -/
theorem tickChannel_leaves {α : Type} {f : Machine → α} {i : Slot}
    (hf : ∀ (m : Machine) (mv : Move), mv.slot = i → f (mv.apply score rate m) = f m)
    (m : Machine) : f (m.tickChannel score rate i) = f m := by
  rw [← run_channelMoves]
  exact run_leaves hf _ m fun _ => slot_of_mem_channelMoves

/-- The channels up to the mask have ticks. -/
theorem mem_channelOrder_of_le {m : Machine} {i : Slot} (h : i.val ≤ m.channelMask.toNat) :
    i ∈ channelOrder m.multi := by
  have hall : ∀ i : Slot, i ∈ channelOrder true := by decide
  have hfour : ∀ i : Slot, i.val ≤ 3 → i ∈ channelOrder false := by decide
  unfold channelMask at h
  cases hm : m.multi with
  | true => exact hall _
  | false =>
    rw [hm] at h
    exact hfour _ h

/-- How many voices are heard is not for the channels to say. -/
theorem multi_apply (m : Machine) (mv : Move) : (mv.apply score rate m).multi = m.multi := by
  cases mv with
  | takeEffect i =>
    rw [Move.apply, takeEffect]
    split <;> rfl
  | word i =>
    rw [Move.apply, runWord]
    split <;> rfl
  | bend i =>
    rw [Move.apply, bend]
    simp only
    split_ifs <;> rfl
  | _ => rfl

end Machine

/-! ## All moves -/

/-- A move of the replay. -/
inductive Replay.Move where
  /-- A tick begins, in which the song has not ended yet. -/
  | begin
  /-- A move of a channel. -/
  | machine (mv : Machine.Move)
  /-- The ticks of the row count down. -/
  | countTick
  /-- A row begins. -/
  | startRow
  /-- A track begins its row. -/
  | enter (i : Slot)
  /-- A word of a track is run. -/
  | word (i : Slot)
  /-- The track that does not rest is stopped. -/
  | stop (i : Slot)
  /-- The position is over. -/
  | leave
  /-- A track step is read. -/
  | readStep
  /-- No track step plays patterns. -/
  | giveUp
  /-- The sound of the tick is made. -/
  | render
  /-- All is put back, for a sub-song to be started. -/
  | reset (multi : Bool)
  /-- A sub-song is entered. -/
  | select (song : Nat)
  /-- The sub-song begins to play. -/
  | enable (song : Nat)
  /-- The host chooses a position. -/
  | aim (position : Nat) (e : Timeline.Entry)
  /-- The host is told of the speed and the tempo there. -/
  | announce (speed : UInt16)
  /-- The host gives a channel a sound effect. -/
  | reserve (i : Slot) (code priority : UInt32)
  /-- The host takes the notices. -/
  | drain

namespace Replay

variable {score : Score} {rate : UInt32}

/-- The replay as a tick begins. -/
def begin (r : Replay) : Replay := { r with machine.master.ended := false }

/-- The replay as the ticks of its row have counted down. -/
def countTick (r : Replay) : Replay :=
  { r with age := r.age + 1, machine.master.speedCount := r.machine.master.speedCount - 1 }

/-- The replay as a row begins. -/
def startRow (r : Replay) : Replay := { r with machine.master.speedCount := r.place.speed }

/-- The replay as a track begins its row. -/
def enterTrack (i : Slot) (r : Replay) : Replay :=
  match Tracks.enter i r.tracks with
  | .idle tracks | .runs tracks => { r with tracks }
  | .switchesOff tracks channel => { r with tracks, machine := r.machine.channelOff channel }

/-- The replay after one word of a track. -/
def runWord (score : Score) (i : Slot) (r : Replay) : Replay :=
  let s := Tracks.step score i r.tracks
  { r with tracks := s.tracks, machine := r.machine.grant? score s.request }

/-- The replay at the position that comes after the one that is over. -/
def leave (r : Replay) : Replay :=
  if r.place.current = r.place.last then
    (notify { r with place.current := r.place.first } (.position 0)).reachEnd
  else r.nextPosition

theorem hushed_leave (r : Replay) : r.leave.hushed = { r.hushed with
    place.current :=
      if r.place.current = r.place.last then r.place.first else r.place.current + 1 } := by
  unfold leave
  split
  · exact hushed_reachEnd _
  · rfl

/-- The replay after the sound of a tick. -/
def render (bank : Bank) (rate : UInt32) (r : Replay) : Replay :=
  let (frames, clock) := r.clock.tick rate
  let rs := Mix.renderings bank r.machine.multi frames r.machine.voices
  { r with
    clock
    machine := Player.resume (rs.map (·.fired)) { r.machine with voices := rs.map (·.voice) } }

/-- The replay as a sub-song is entered. -/
def selectSong (score : Score) (n : Nat) (r : Replay) : Replay :=
  let m := { r.machine.master with
    enabled := false
    fade := { r.machine.master.fade with volume := 0x40, slope := 0 }
    trackLoop := -1
    patternFlag := false }
  let r := enterSong { r with machine.master := m } (score.subSong? n)
  { r with tracks := r.tracks.map fun (t : Track) =>
    { t.stop with base := 0, transpose := 0, step := 0 } }

/-- The replay as the sub-song begins to play. -/
def enable (n : Nat) (r : Replay) : Replay :=
  { r with
    machine.master := { r.machine.master with speedCount := 0, ended := false, enabled := true }
    song := Int32.ofNat n }

/-- The replay at a position that the host has chosen. -/
def aim (position : Nat) (e : Timeline.Entry) (r : Replay) : Replay :=
  let r := if e.clocks ≠ 0 then
      { r with machine.master.clocks := e.clocks, clock := r.clock.withClocks e.clocks }
    else r
  let current := r.place.first + UInt16.ofNat position
  { r with
    machine.master.speedCount := e.speed
    place.speed := e.speed
    place.current := current
    firstTime := current == r.place.first || r.firstTime }

/-- The replay with a sound effect that waits for a channel. -/
def reserve (i : Slot) (code priority : UInt32) (r : Replay) : Replay :=
  r.onMachine (·.onChannel i fun c =>
    { c with reservation.code := code, reservation.priority := priority })

/-- What a move does. -/
def Move.apply (score : Score) (rate : UInt32) (r : Replay) : Move → Replay
  | .begin => r.begin
  | .machine mv => r.onMachine (mv.apply score rate)
  | .countTick => r.countTick
  | .startRow => r.startRow
  | .enter i => r.enterTrack i
  | .word i => r.runWord score i
  | .stop i => { r with tracks := r.tracks.modify i Track.stop }
  | .leave => r.leave
  | .readStep => (r.readStep score).1
  | .giveUp => r.reachEnd
  | .render => r.render score.bank rate
  | .reset multi => (Replay.initial multi).reset
  | .select n => r.selectSong score n
  | .enable n => r.enable n
  | .aim position e => r.aim position e
  | .announce speed => (r.notify (.speed speed)).notify (.tempo (bpm r.machine.master.clocks))
  | .reserve i code priority => r.reserve i code priority
  | .drain => r.onMachine (·.drain.2)

/-- The replay after some moves. -/
def run (score : Score) (rate : UInt32) (ms : List Move) (r : Replay) : Replay :=
  ms.foldl (Move.apply score rate) r

theorem run_append (ms ns : List Move) (r : Replay) :
    run score rate (ms ++ ns) r = run score rate ns (run score rate ms r) :=
  List.foldl_append

theorem run_cons (mv : Move) (ms : List Move) (r : Replay) :
    run score rate (mv :: ms) r = run score rate ms (mv.apply score rate r) := rfl

/-- The moves of channels are made on the machine of the replay. -/
theorem run_map_machine : ∀ (ms : List Machine.Move) (r : Replay),
    run score rate (ms.map .machine) r = r.onMachine (Machine.run score rate ms)
  | [], _ => rfl
  | _ :: ms, _ => run_map_machine ms _

/-! ### Track steps -/

/-- The moves that read at most so many track steps. -/
def stepMoves (score : Score) : Nat → Replay → List Move
  | 0, _ => [.giveUp]
  | n + 1, r =>
    .readStep :: if (r.readStep score).2 then stepMoves score n (r.readStep score).1 else []

theorem run_stepMoves : ∀ (n : Nat) (r : Replay),
    run score rate (stepMoves score n r) r = readSteps score n r
  | 0, _ => rfl
  | n + 1, r => by
    rw [stepMoves, run_cons, readSteps]
    rcases h : r.readStep score with ⟨r', _ | _⟩
    · exact congrArg Prod.fst h
    · simp only [if_true, Move.apply, h]
      exact run_stepMoves n r'

/-- The moves that read track steps up to one that plays patterns. -/
def seekMoves (score : Score) (r : Replay) : List Move := stepMoves score stepBound r

theorem run_seekMoves (r : Replay) : run score rate (seekMoves score r) r = r.seekStep score := by
  rw [seekMoves, seekStep, run_stepMoves]

/-- The moves from a position that is over to the next one. -/
def leaveMoves (score : Score) (r : Replay) : List Move := .leave :: seekMoves score r.leave

theorem run_leaveMoves (r : Replay) :
    run score rate (leaveMoves score r) r = r.endPosition score := by
  rw [leaveMoves, run_cons, Move.apply, run_seekMoves]
  rfl

/-! ### Rows -/

/-- The moves of at most so many words of a track. -/
def wordMoves (score : Score) (i : Slot) : Nat → Replay → List Move
  | 0, _ => [.stop i]
  | n + 1, r =>
    .word i :: match (Tracks.step score i r.tracks).flow with
      | .goesOn => wordMoves score i n (r.runWord score i)
      | .rests | .finishes => []

theorem run_wordMoves (i : Slot) : ∀ (n : Nat) (r : Replay),
    run score rate (wordMoves score i n r) r =
      { r with
        tracks := (Tracks.playWords score i n r.tracks r.machine).1.1
        machine := (Tracks.playWords score i n r.tracks r.machine).1.2 }
  | 0, _ => rfl
  | n + 1, r => by
    rw [wordMoves, run_cons, Tracks.playWords]
    cases (Tracks.step score i r.tracks).flow with
    | goesOn => exact run_wordMoves i n _
    | rests => rfl
    | finishes => rfl

/-- The moves of the row of a track. -/
def trackMoves (score : Score) (i : Slot) (r : Replay) : List Move :=
  .enter i :: match Tracks.enter i r.tracks with
    | .idle _ | .switchesOff _ _ => []
    | .runs _ => wordMoves score i Tracks.rowBound (r.enterTrack i)

theorem run_trackMoves (i : Slot) (r : Replay) :
    run score rate (trackMoves score i r) r =
      { r with
        tracks := (Tracks.playRow score i r.tracks r.machine).1.1
        machine := (Tracks.playRow score i r.tracks r.machine).1.2 } := by
  rw [trackMoves, run_cons, Tracks.playRow, Move.apply, enterTrack]
  cases Tracks.enter i r.tracks with
  | idle tracks => rfl
  | switchesOff tracks channel => rfl
  | runs tracks => exact run_wordMoves i _ _

/-- The moves of the rows of some tracks. -/
def tracksMoves (score : Score) : List Slot → Replay → List Move
  | [], _ => []
  | i :: is, r =>
    trackMoves score i r ++ match Tracks.playRow score i r.tracks r.machine with
      | (_, true) => []
      | ((tracks, machine), false) => tracksMoves score is { r with tracks, machine }

theorem run_tracksMoves : ∀ (is : List Slot) (r : Replay),
    run score rate (tracksMoves score is r) r = (playTracks score is r).1
  | [], _ => rfl
  | i :: is, r => by
    rw [tracksMoves, run_append, run_trackMoves, playTracks]
    rcases Tracks.playRow score i r.tracks r.machine with ⟨⟨tracks, machine⟩, _ | _⟩
    · exact run_tracksMoves is _
    · rfl

/-- The moves of the row of all tracks, which begins anew at most so many
    times. -/
def rowsMoves (score : Score) : Nat → Replay → List Move
  | 0, _ => []
  | n + 1, r =>
    tracksMoves score Slot.all r ++ match playTracks score Slot.all r with
      | (r, true) => leaveMoves score r ++ rowsMoves score n (r.endPosition score)
      | (_, false) => []

theorem run_rowsMoves : ∀ (n : Nat) (r : Replay),
    run score rate (rowsMoves score n r) r = playRows score n r
  | 0, _ => rfl
  | n + 1, r => by
    rw [rowsMoves, run_append, run_tracksMoves, playRows]
    rcases playTracks score Slot.all r with ⟨r', _ | _⟩
    · rfl
    · simp only [run_append, run_leaveMoves]
      exact run_rowsMoves n _

/-- The moves of a row of the song. -/
def rowMoves (score : Score) (r : Replay) : List Move :=
  let played := playRows score restartBound r.startRow
  .startRow :: (rowsMoves score restartBound r.startRow ++
    if Tracks.allStopped played.tracks then leaveMoves score played else [])

theorem run_rowMoves (r : Replay) :
    run score rate (rowMoves score r) r = r.playRow score := by
  have hrow : r.playRow score =
      if Tracks.allStopped (playRows score restartBound r.startRow).tracks then
        (playRows score restartBound r.startRow).endPosition score
      else playRows score restartBound r.startRow := rfl
  rw [rowMoves, run_cons, run_append, Move.apply, run_rowsMoves, hrow]
  split
  · exact run_leaveMoves _
  · rfl

/-- The moves of the sequencer in a tick. -/
def sequencerMoves (score : Score) (r : Replay) : List Move :=
  .countTick :: if r.machine.master.speedCount ≠ 0 then [] else rowMoves score r.countTick

theorem run_sequencerMoves (r : Replay) :
    run score rate (sequencerMoves score r) r = r.tickTracks score := by
  have htick : r.tickTracks score =
      if r.machine.master.speedCount ≠ 0 then r.countTick else r.countTick.playRow score := rfl
  rw [sequencerMoves, run_cons, Move.apply, htick]
  split
  · rfl
  · exact run_rowMoves _

/-! ### Ticks -/

/-- The moves of a tick before its sound is made. -/
def advanceMoves (score : Score) (rate : UInt32) (r : Replay) : List Move :=
  .begin :: if r.begin.machine.master.enabled then
    (Machine.tickMoves score rate r.begin.machine).map .machine ++
      if 0 ≤ r.begin.song then sequencerMoves score (r.begin.onMachine (·.tickChannels score rate))
      else []
  else []

theorem run_advanceMoves (r : Replay) :
    run score rate (advanceMoves score rate r) r = Player.advance score rate r := by
  have hadvance : Player.advance score rate r =
      if r.begin.machine.master.enabled then
        if 0 ≤ r.begin.song then
          (r.begin.onMachine (·.tickChannels score rate)).tickTracks score
        else r.begin.onMachine (·.tickChannels score rate)
      else r.begin := rfl
  have hchannels : run score rate ((Machine.tickMoves score rate r.begin.machine).map .machine)
      r.begin = r.begin.onMachine (·.tickChannels score rate) := by
    rw [run_map_machine]
    unfold onMachine
    rw [Machine.run_tickMoves]
  rw [advanceMoves, run_cons, Move.apply, hadvance]
  split
  · rw [run_append, hchannels]
    split
    · exact run_sequencerMoves _
    · rfl
  · rfl

/-- The moves of a tick. -/
def tickMoves (score : Score) (rate : UInt32) (r : Replay) : List Move :=
  advanceMoves score rate r ++ [.render]

theorem run_tickMoves (r : Replay) : run score rate (tickMoves score rate r) r =
    (Player.advance score rate r).render score.bank rate := by
  rw [tickMoves, run_append, run_advanceMoves]
  rfl

/-! ### Kinds of moves -/

/-- Whether a move is one of a track in its row. -/
def Move.ofTrack : Move → Bool
  | .enter _ | .word _ | .stop _ => true
  | _ => false

/-- Whether a move is one of a row that has begun, or of a position that comes after
    one. -/
def Move.ofRow : Move → Bool
  | .enter _ | .word _ | .stop _ | .leave | .readStep | .giveUp => true
  | _ => false

/-- Whether a move is one of the song or of its tracks. -/
def Move.ofSong : Move → Bool
  | .countTick | .startRow | .enter _ | .word _ | .stop _ | .leave | .readStep | .giveUp => true
  | _ => false

section
variable {q : Move → Bool}

theorem all_stepMoves (hread : q .readStep = true) (hend : q .giveUp = true) :
    ∀ (n : Nat) (r : Replay), (stepMoves score n r).all q = true := by
  intro n
  induction n with
  | zero => exact fun _ => by rw [stepMoves, List.all_cons, hend]; rfl
  | succ n ih =>
    intro r
    rw [stepMoves, List.all_cons, hread]
    split
    · exact ih _
    · rfl

theorem all_wordMoves (hq : ∀ mv, mv.ofTrack = true → q mv = true) (i : Slot) :
    ∀ (n : Nat) (r : Replay), (wordMoves score i n r).all q = true := by
  intro n
  induction n with
  | zero => exact fun _ => by rw [wordMoves, List.all_cons, hq (.stop i) rfl]; rfl
  | succ n ih =>
    intro r
    rw [wordMoves, List.all_cons, hq (.word i) rfl]
    split
    · exact ih _
    · rfl
    · rfl

theorem all_tracksMoves (hq : ∀ mv, mv.ofTrack = true → q mv = true) :
    ∀ (is : List Slot) (r : Replay), (tracksMoves score is r).all q = true := by
  intro is
  induction is with
  | nil => exact fun _ => rfl
  | cons i is ih =>
    intro r
    rw [tracksMoves, List.all_append, trackMoves, List.all_cons, hq (.enter i) rfl,
      Bool.and_eq_true]
    constructor
    · split
      · rfl
      · rfl
      · exact all_wordMoves hq i _ _
    · split
      · rfl
      · exact ih _

variable (hq : ∀ mv, mv.ofRow = true → q mv = true)
include hq

theorem all_leaveMoves (r : Replay) : (leaveMoves score r).all q = true := by
  rw [leaveMoves, List.all_cons, hq .leave rfl, seekMoves,
    all_stepMoves (hq .readStep rfl) (hq .giveUp rfl)]
  rfl

theorem all_rowsMoves : ∀ (n : Nat) (r : Replay), (rowsMoves score n r).all q = true := by
  have htrack : ∀ mv : Move, mv.ofTrack = true → q mv = true := by
    intro mv h
    cases mv with
    | enter | word | stop => exact hq _ rfl
    | _ => cases h
  intro n
  induction n with
  | zero => exact fun _ => rfl
  | succ n ih =>
    intro r
    rw [rowsMoves, List.all_append, all_tracksMoves htrack, Bool.true_and]
    split
    · rw [List.all_append, all_leaveMoves hq, Bool.true_and]
      exact ih _
    · rfl

/-- What the moves of a row are that begin with its start. -/
theorem all_rowMoves (hstart : q .startRow = true) (r : Replay) :
    (rowMoves score r).all q = true := by
  rw [rowMoves, List.all_cons, hstart, List.all_append, all_rowsMoves hq]
  split
  · exact all_leaveMoves hq _
  · rfl

end

theorem all_ofSong_stepMoves : ∀ (n : Nat) (r : Replay),
    (stepMoves score n r).all Move.ofSong = true := all_stepMoves rfl rfl

theorem Move.ofSong_of_ofRow {mv : Move} (h : mv.ofRow = true) : mv.ofSong = true := by
  cases mv <;> first | rfl | cases h

/-- The moves of the sequencer are of the song. -/
theorem all_ofSong_sequencerMoves (r : Replay) :
    (sequencerMoves score r).all Move.ofSong = true := by
  rw [sequencerMoves, List.all_cons]
  split
  · rfl
  · exact all_rowMoves (fun _ => Move.ofSong_of_ofRow) rfl _

/-- What the moves of a tick are that come after its beginning: those of the channels and
    of the song, and its sound. -/
theorem exists_tickMoves {q : Move → Bool} (hmachine : ∀ mv, q (.machine mv) = true)
    (hsong : ∀ mv, mv.ofSong = true → q mv = true) (hrender : q .render = true) (r : Replay) :
    ∃ ms, tickMoves score rate r = .begin :: ms ∧ ms.all q = true := by
  have hsequencer : ∀ r : Replay, (sequencerMoves score r).all q = true := by
    intro r
    rw [List.all_eq_true]
    exact fun mv hmv => hsong mv (List.all_eq_true.1 (all_ofSong_sequencerMoves r) mv hmv)
  have hchannels : ∀ ms : List Machine.Move, (ms.map Move.machine).all q = true := by
    intro ms
    rw [List.all_map, List.all_eq_true]
    exact fun mv _ => hmachine mv
  refine ⟨_, List.cons_append, ?_⟩
  rw [List.all_append, List.all_cons, hrender]
  split
  · rw [List.all_append, hchannels]
    split
    · rw [hsequencer]
      rfl
    · rfl
  · rfl

theorem all_tickMoves {q : Move → Bool} (hbegin : q .begin = true)
    (hmachine : ∀ mv, q (.machine mv) = true) (hsong : ∀ mv, mv.ofSong = true → q mv = true)
    (hrender : q .render = true) (r : Replay) : (tickMoves score rate r).all q = true := by
  obtain ⟨ms, hms, hall⟩ := exists_tickMoves hmachine hsong hrender r
  rw [hms, List.all_cons, hbegin, hall]
  rfl

/-- The channel of a move is one that has ticks. -/
def Heard (r : Replay) : Move → Prop
  | .machine mv => mv.slot ∈ Machine.channelOrder r.machine.multi
  | .reserve i _ _ => i ∈ Machine.channelOrder r.machine.multi
  | _ => True

theorem heard_of_ofSong (r : Replay) {mv : Move} (h : mv.ofSong = true) : r.Heard mv := by
  cases mv with
  | machine | reserve => cases h
  | _ => trivial

/-! ## What moves keep -/

/-- Something holds of each of some moves, where it is made. -/
def Along (score : Score) (rate : UInt32) (Q : Replay → Move → Prop) :
    List Move → Replay → Prop
  | [], _ => True
  | mv :: ms, r => Q r mv ∧ Along score rate Q ms (mv.apply score rate r)

variable {Q : Replay → Move → Prop} {P : Replay → Prop}

instance decidableAlong [∀ r mv, Decidable (Q r mv)] : ∀ (ms : List Move) (r : Replay),
    Decidable (Along score rate Q ms r)
  | [], _ => inferInstanceAs (Decidable True)
  | mv :: ms, r =>
    have := decidableAlong ms (mv.apply score rate r)
    inferInstanceAs (Decidable (_ ∧ _))

/-- What moves keep that something holds of, a run of them keeps. -/
theorem Along.run (hmove : ∀ r mv, P r → Q r mv → P (mv.apply score rate r)) :
    ∀ (ms : List Move) {r : Replay}, Along score rate Q ms r → P r → P (run score rate ms r)
  | [], _, _, hr => hr
  | mv :: ms, r, ⟨hq, hms⟩, hr => Along.run hmove ms hms (hmove r mv hr hq)

theorem Along.append : ∀ (ms : List Move) {ns : List Move} {r : Replay},
    Along score rate Q ms r → Along score rate Q ns (Replay.run score rate ms r) →
      Along score rate Q (ms ++ ns) r
  | [], _, _, _, h => h
  | _ :: ms, _, _, ⟨hq, hms⟩, h => ⟨hq, Along.append ms hms h⟩

theorem Along.of_append : ∀ (ms : List Move) {ns : List Move} {r : Replay},
    Along score rate Q (ms ++ ns) r →
      Along score rate Q ms r ∧ Along score rate Q ns (Replay.run score rate ms r)
  | [], _, _, h => ⟨trivial, h⟩
  | _ :: ms, _, _, ⟨hq, h⟩ => ⟨⟨hq, (Along.of_append ms h).1⟩, (Along.of_append ms h).2⟩

/-- What holds of each move of a kind holds along moves of the kind. -/
theorem along_of_all {q : Move → Bool} (hq : ∀ r mv, q mv = true → Q r mv) :
    ∀ (ms : List Move) (r : Replay), ms.all q = true → Along score rate Q ms r
  | [], _, _ => trivial
  | mv :: ms, r, h => by
    rw [List.all_cons, Bool.and_eq_true] at h
    exact ⟨hq r mv h.1, along_of_all hq ms _ h.2⟩

theorem along_heard_machine : ∀ (ms : List Machine.Move) (r : Replay),
    (∀ mv ∈ ms, mv.slot ∈ Machine.channelOrder r.machine.multi) →
      Along score rate Heard (ms.map .machine) r
  | [], _, _ => trivial
  | mv :: ms, r, h => by
    refine ⟨h mv List.mem_cons_self, along_heard_machine ms _ fun mv' hmv' => ?_⟩
    rw [Move.apply, onMachine, Machine.multi_apply]
    exact h mv' (List.mem_cons_of_mem mv hmv')

/-- In a tick the channels that have ticks have their turns. -/
theorem along_heard_tickMoves (r : Replay) :
    Along score rate Heard (tickMoves score rate r) r := by
  have hsong : ∀ (ms : List Move) (r : Replay), ms.all Move.ofSong = true →
      Along score rate Heard ms r := along_of_all fun r _ => heard_of_ofSong r
  refine Along.append _ ⟨trivial, ?_⟩ ⟨trivial, trivial⟩
  split
  · refine Along.append _ (along_heard_machine _ _ fun mv hmv => ?_) ?_
    · exact Machine.slot_of_mem_channelsMoves _ _ hmv
    · split
      · exact hsong _ _ (all_ofSong_sequencerMoves _)
      · trivial
  · trivial

end Replay

namespace Player

variable {P : Replay → Prop} {allowed : Player → Action → Prop} {p : Player}

/-! ## Moves of a host -/

/-- The moves that begin a sub-song. -/
def startMoves (p : Player) (song : Nat) : List Replay.Move :=
  let multi := decide (p.tune.format = .sevenVoices)
  .reset multi :: .select song ::
    (Replay.seekMoves p.tune.score ((Replay.initial multi).reset.selectSong p.tune.score song) ++
      [.enable song])

/-- The moves to a position. -/
def aimMoves (p : Player) (position : Nat) (e : Timeline.Entry) : List Replay.Move :=
  .aim position e :: (Replay.seekMoves p.tune.score (p.replay.aim position e) ++
    [.announce e.speed])

/-- The moves of a tick. -/
def tickMoves (p : Player) : List Replay.Move :=
  Replay.tickMoves p.tune.score p.rate p.replay

/-- The replay of a player after some moves. -/
def run (p : Player) (ms : List Replay.Move) : Replay := Replay.run p.tune.score p.rate ms p.replay

theorem start_eq (score : Score) (n : Nat) (r : Replay) :
    r.start score n = ((r.selectSong score n).seekStep score).enable n := by
  unfold Replay.start
  rfl

theorem run_startMoves {q : Player} {song : Nat} (h : p.start song = .ok q) :
    p.run (p.startMoves song) = q.replay := by
  obtain ⟨-, -, -, -, hreplay⟩ := start_eq_ok h
  rw [hreplay, start_eq, run, startMoves, Replay.run_cons, Replay.run_cons, Replay.run_append,
    Replay.Move.apply, Replay.Move.apply, Replay.run_seekMoves, Replay.run_cons]
  rfl

theorem seek_replay (p : Player) (position : Nat) (e : Timeline.Entry) :
    (p.seek position e).replay =
      Replay.Move.apply p.tune.score p.rate
        ((p.replay.aim position e).seekStep p.tune.score) (.announce e.speed) := by
  unfold Player.seek
  rfl

theorem run_aimMoves (p : Player) (position : Nat) (e : Timeline.Entry) :
    p.run (p.aimMoves position e) = (p.seek position e).replay := by
  rw [seek_replay, run, aimMoves, Replay.run_cons, Replay.run_append, Replay.Move.apply,
    Replay.run_seekMoves, Replay.run_cons]
  rfl

theorem run_tickMoves (p : Player) : p.run p.tickMoves = p.tick.replay := Replay.run_tickMoves _

/-- An effect is reserved for a channel that has ticks, or refused. -/
theorem playEffect_eq (p : Player) (channel : Nat) (word priority : UInt32) :
    (p.playEffect channel word priority).2 = p ∨
      ∃ i code, i ∈ Machine.channelOrder p.replay.machine.multi ∧
        (p.playEffect channel word priority).2 =
          { p with replay := p.replay.reserve i code priority } := by
  unfold playEffect
  simp only
  split
  · next hc =>
    split
    · exact .inl rfl
    · exact .inr ⟨_, _, Machine.mem_channelOrder_of_le (i := ⟨channel, hc.2⟩) hc.1, rfl⟩
  · exact .inl rfl

theorem along_heard_startMoves (p : Player) (song : Nat) :
    Replay.Along p.tune.score p.rate Replay.Heard (p.startMoves song) p.replay := by
  refine ⟨trivial, trivial, Replay.Along.append _ ?_ ⟨trivial, trivial⟩⟩
  exact Replay.along_of_all (fun r _ => Replay.heard_of_ofSong r) _ _
    (Replay.all_ofSong_stepMoves _ _)

theorem along_heard_aimMoves (p : Player) (position : Nat) (e : Timeline.Entry) :
    Replay.Along p.tune.score p.rate Replay.Heard (p.aimMoves position e) p.replay := by
  refine ⟨trivial, Replay.Along.append _ ?_ ⟨trivial, trivial⟩⟩
  exact Replay.along_of_all (fun r _ => Replay.heard_of_ofSong r) _ _
    (Replay.all_ofSong_stepMoves _ _)

/-! ## What a host cannot change -/

section Heard

variable (hmove : ∀ score rate r (mv : Replay.Move), P r → r.Heard mv → P (mv.apply score rate r))
include hmove

theorem Fills.replay_keeps_heard {loops n : Nat} {out : Array Int16} {q : Player}
    (h : Fills loops n p out q) : P p.replay → P q.replay := by
  refine h.preserves (P := fun p => P p.replay) (fun p hp => ?_) fun _ _ hp => hp
  have ht : P p.tick.replay := by
    rw [← p.run_tickMoves]
    exact (Replay.along_heard_tickMoves p.replay).run (hmove _ _) _ hp
  rcases refill_cases p loops with ⟨-, he⟩ | ⟨-, he⟩ <;> rw [he] <;> exact ht

/-- What moves keep whose channels have ticks, a host keeps whatever it does. -/
theorem replay_keeps_heard (action : Action) (h : P p.replay) : P (p.perform action).replay := by
  have hrun : ∀ ms, Replay.Along p.tune.score p.rate Replay.Heard ms p.replay → P (p.run ms) :=
    fun ms hms => hms.run (hmove _ _) ms h
  cases action with
  | start song =>
    rw [perform]
    split
    · next hs =>
      rw [← run_startMoves hs]
      exact hrun _ (p.along_heard_startMoves song)
    · exact h
  | tick =>
    rw [perform, ← run_tickMoves]
    exact hrun _ (Replay.along_heard_tickMoves _)
  | fill n loops =>
    rw [perform]
    split
    · next hf => exact (fill_eq_ok_iff.1 hf).replay_keeps_heard hmove h
    · exact h
  | seek position e =>
    rw [perform, ← run_aimMoves]
    exact hrun _ (p.along_heard_aimMoves position e)
  | playEffect channel word priority =>
    rw [perform]
    rcases p.playEffect_eq channel word priority with he | ⟨i, code, hi, he⟩ <;> rw [he]
    · exact h
    · exact hrun [.reserve i code priority] ⟨hi, trivial⟩
  | drain => exact hrun [.drain] ⟨trivial, trivial⟩

/-- What holds before a song starts, and moves keep whose channels have ticks,
    holds of all players that a host comes to. -/
theorem Reachable.replay_keeps_heard (hreset : ∀ multi, P (Replay.initial multi).reset)
    (h : Reachable allowed p) : P p.replay := by
  induction h with
  | new h =>
    unfold Player.new at h
    split at h
    · cases h
    · rw [← run_startMoves h]
      exact (along_heard_startMoves _ 0).2.run (hmove _ _) _ (hreset _)
  | perform action _ _ ih => exact Player.replay_keeps_heard hmove action ih
  | restore _ _ _ ihq => exact ihq

end Heard

/-- What holds at first, and all moves keep, holds of all players that a host
    comes to. -/
theorem Reachable.replay_keeps (hinit : ∀ multi, P (Replay.initial multi))
    (hmove : ∀ score rate r (mv : Replay.Move), P r → P (mv.apply score rate r))
    (h : Reachable allowed p) : P p.replay :=
  h.replay_keeps_heard (fun score rate r mv hr _ => hmove score rate r mv hr) fun multi =>
    hmove p.tune.score p.rate (Replay.initial multi) (.reset multi) (hinit multi)

end Player

end PaulaReplay
