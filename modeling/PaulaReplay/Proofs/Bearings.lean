/-
  Bearings: where a song stands, and what takes it on.

  Of all that a replay does, only the track steps that are read and the ends of
  positions take the song on: they set its position, its speed and tempo and the
  loop in hand.  Playback reads track steps in searches, a bounded number of them
  each time that a position is left.

  * `Bearing`: where a song stands, `Replay.bearing` for a replay;
  * `StepCommand.steer`: what a command does to it, and `bearing_obey` that the
    replay does so;
  * `Move.isAside`: the moves that leave the bearing, `bearing_apply`;
  * `Searching`: the moves of playback, with the track steps that the search in
    hand may still read; `searching_playMoves` for those from the start of a
    sub-song on.
-/
import PaulaReplay.Proofs.Itinerary
import PaulaReplay.Proofs.Settling

namespace PaulaReplay

/-! ## Bearings -/

/-- Where a song stands. -/
structure Bearing where
  /-- The position and the speed. -/
  place : Place
  /-- The clocks of a tick, and those that the tick clock runs at. -/
  clocks : UInt16
  tick : UInt32
  /-- Jumps the track loop in hand still makes, negative outside of loops. -/
  jumps : Int16
deriving DecidableEq

namespace Bearing

/-- At the next position. -/
def next (b : Bearing) : Bearing := { b with place.current := b.place.current + 1 }

/-- With ticks of another length, if there is one. -/
def withClocks (b : Bearing) : Option UInt16 → Bearing
  | some clocks => { b with clocks, tick := clocks.toUInt32 }
  | none => b

end Bearing

/-- What a command does to the bearing of a song. -/
def StepCommand.steer (b : Bearing) : StepCommand → Bearing
  | .stop => b
  | .loop target count =>
    { b with
      place.current := (StepCommand.loop target count).destination b.place b.jumps
      jumps := (StepCommand.loop target count).jumpsLeft b.jumps }
  | .speed ticks tempo => ({ b with place.speed := ticks }.withClocks (speedClocks? tempo)).next
  | .timeShare tempo => (b.withClocks (timeShareClocks? tempo)).next
  | .fade _ _ | .idle => b.next

namespace Machine

/-- No move of a channel is one of the board. -/
theorem board_apply (score : Score) (rate : UInt32) (m : Machine) (mv : Move) :
    (mv.apply score rate m).board = m.board := by
  cases mv with
  | countLock | countWait | wake | halt | load => rfl
  | takeEffect i => exact board_takeEffect score i m
  | word i =>
    rw [Move.apply, runWord]
    split <;> rfl
  | bend i => exact board_bend i m

end Machine

namespace Replay

variable {score : Score} {rate : UInt32} {r : Replay}

/-- Where the song of a replay stands. -/
def bearing (r : Replay) : Bearing :=
  ⟨r.place, r.machine.master.clocks, r.clock.clocks, r.machine.master.trackLoop⟩

theorem bearing_reachEnd (r : Replay) : r.reachEnd.bearing = r.bearing :=
  congrArg (·.bearing) (hushed_reachEnd r)

theorem bearing_greeted (r : Replay) : r.greeted.bearing = r.bearing :=
  congrArg (·.bearing) (hushed_greetFirst r)

/-- A command steers the song. -/
theorem bearing_obey (r : Replay) (c : StepCommand) : (r.obey c).1.bearing = c.steer r.bearing := by
  refine (congrArg (·.bearing) (hushed_obey r c)).trans ?_
  cases c with
  | speed ticks tempo =>
    rw [StepCommand.change, StepCommand.steer, StepCommand.clocks?]
    cases speedClocks? tempo <;> rfl
  | timeShare tempo =>
    rw [StepCommand.change, StepCommand.steer, StepCommand.clocks?]
    cases timeShareClocks? tempo <;> rfl
  | stop | loop | fade | idle => rfl

/-- A track step is read: the song goes on where a command steers it, or rests
    where it is. -/
theorem bearing_readStep_of_command {c : StepCommand}
    (hc : score.command? r.place.current = some c) :
    (r.readStep score).1.bearing = c.steer r.bearing ∧
      ((r.readStep score).2 = true ↔ c ≠ .stop) := by
  rw [readStep_of_command hc, bearing_obey, bearing_greeted]
  refine ⟨rfl, ⟨?_, fun h => obey_reads h _⟩⟩
  rintro h rfl
  cases h

theorem bearing_readStep_of_no_command (hc : score.command? r.place.current = none) :
    (r.readStep score).1.bearing = r.bearing ∧ (r.readStep score).2 = false := by
  refine ⟨?_, (readStep_of_no_command hc).2.1⟩
  rw [readStep_eq]
  cases ht : score.trackStep? r.place.current with
  | none => exact (bearing_reachEnd _).trans (bearing_greeted r)
  | some t =>
    have hnone : t.command? = none := by rwa [Score.command?, ht] at hc
    simp only [hnone]
    exact bearing_greeted r

/-- A position that is not the last one is followed by the next one. -/
theorem bearing_leave (h : r.place.current ≠ r.place.last) : r.leave.bearing = r.bearing.next := by
  rw [leave, if_neg h]
  rfl

/-! ## Moves aside -/

/-- Whether a move is none that takes the song on. -/
def Move.isAside : Move → Bool
  | .leave | .readStep | .giveUp | .reset _ | .select _ | .aim _ _ => false
  | _ => true

theorem bearing_apply (score : Score) (rate : UInt32) (r : Replay) {mv : Move}
    (hmv : mv.isAside = true) : (mv.apply score rate r).bearing = r.bearing := by
  cases mv with
  | begin | countTick | startRow | stop | announce | reserve | drain | enable => rfl
  | machine mv =>
    have hboard := Machine.board_apply score rate r.machine mv
    show Bearing.mk _ _ _ _ = _
    rw [Move.apply, onMachine, Machine.clocks_of_board hboard, Machine.trackLoop_of_board hboard]
    rfl
  | enter i =>
    rw [Move.apply, enterTrack]
    split
    · rfl
    · rfl
    · next tracks channel _ =>
      show Bearing.mk _ _ _ _ = _
      simp only [Machine.clocks_channelOff, trackLoop_channelOff]
      rfl
  | word i =>
    show Bearing.mk _ _ _ _ = _
    simp only [Move.apply, runWord, Machine.clocks_grant?, trackLoop_grant?]
    rfl
  | render => exact congrArg (Bearing.mk _ _ · _) (TickClock.tick_clocks r.clock rate)
  | _ => cases hmv

/-! ## Searches -/

/-- Moves as playback makes them, with the track steps that the search in hand may
    still read, before and after them: a track step is read in a search only, which
    is given up when it may read no more, and begins as a position is left. -/
inductive Searching (score : Score) (rate : UInt32) :
    Option Nat → List Move → Replay → Option Nat → Prop
  | nil {f : Option Nat} {r : Replay} : Searching score rate f [] r f
  | aside {f g : Option Nat} {mv : Move} {ms : List Move} {r : Replay} :
      mv.isAside = true → Searching score rate f ms (mv.apply score rate r) g →
      Searching score rate f (mv :: ms) r g
  | reads {n : Nat} {g : Option Nat} {ms : List Move} {r : Replay} :
      Searching score rate (if (r.readStep score).2 then some n else none) ms
        (r.readStep score).1 g →
      Searching score rate (some (n + 1)) (.readStep :: ms) r g
  | givesUp {g : Option Nat} {ms : List Move} {r : Replay} :
      Searching score rate none ms r.reachEnd g →
      Searching score rate (some 0) (.giveUp :: ms) r g
  | leaves {g : Option Nat} {ms : List Move} {r : Replay} :
      Searching score rate (some stepBound) ms r.leave g →
      Searching score rate none (.leave :: ms) r g

namespace Searching

variable {f g h : Option Nat} {ms ns : List Move}

theorem append (hms : Searching score rate f ms r g)
    (hns : Searching score rate g ns (run score rate ms r) h) :
    Searching score rate f (ms ++ ns) r h := by
  induction hms with
  | nil => exact hns
  | aside hmv _ ih => exact .aside hmv (ih hns)
  | reads _ ih => exact .reads (ih hns)
  | givesUp _ ih => exact .givesUp (ih hns)
  | leaves _ ih => exact .leaves (ih hns)

theorem of_append : ∀ (ms : List Move) {f : Option Nat} {r : Replay},
    Searching score rate f (ms ++ ns) r h →
      ∃ g, Searching score rate f ms r g ∧ Searching score rate g ns (run score rate ms r) h
  | [], f, _, hns => ⟨f, .nil, hns⟩
  | mv :: ms, f, r, hmoves => by
    rw [List.cons_append] at hmoves
    cases hmoves with
    | aside hmv hrest =>
      obtain ⟨g, hms, hns⟩ := of_append ms hrest
      exact ⟨g, .aside hmv hms, hns⟩
    | reads hrest =>
      obtain ⟨g, hms, hns⟩ := of_append ms hrest
      exact ⟨g, .reads hms, hns⟩
    | givesUp hrest =>
      obtain ⟨g, hms, hns⟩ := of_append ms hrest
      exact ⟨g, .givesUp hms, hns⟩
    | leaves hrest =>
      obtain ⟨g, hms, hns⟩ := of_append ms hrest
      exact ⟨g, .leaves hms, hns⟩

theorem of_aside : ∀ (ms : List Move) (r : Replay), ms.all Move.isAside = true →
    Searching score rate f ms r f
  | [], _, _ => .nil
  | mv :: ms, _, hms => by
    rw [List.all_cons, Bool.and_eq_true] at hms
    exact .aside hms.1 (of_aside ms _ hms.2)

end Searching

theorem Move.isAside_of_isQuiet {mv : Move} (h : mv.isQuiet = true) : mv.isAside = true := by
  cases mv <;> first | rfl | cases h

theorem all_isAside_of_isQuiet {ms : List Move} (h : ms.all Move.isQuiet = true) :
    ms.all Move.isAside = true := by
  rw [List.all_eq_true] at h ⊢
  exact fun mv hmv => Move.isAside_of_isQuiet (h mv hmv)

/-- A search for at most `n` track steps. -/
theorem searching_stepMoves (score : Score) (rate : UInt32) : ∀ (n : Nat) (r : Replay),
    Searching score rate (some n) (stepMoves score n r) r none
  | 0, _ => .givesUp .nil
  | n + 1, r => by
    rw [stepMoves]
    refine .reads ?_
    split
    · exact searching_stepMoves score rate n _
    · exact .nil

theorem searching_leaveMoves (score : Score) (rate : UInt32) (r : Replay) :
    Searching score rate none (leaveMoves score r) r none :=
  .leaves (searching_stepMoves score rate stepBound _)

theorem searching_rowsMoves (score : Score) (rate : UInt32) : ∀ (n : Nat) (r : Replay),
    Searching score rate none (rowsMoves score n r) r none
  | 0, _ => .nil
  | n + 1, r => by
    rw [rowsMoves]
    refine (Searching.of_aside _ r (all_isAside_of_isQuiet (all_isQuiet_tracksMoves _ r))).append ?_
    rw [run_tracksMoves]
    split
    · next r' hplay =>
      rw [hplay]
      refine (searching_leaveMoves score rate r').append ?_
      rw [run_leaveMoves]
      exact searching_rowsMoves score rate n _
    · exact .nil

theorem searching_sequencerMoves (score : Score) (rate : UInt32) (r : Replay) :
    Searching score rate none (sequencerMoves score r) r none := by
  rw [sequencerMoves]
  refine .aside rfl ?_
  split
  · exact .nil
  · rw [rowMoves]
    refine .aside rfl ((searching_rowsMoves score rate _ _).append ?_)
    split
    · have hrun : run score rate (rowsMoves score restartBound r.countTick.startRow)
          r.countTick.startRow = playRows score restartBound r.countTick.startRow :=
        run_rowsMoves _ _
      show Searching score rate none _ (run score rate (rowsMoves score restartBound
        r.countTick.startRow) r.countTick.startRow) none
      rw [hrun]
      exact searching_leaveMoves score rate _
    · exact .nil

/-- The moves of a tick. -/
theorem searching_tickMoves (score : Score) (rate : UInt32) (r : Replay) :
    Searching score rate none (tickMoves score rate r) r none := by
  refine Searching.append ?_ (.aside rfl .nil)
  rw [advanceMoves]
  refine .aside rfl ?_
  split
  · refine Searching.append (Searching.of_aside _ _ ?_) ?_
    · rw [List.all_map, List.all_eq_true]
      exact fun _ _ => rfl
    · split
      · have hrun : run score rate ((Machine.tickMoves score rate r.begin.machine).map .machine)
            r.begin = r.begin.onMachine (·.tickChannels score rate) := by
          rw [run_map_machine]
          unfold onMachine
          rw [Machine.run_tickMoves]
        show Searching score rate none _ (run score rate ((Machine.tickMoves score rate
          r.begin.machine).map .machine) r.begin) none
        rw [hrun]
        exact searching_sequencerMoves score rate _
      · exact .nil
  · exact .nil

end Replay

namespace Player

theorem searching_ticksMoves : ∀ (k : Nat) (p : Player),
    Replay.Searching p.tune.score p.rate none (p.ticksMoves k) p.replay none
  | 0, _ => .nil
  | k + 1, p => by
    rw [ticksMoves]
    refine (Replay.searching_tickMoves p.tune.score p.rate p.replay).append ?_
    have hrun : Replay.run p.tune.score p.rate p.tickMoves p.replay = p.tick.replay :=
      p.run_tickMoves
    rw [← tickMoves, hrun]
    exact searching_ticksMoves k p.tick

/-- The moves from the start of a sub-song on begin with a search. -/
theorem searching_playMoves {p q : Player} {song : Nat} (h : p.start song = .ok q) (k : Nat) :
    ∃ ms, p.playMoves song q k =
        .reset (decide (p.tune.format = .sevenVoices)) :: .select song :: ms ∧
      Replay.Searching p.tune.score p.rate (some Replay.stepBound) ms
        ((Replay.initial (p.tune.format = .sevenVoices)).reset.selectSong p.tune.score song)
        none := by
  have htune : q.tune = p.tune := start_tune h
  obtain ⟨hrate, -⟩ := start_eq_ok h
  have hstart := run_startMoves h
  refine ⟨_, rfl, Replay.Searching.append (Replay.Searching.append
    (Replay.searching_stepMoves _ _ _ _) (.aside rfl .nil)) ?_⟩
  show Replay.Searching p.tune.score p.rate none _ (p.run (p.startMoves song)) none
  rw [hstart, ← htune, ← hrate]
  exact searching_ticksMoves k q

end Player

end PaulaReplay
