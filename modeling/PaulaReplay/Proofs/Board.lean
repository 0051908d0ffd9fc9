/-
  The board of a machine: what its channels leave as it is.

  A channel works its own registers and its voice, hands numbers to the host
  and slides the master volume.  All else of the machine is its board.
-/
import Mathlib.Tactic.SplitIfs
import PaulaReplay.Proofs.Commands

namespace PaulaReplay.Machine

/-- The registers of the replay but for the master volume, whether seven
    voices are heard, how often the song has ended, and the notices. -/
def board (m : Machine) : Master × Bool × UInt32 × List Notice :=
  ({ m.master with fade := {} }, m.multi, m.endCount, m.notices)

theorem clocks_of_board {m m' : Machine} (h : m'.board = m.board) :
    m'.master.clocks = m.master.clocks := congrArg (fun b => b.1.clocks) h

theorem trackLoop_of_board {m m' : Machine} (h : m'.board = m.board) :
    m'.master.trackLoop = m.master.trackLoop := congrArg (fun b => b.1.trackLoop) h

theorem multi_of_board {m m' : Machine} (h : m'.board = m.board) : m'.multi = m.multi :=
  congrArg (fun b => b.2.1) h

/-! ## Macros -/

theorem board_runWords (score : Score) (i : Slot) :
    ∀ (n : Nat) (m : Machine), (runWords score i n m).board = m.board
  | 0, _ => rfl
  | n + 1, m => by
    rw [runWords]
    cases (m.lane i).turn score with
    | goesOn l => exact board_runWords score i n _
    | rests l => rfl
    | cues l slot value => exact board_runWords score i n _
    | starts l w => exact board_runWords score i n _

theorem board_runMacro (score : Score) (i : Slot) (m : Machine) :
    (runMacro score i m).board = m.board := board_runWords score i _ _

/-! ## Ticks of channels -/

theorem board_takeEffect (score : Score) (i : Slot) (m : Machine) :
    (m.takeEffect score i).board = m.board := by
  unfold takeEffect; simp only; split <;> rfl

theorem board_takeTurn (score : Score) (i : Slot) (m : Machine) :
    (m.takeTurn score i).board = m.board := by
  unfold takeTurn
  split
  · exact board_runMacro score i _
  · rfl

theorem board_bend (i : Slot) (m : Machine) : (m.bend i).board = m.board := by
  unfold bend; simp only; split_ifs <;> rfl

theorem board_onChannel (i : Slot) (f : Channel → Channel) (m : Machine) :
    (m.onChannel i f).board = m.board := rfl

theorem board_loadVoice (i : Slot) (rate : UInt32) (m : Machine) :
    (m.loadVoice i rate).board = m.board := rfl

theorem board_tickChannel (score : Score) (rate : UInt32) (i : Slot) (m : Machine) :
    (m.tickChannel score rate i).board = m.board := by
  unfold tickChannel
  rw [board_loadVoice, board_bend, board_takeTurn, board_takeEffect, board_onChannel]

theorem board_foldl_tickChannel (score : Score) (rate : UInt32) : ∀ (is : List Slot) (m : Machine),
    (is.foldl (fun m i => m.tickChannel score rate i) m).board = m.board
  | [], _ => rfl
  | i :: is, m => by
    rw [List.foldl_cons, board_foldl_tickChannel score rate is, board_tickChannel]

/-- The channels leave the board as it is in their ticks. -/
theorem board_tickChannels (score : Score) (rate : UInt32) (m : Machine) :
    (m.tickChannels score rate).board = m.board := board_foldl_tickChannel score rate _ m

/-- A channel that is switched off leaves it too. -/
theorem board_channelOff (n : Nat) (m : Machine) : (m.channelOff n).board = m.board := by
  unfold channelOff
  split
  · simp only
    split <;> rfl
  · rfl

/-! ## Clocks -/

theorem clocks_reachEnd (m : Machine) : m.reachEnd.master.clocks = m.master.clocks :=
  congrArg (·.master.clocks) m.hushed_reachEnd

theorem clocks_channelOff (n : Nat) (m : Machine) :
    (m.channelOff n).master.clocks = m.master.clocks := clocks_of_board (board_channelOff n m)

/-- Nothing that a pattern asks for changes the clocks of a tick. -/
theorem clocks_grant (score : Score) (m : Machine) (r : Request) :
    (m.grant score r).master.clocks = m.master.clocks := by
  cases r with
  | endSong => exact clocks_reachEnd m
  | _ => rfl

theorem clocks_grant? (score : Score) (m : Machine) (r : Option Request) :
    (m.grant? score r).master.clocks = m.master.clocks := by
  cases r with
  | none => rfl
  | some r => exact clocks_grant score m r

end PaulaReplay.Machine

namespace PaulaReplay.Tracks

theorem clocks_playWords (score : Score) (i : Slot) : ∀ (n : Nat) (ts : Tracks) (m : Machine),
    (playWords score i n ts m).1.2.master.clocks = m.master.clocks
  | 0, _, _ => rfl
  | n + 1, ts, m => by
    have hg := m.clocks_grant? score (step score i ts).request
    rw [playWords]
    cases (step score i ts).flow with
    | goesOn => exact (clocks_playWords score i n _ _).trans hg
    | rests => exact hg
    | finishes => exact hg

theorem clocks_playRow (score : Score) (i : Slot) (ts : Tracks) (m : Machine) :
    (playRow score i ts m).1.2.master.clocks = m.master.clocks := by
  unfold playRow
  cases enter i ts with
  | idle ts => rfl
  | switchesOff ts channel => exact m.clocks_channelOff channel
  | runs ts => exact clocks_playWords score i rowBound ts m

end PaulaReplay.Tracks
