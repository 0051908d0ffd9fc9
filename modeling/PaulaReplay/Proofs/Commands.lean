/-
  Commands: what a command of a track step does, apart from what is said of the end.

  Some commands, and the first position where it is read again, say that the song has come to
  its end, a loop command perhaps twice.  This is kept in a flag, a count and the notices for
  the host; all else of the replay is as if nothing were said.

  * `StepCommand.destination`, `StepCommand.jumpsLeft` and others: what a command does to a
    register of the replay, and `StepCommand.change` what it does to all of them;
  * `Replay.hushed`: a replay without what is said of its end;
  * `Replay.loopEnds`, `Replay.greetingEnds`: how often a loop command, and a position that is
    read, say that the song has ended; `obeyLoop_eq`, `greetFirst_eq`: what they do besides;
  * `hushed_obey`, `hushed_greetFirst`: so what they do to a register can be read off a record.
-/
import Mathlib.Logic.Function.Iterate
import PaulaReplay.Engine.Sequencer

namespace PaulaReplay

/-! ## Commands -/

/-- The position to which a command leads. -/
def StepCommand.destination (p : Place) (jumps : Int16) : StepCommand → UInt16
  | .stop => p.current
  | .loop target _ => if jumps = 0 then p.current + 1 else max target p.first
  | .speed _ _ | .timeShare _ | .fade _ _ | .idle => p.current + 1

/-- The jumps that the track loop in hand still makes after a command. -/
def StepCommand.jumpsLeft (jumps : Int16) : StepCommand → Int16
  | .loop _ count =>
    if jumps = 0 then -1 else if jumps - 1 < 0 then count.toInt16 else jumps - 1
  | .stop | .speed _ _ | .timeShare _ | .fade _ _ | .idle => jumps

/-- The speed that a command sets. -/
def StepCommand.speed? : StepCommand → Option UInt16
  | .speed ticks _ => some ticks
  | _ => none

/-- The clocks that a command sets. -/
def StepCommand.clocks? : StepCommand → Option UInt16
  | .speed _ word => speedClocks? word
  | .timeShare word => timeShareClocks? word
  | _ => none

/-- A command has seven voices heard. -/
def StepCommand.sharesTime : StepCommand → Bool
  | .timeShare word => (timeShareClocks? word).isSome
  | _ => false

/-- The master volume after a command. -/
def StepCommand.slide (f : Fade) : StepCommand → Fade
  | .fade rate target => f.start rate.toUInt8.toInt8 target.toUInt8.toInt8
  | _ => f

/-- What a command does to a replay, but for what is said of the end. -/
def StepCommand.change (c : StepCommand) (r : Replay) : Replay :=
  { r with
    place.current := c.destination r.place r.machine.master.trackLoop
    place.speed := c.speed?.getD r.place.speed
    clock := c.clocks?.elim r.clock r.clock.withClocks
    machine.multi := c.sharesTime || r.machine.multi
    machine.master.clocks := c.clocks?.getD r.machine.master.clocks
    machine.master.trackLoop := c.jumpsLeft r.machine.master.trackLoop
    machine.master.speedCount := c.speed?.getD r.machine.master.speedCount
    machine.master.fade := c.slide r.machine.master.fade }

/-! ## The end of the song -/

/-- A machine but for whether and how often its song has ended, and for the notices. -/
def Machine.hushed (m : Machine) : Machine :=
  { m with master.ended := false, endCount := 0, notices := [] }

theorem Machine.hushed_reachEnd (m : Machine) : m.reachEnd.hushed = m.hushed := by
  unfold reachEnd
  split <;> rfl

namespace Replay

variable {r : Replay}

/-- A replay but for whether and how often its song has ended, and for the notices. -/
def hushed (r : Replay) : Replay := r.onMachine Machine.hushed

theorem hushed_reachEnd (r : Replay) : r.reachEnd.hushed = r.hushed :=
  congrArg (fun machine => { r with machine }) r.machine.hushed_reachEnd

/-- However often it is said that the song has ended, nothing else changes. -/
theorem hushed_ends : ∀ (n : Nat) (r : Replay), (reachEnd^[n] r).hushed = r.hushed
  | 0, _ => rfl
  | n + 1, r => (hushed_ends n r.reachEnd).trans (hushed_reachEnd r)

theorem reachEnd_if (r : Replay) (c : Prop) [Decidable c] :
    (if c then r.reachEnd else r) = reachEnd^[if c then 1 else 0] r := by
  split <;> rfl

/-- A loop command says so if it is not to be made, or has no end, and again if it leads back
    once its loop is done. -/
def loopEnds (r : Replay) (target count : UInt16) : Nat :=
  let jumps := r.machine.master.trackLoop
  let fresh := jumps - 1 < 0
  let left := if fresh then count.toInt16 else jumps - 1
  if jumps = 0 then 0
  else
    (if max target r.place.first < r.place.current ∧ left < 0 then 1 else 0) +
      if fresh ∧ (left = 0 ∨ 1000 < left) then 1 else 0

/-- The first position says so but for the first time. -/
def greetingEnds (r : Replay) : Nat :=
  if r.place.current = r.place.first ∧ r.firstTime = false then 1 else 0

/-- A loop command counts its jumps, says so often that the song has ended, and moves. -/
theorem obeyLoop_eq (r : Replay) (target count : UInt16) : r.obeyLoop target count =
    (reachEnd^[r.loopEnds target count] { r with
      machine.master.trackLoop :=
        (StepCommand.loop target count).jumpsLeft r.machine.master.trackLoop }).moveTo
      ((StepCommand.loop target count).destination r.place r.machine.master.trackLoop) := by
  rw [StepCommand.jumpsLeft, StepCommand.destination]
  unfold obeyLoop loopEnds
  extract_lets jumps machine master fresh left r₁ r₂ goal r₃
  split
  · rfl
  · have hr₂ : r₂ = reachEnd^[_] r₁ := reachEnd_if r₁ _
    have hplace : r₂.place = r.place := by
      rw [hr₂]
      exact congrArg (·.place) (hushed_ends _ r₁)
    have hgoal : goal = max target r.place.first := congrArg (max target ·.first) hplace
    have hr₃ : r₃ = reachEnd^[if max target r.place.first < r.place.current ∧ left < 0 then 1
        else 0] r₂ := by
      rw [← hgoal, ← hplace]
      exact reachEnd_if r₂ _
    rw [Function.iterate_add_apply, hr₃, hr₂, hgoal]

/-- A position that is read is no longer new, and the first one may say so. -/
theorem greetFirst_eq (r : Replay) : r.greetFirst = reachEnd^[r.greetingEnds] { r with
    firstTime := r.firstTime && decide (r.place.current ≠ r.place.first) } := by
  unfold greetFirst greetingEnds
  by_cases hfirst : r.place.current = r.place.first
  · rw [if_pos hfirst, decide_eq_false (not_not.2 hfirst), Bool.and_false]
    cases htime : r.firstTime with
    | true => rw [if_pos rfl, if_neg fun h => Bool.false_ne_true h.2.symm]; rfl
    | false =>
      rw [if_neg Bool.false_ne_true, if_pos ⟨hfirst, rfl⟩, ← htime]
      rfl
  · rw [if_neg hfirst, if_neg fun h => hfirst h.1, decide_eq_true hfirst, Bool.and_true]
    rfl

/-- A command changes what it changes, and nothing else but what is said of the end. -/
theorem hushed_obey (r : Replay) (c : StepCommand) :
    (r.obey c).1.hushed = (c.change r).hushed := by
  cases c with
  | stop => exact hushed_reachEnd r
  | loop target count =>
    have hmove : ∀ (s : Replay) (position : UInt16),
        (s.moveTo position).hushed = { s.hushed with place.current := position } :=
      fun _ _ => rfl
    rw [obey, obeyLoop_eq, hmove, hushed_ends]
    rfl
  | speed ticks tempo =>
    rw [obey, obeySpeed, StepCommand.change, StepCommand.clocks?]
    cases speedClocks? tempo <;> rfl
  | timeShare tempo =>
    rw [obey, obeyTimeShare, StepCommand.change, StepCommand.clocks?, StepCommand.sharesTime]
    cases timeShareClocks? tempo <;> rfl
  | fade | idle => rfl

theorem hushed_greetFirst (r : Replay) : r.greetFirst.hushed = { r.hushed with
    firstTime := r.firstTime && decide (r.place.current ≠ r.place.first) } := by
  rw [greetFirst_eq, hushed_ends]
  rfl

end Replay

end PaulaReplay
