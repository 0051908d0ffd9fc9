/-
  Tempos: the tick clock runs at the tempo that was asked for last.

  * `clocksOf_ne_zero`, `tempoTiming_ne_zero`, `speedClocks?_ne_zero`,
    `timeShareClocks?_ne_zero`: no tempo that a tune can ask for gives a tick
    of no length, although the clocks of a slow one do not fit into 16 bits;
  * `Replay.InTime`: the clock and the register of the tempo agree;
  * `Replay.InTime.tickTracks`, `Replay.inTime_start`: the sequencer keeps it,
    and begins with it.
-/
import Mathlib.Tactic.IntervalCases
import PaulaReplay.Proofs.Board

namespace PaulaReplay

/-! ## Requests -/

/-- The clocks of a tempo before they are cut to 16 bits are no multiple of
    2 ^ 16: they pass it between the tempos 27 and 28. -/
theorem beatClocks_div_mod_ne_zero {t : Nat} (hl : 16 ≤ t) (hu : t < 65536) :
    1790456 / t % 65536 ≠ 0 := by
  rcases Nat.lt_or_ge t 28 with h | h
  · interval_cases t <;> decide
  · have hq : 1790456 / t ≤ 1790456 / 28 := Nat.div_le_div_left h (by decide)
    have hp : 0 < 1790456 / t := Nat.div_pos (by omega) (by omega)
    have hq : 1790456 / t < 65536 := by omega
    rw [Nat.mod_eq_of_lt hq]
    exact hp.ne'

theorem toNat_clocksOf (tempo : UInt32) :
    (clocksOf tempo).toNat = 1790456 / tempo.toNat % 65536 := by
  rw [clocksOf, UInt32.toNat_toUInt16, UInt32.toNat_div]
  rfl

theorem clocksOf_ne_zero {t : UInt32} (hl : 16 ≤ t.toNat) (hu : t.toNat < 65536) :
    clocksOf t ≠ 0 := by
  intro h
  have hz := congrArg UInt16.toNat h
  rw [toNat_clocksOf] at hz
  exact beatClocks_div_mod_ne_zero hl hu hz

theorem tempoTiming_ne_zero (tempo : UInt16) : (tempoTiming tempo).1 ≠ 0 := by
  unfold tempoTiming
  split
  · next h =>
    have hl : 16 ≤ tempo.toNat := UInt16.le_iff_toNat_le.1 h
    exact clocksOf_ne_zero (by rwa [UInt16.toNat_toUInt32])
      (by rw [UInt16.toNat_toUInt32]; exact tempo.toNat_lt)
  · exact show usualClocks ≠ 0 by decide

theorem speedClocks?_ne_zero {tempo clocks : UInt16} (h : speedClocks? tempo = some clocks) :
    clocks ≠ 0 := by
  unfold speedClocks? at h
  simp only at h
  split at h
  · next hc =>
    have hl : 15 < (tempo &&& 0x1ff).toNat := UInt16.lt_iff_toNat_lt.1 hc.2
    obtain rfl := Option.some.inj h
    exact clocksOf_ne_zero (by rw [UInt16.toNat_toUInt32]; omega)
      (by rw [UInt16.toNat_toUInt32]; exact UInt16.toNat_lt _)
  · cases h

theorem timeShareClocks?_ne_zero {percent clocks : UInt16}
    (h : timeShareClocks? percent = some clocks) : clocks ≠ 0 := by
  unfold timeShareClocks? at h
  split at h
  · cases h
  · obtain rfl := Option.some.inj h
    have hu := percent.toUInt8.toInt8.toInt_lt
    have hp : -32 ≤ max percent.toUInt8.toInt8.toInt (-0x20) := le_max_right _ _
    have hp' : max percent.toUInt8.toInt8.toInt (-0x20) < 128 :=
      max_lt (by simpa using hu) (by decide)
    generalize max percent.toUInt8.toInt8.toInt (-0x20) = p at hp hp'
    have hlow : 9736 ≤ 14318 * (p + 100) / 100 := by omega
    have hhigh : 14318 * (p + 100) / 100 < 65536 := by omega
    intro hz
    have hz : (14318 * (p + 100) / 100 % 2 ^ 16).toNat % 2 ^ 16 = 0 := congrArg UInt16.toNat hz
    omega

theorem StepCommand.clocks?_ne_zero {c : StepCommand} {clocks : UInt16}
    (h : c.clocks? = some clocks) : clocks ≠ 0 := by
  cases c with
  | speed ticks tempo => exact speedClocks?_ne_zero h
  | timeShare tempo => exact timeShareClocks?_ne_zero h
  | stop | loop | fade | idle => cases h

/-! ## The replay -/

namespace Replay

/-- The clock runs at the tempo asked for last, which is not zero, and carries
    `left` over. -/
structure InTime (left : UInt64) (r : Replay) : Prop where
  clock : r.clock = ⟨r.machine.master.clocks.toUInt32, left⟩
  clocks : r.machine.master.clocks ≠ 0

theorem InTime.congr {left : UInt64} {r r' : Replay} (h : r.InTime left)
    (hc : r'.clock = r.clock) (hm : r'.machine.master.clocks = r.machine.master.clocks) :
    r'.InTime left :=
  ⟨by rw [hc, hm, h.clock], by rw [hm]; exact h.clocks⟩

theorem inTime_setClocks {r : Replay} {left : UInt64} {clocks : UInt16}
    (hr : r.clock.remainder = left) (hc : clocks ≠ 0) : (r.setClocks clocks).InTime left :=
  ⟨congrArg (TickClock.mk clocks.toUInt32) hr, hc⟩

variable {left : UInt64} {r : Replay}

theorem InTime.notify (h : r.InTime left) (n : Notice) : (r.notify n).InTime left :=
  h.congr rfl rfl

theorem InTime.reachEnd (h : r.InTime left) : r.reachEnd.InTime left :=
  h.congr rfl r.machine.clocks_reachEnd

theorem InTime.moveTo (h : r.InTime left) (current : UInt16) : (r.moveTo current).InTime left :=
  h.congr rfl rfl

theorem InTime.nextPosition (h : r.InTime left) : r.nextPosition.InTime left := h.moveTo _

/-! ## Track steps -/

theorem InTime.obey (h : r.InTime left) (c : StepCommand) : (r.obey c).1.InTime left := by
  have hclock : (r.obey c).1.clock = c.clocks?.elim r.clock r.clock.withClocks :=
    congrArg (·.clock) (r.hushed_obey c)
  have hclocks : (r.obey c).1.machine.master.clocks = c.clocks?.getD r.machine.master.clocks :=
    congrArg (·.machine.master.clocks) (r.hushed_obey c)
  cases hc : c.clocks? with
  | none =>
    rw [hc] at hclock hclocks
    exact h.congr hclock hclocks
  | some clocks =>
    rw [hc] at hclock hclocks
    rw [h.clock] at hclock
    refine ⟨hclock.trans ?_, ?_⟩
    · rw [hclocks]
      rfl
    · rw [hclocks]
      exact StepCommand.clocks?_ne_zero hc

theorem InTime.greetFirst (h : r.InTime left) : r.greetFirst.InTime left :=
  h.congr (congrArg (·.clock) r.hushed_greetFirst)
    (congrArg (·.machine.master.clocks) r.hushed_greetFirst)

theorem InTime.readStep (h : r.InTime left) (score : Score) :
    (r.readStep score).1.InTime left := by
  have h' : ({ r.greetFirst with age := 0 } : Replay).InTime left := h.greetFirst.congr rfl rfl
  unfold Replay.readStep
  simp only
  split
  · exact h'.reachEnd
  · split
    · exact h'.obey _
    · exact h'.congr rfl rfl

theorem InTime.readSteps (score : Score) : ∀ (n : Nat) {r : Replay}, r.InTime left →
    (readSteps score n r).InTime left
  | 0, _, h => h.reachEnd
  | n + 1, r, h => by
    have hs := h.readStep score
    rw [Replay.readSteps]
    split
    · next hr => rw [hr] at hs; exact InTime.readSteps score n hs
    · next hr => rw [hr] at hs; exact hs

theorem InTime.seekStep (h : r.InTime left) (score : Score) : (r.seekStep score).InTime left :=
  h.readSteps score stepBound

/-! ## Rows -/

theorem InTime.endPosition (h : r.InTime left) (score : Score) :
    (r.endPosition score).InTime left := by
  unfold Replay.endPosition
  simp only
  split
  · refine InTime.seekStep (InTime.reachEnd ?_) score
    exact h.congr rfl rfl
  · exact h.nextPosition.seekStep score

theorem InTime.playTracks (score : Score) : ∀ (is : List Slot) {r : Replay}, r.InTime left →
    (playTracks score is r).1.InTime left
  | [], _, h => h
  | i :: is, r, h => by
    have hm := Tracks.clocks_playRow score i r.tracks r.machine
    rw [Replay.playTracks]
    split
    · next hr => rw [hr] at hm; exact h.congr rfl hm
    · next hr => rw [hr] at hm; exact InTime.playTracks score is (h.congr rfl hm)

theorem InTime.playRows (score : Score) : ∀ (n : Nat) {r : Replay}, r.InTime left →
    (playRows score n r).InTime left
  | 0, _, h => h
  | n + 1, r, h => by
    have hp := h.playTracks score Slot.all
    rw [Replay.playRows]
    split
    · next hr => rw [hr] at hp; exact InTime.playRows score n (hp.endPosition score)
    · next hr => rw [hr] at hp; exact hp

theorem InTime.playRow (h : r.InTime left) (score : Score) : (r.playRow score).InTime left := by
  have h' : ({ r with machine.master.speedCount := r.place.speed } : Replay).InTime left :=
    h.congr rfl rfl
  unfold Replay.playRow
  simp only
  split
  · exact (h'.playRows score restartBound).endPosition score
  · exact h'.playRows score restartBound

/-- The sequencer keeps the clock at the tempo asked for last. -/
theorem InTime.tickTracks (h : r.InTime left) (score : Score) :
    (r.tickTracks score).InTime left := by
  unfold Replay.tickTracks
  simp only
  split
  · exact h.congr rfl rfl
  · refine InTime.playRow ?_ score
    exact h.congr rfl rfl

/-! ## Songs -/

theorem inTime_enterSong (hr : r.clock.remainder = left) (song? : Option SubSong) :
    (r.enterSong song?).InTime left := by
  unfold enterSong
  split
  · exact inTime_setClocks hr (tempoTiming_ne_zero _)
  · exact inTime_setClocks hr (by decide)

/-- A song begins in time, whatever was played before. -/
theorem inTime_start (hr : r.clock.remainder = left) (score : Score) (n : Nat) :
    (r.start score n).InTime left := by
  unfold Replay.start
  extract_lets _ _ _ _ r₁ r₂ r₃
  have h₁ : r₁.InTime left := inTime_enterSong (by exact hr) _
  have h₂ : r₂.InTime left := h₁.congr rfl rfl
  have h₃ : r₃.InTime left := h₂.seekStep score
  exact h₃.congr rfl rfl

end Replay

end PaulaReplay
