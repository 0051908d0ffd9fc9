/-
  Ticks of a player: their lengths, and how long none has a frame.

  * `Player.Steady`: the rate is high enough, the clock is in time and carries
    at most one frame;
  * `Steady.tick`: a tick keeps it;
  * `Steady.tick_eq`: the frames of a tick against its exact length;
  * `Steady.idle_lt`: fewer than 179 ticks in a row are without frames.
-/
import Mathlib.Logic.Function.Iterate
import PaulaReplay.Player
import PaulaReplay.Proofs.Clock
import PaulaReplay.Proofs.Mix
import PaulaReplay.Proofs.Tempo

namespace PaulaReplay.Player

open Replay

/-- The lengths of ticks follow the tempo, and none is zero. -/
structure Steady (p : Player) : Prop where
  rate : minRate ≤ p.rate
  inTime : p.replay.InTime p.replay.clock.remainder
  carries : p.replay.clock.Carries

theorem inTime_self {r : Replay} (hc : r.clock.clocks = r.machine.master.clocks.toUInt32)
    (h0 : r.machine.master.clocks ≠ 0) : r.InTime r.clock.remainder :=
  ⟨congrArg (TickClock.mk · r.clock.remainder) hc, h0⟩

theorem inTime_advance {left : UInt64} {r : Replay} (h : r.InTime left) (score : Score)
    (rate : UInt32) : (advance score rate r).InTime left := by
  have h₀ : ({ r with machine.master.ended := false } : Replay).InTime left := h.congr rfl rfl
  unfold advance
  simp only
  split
  · have h₁ : (({ r with machine.master.ended := false } : Replay).onMachine
        (·.tickChannels score rate)).InTime left :=
      h₀.congr rfl (Machine.clocks_of_board (Machine.board_tickChannels score rate _))
    split
    · exact h₁.tickTracks score
    · exact h₁
  · exact h₀

/-- The replay of a player as the sound of its next tick is made. -/
def advanced (p : Player) : Replay := advance p.tune.score p.rate p.replay

theorem tick_clock (p : Player) : p.tick.replay.clock = (p.advanced.clock.tick p.rate).2 := rfl

theorem tick_frames (p : Player) : p.tick.mix.size = (p.advanced.clock.tick p.rate).1 := rfl

theorem tick_clocks (p : Player) :
    p.tick.replay.machine.master.clocks = p.advanced.machine.master.clocks := rfl

theorem tick_rate (p : Player) : p.tick.rate = p.rate := rfl

theorem iterate_tune (p : Player) : ∀ k : Nat, (tick^[k] p).tune = p.tune
  | 0 => rfl
  | k + 1 => by
    rw [Function.iterate_succ_apply']
    exact iterate_tune p k

theorem iterate_rate (p : Player) : ∀ k : Nat, (tick^[k] p).rate = p.rate
  | 0 => rfl
  | k + 1 => by
    rw [Function.iterate_succ_apply']
    exact iterate_rate p k

/-- A tick does not read what buffers have taken. -/
theorem tick_consumed (p : Player) (consumed available : Nat) :
    ({ p with consumed, available } : Player).tick = { p.tick with consumed, available } := rfl

theorem wellSized_tick (p : Player) : p.tick.mix.WellSized := Mixer.wellSized_play _ _ _ _ _

theorem loopCount_tick (p : Player) : p.tick.loopCount =
    if p.advanced.machine.endCount != p.replay.machine.endCount then p.loopCount + 1
    else p.loopCount := rfl

theorem loopCount_le_tick (p : Player) : p.loopCount ≤ p.tick.loopCount := by
  rw [loopCount_tick]
  split
  · exact Nat.le_succ _
  · exact le_rfl

namespace Steady

variable {p : Player}

theorem advanced (h : p.Steady) : p.advanced.InTime p.replay.clock.remainder :=
  inTime_advance h.inTime _ _

theorem advanced_carries (h : p.Steady) : p.advanced.clock.Carries := by
  rw [h.advanced.clock]; exact h.carries

theorem tick (h : p.Steady) : p.tick.Steady where
  rate := h.rate
  inTime := by
    refine inTime_self ?_ h.advanced.clocks
    rw [tick_clock, TickClock.tick_clocks, tick_clocks, h.advanced.clock]
  carries := h.advanced_carries.tick p.rate

/-- The frames of a tick, and what it carries over, make up its length. -/
theorem tick_eq (h : p.Steady) :
    p.tick.mix.size * 357955 + p.tick.replay.clock.remainder.toNat =
      p.replay.clock.remainder.toNat + TickClock.length p.tick.replay.clock.clocks p.rate := by
  have ht := h.advanced_carries.tick_eq p.rate
  rw [tick_frames, tick_clock, TickClock.tick_clocks, ht, h.advanced.clock]

theorem clocks_ne_zero (h : p.Steady) : p.replay.clock.clocks ≠ 0 := by
  intro h0
  rw [h.inTime.clock] at h0
  have hn := congrArg UInt32.toNat h0
  rw [UInt16.toNat_toUInt32] at hn
  exact h.inTime.clocks (UInt16.toNat_inj.1 hn)

/-- No tick is shorter than one clock at the lowest rate. -/
theorem length_ge (h : p.Steady) :
    2000 ≤ TickClock.length p.replay.clock.clocks p.rate := by
  have hr : 4000 ≤ p.rate.toNat := UInt32.le_iff_toNat_le.1 h.rate
  have hhalf : (p.rate >>> 1).toNat = p.rate.toNat / 2 := by
    rw [UInt32.toNat_shiftRight]; exact Nat.shiftRight_one _
  have hc : 1 ≤ p.replay.clock.clocks.toNat :=
    Nat.one_le_iff_ne_zero.2 fun h0 => h.clocks_ne_zero (UInt32.toNat_inj.1 h0)
  calc 2000 ≤ 1 * (p.rate >>> 1).toNat := by rw [hhalf]; omega
    _ ≤ TickClock.length p.replay.clock.clocks p.rate := Nat.mul_le_mul_right _ hc

theorem iterate (h : p.Steady) : ∀ k : Nat, (Player.tick^[k] p).Steady
  | 0 => h
  | k + 1 => by rw [Function.iterate_succ_apply']; exact (iterate h k).tick

/-- A tick without frames carries its length over. -/
theorem remainder_of_idle (h : p.Steady) (hz : p.tick.mix.size = 0) :
    p.replay.clock.remainder.toNat + 2000 ≤ p.tick.replay.clock.remainder.toNat := by
  have heq := h.tick_eq
  have hl := h.tick.length_ge
  rw [hz, tick_rate] at *
  omega

/-- Fewer than 179 ticks in a row are without frames: each of them adds to what
    is carried over, and that is no more than a frame. -/
theorem idle_lt (h : p.Steady) {k : Nat} (hz : ∀ i < k, (Player.tick^[i + 1] p).mix.size = 0) :
    k < 179 := by
  have hrem : ∀ j ≤ k, 2000 * j ≤ (Player.tick^[j] p).replay.clock.remainder.toNat := by
    intro j
    induction j with
    | zero => intro _; exact Nat.zero_le _
    | succ j ih =>
      intro hj
      have hidle := hz j hj
      rw [Function.iterate_succ_apply'] at hidle ⊢
      have := (h.iterate j).remainder_of_idle hidle
      have := ih (by omega)
      omega
  have hk := hrem k le_rfl
  have hc := TickClock.carries_iff.1 (h.iterate k).carries
  omega

end Steady

end PaulaReplay.Player
