/-
  The tick clock: the frames of a run of ticks against its exact length.

  * `TickClock.Carries`: what is carried over is at most one frame;
  * `TickClock.tick_eq` and `Carries.tick`: one tick gives away all it is
    given but for what it carries over;
  * `TickClock.run` is a run of ticks, `TickClock.due` its exact length;
  * `run_frames`: a run of any length is off by one frame at most.
-/
import Mathlib.Algebra.Order.Field.Basic
import Mathlib.Algebra.Order.Field.Rat
import Mathlib.Tactic.FieldSimp
import Mathlib.Tactic.Linarith
import PaulaReplay.Engine.Timing

namespace PaulaReplay.TickClock

/-- At most a whole frame is carried over: the comparison of `tick` is strict,
    so that it may be a whole one. -/
def Carries (c : TickClock) : Prop := c.remainder ≤ halfSecond

instance (c : TickClock) : Decidable c.Carries := inferInstanceAs (Decidable (_ ≤ _))

theorem carries_iff {c : TickClock} : c.Carries ↔ c.remainder.toNat ≤ 357955 :=
  UInt64.le_iff_toNat_le

/-- The length of a tick, in parts of a frame of which `halfSecond` make one. -/
def length (clocks rate : UInt32) : Nat := clocks.toNat * (rate >>> 1).toNat

theorem length_lt (clocks rate : UInt32) : length clocks rate < 2 ^ 64 := by
  have hc := clocks.toNat_lt
  have hr := (rate >>> 1).toNat_lt
  calc length clocks rate < 2 ^ 32 * 2 ^ 32 := Nat.mul_lt_mul'' hc hr
    _ = 2 ^ 64 := by norm_num

theorem toNat_product (clocks rate : UInt32) :
    (clocks.toUInt64 * (rate >>> 1).toUInt64).toNat = length clocks rate := by
  rw [UInt64.toNat_mul, UInt32.toNat_toUInt64, UInt32.toNat_toUInt64]
  exact Nat.mod_eq_of_lt (length_lt clocks rate)

/-- What is carried over and what is left of a tick fit into 64 bits. -/
theorem Carries.toNat_left {c : TickClock} (h : c.Carries) (rate : UInt32) :
    (c.remainder + c.clocks.toUInt64 * (rate >>> 1).toUInt64 % halfSecond).toNat =
      c.remainder.toNat + length c.clocks rate % 357955 := by
  have hc := carries_iff.1 h
  have hm : length c.clocks rate % 357955 < 357955 := Nat.mod_lt _ (by decide)
  rw [UInt64.toNat_add, UInt64.toNat_mod, toNat_product]
  exact Nat.mod_eq_of_lt (show _ + length c.clocks rate % 357955 < _ by omega)

/-- So do the frames of a tick, with one more. -/
theorem toNat_frames_add_one (clocks rate : UInt32) :
    (clocks.toUInt64 * (rate >>> 1).toUInt64 / halfSecond + 1).toNat =
      length clocks rate / 357955 + 1 := by
  have hl := length_lt clocks rate
  rw [UInt64.toNat_add, UInt64.toNat_div, toNat_product]
  exact Nat.mod_eq_of_lt (show length clocks rate / 357955 + 1 < _ by omega)

/-- A tick in numbers without bounds. -/
theorem Carries.tick_cases {c : TickClock} (h : c.Carries) (rate : UInt32) :
    let left := c.remainder.toNat + length c.clocks rate % 357955
    (left ≤ 357955 ∧ (c.tick rate).1 = length c.clocks rate / 357955 ∧
      (c.tick rate).2.remainder.toNat = left) ∨
    (357955 < left ∧ (c.tick rate).1 = length c.clocks rate / 357955 + 1 ∧
      (c.tick rate).2.remainder.toNat + 357955 = left) := by
  intro left
  have hleft := h.toNat_left rate
  unfold tick
  simp only
  split
  · next hlt =>
    rw [UInt64.lt_iff_toNat_lt, hleft] at hlt
    have hlt : 357955 < left := hlt
    refine Or.inr ⟨hlt, toNat_frames_add_one c.clocks rate, ?_⟩
    rw [UInt64.toNat_sub_of_le _ _ (by rw [UInt64.le_iff_toNat_le, hleft]; exact hlt.le), hleft]
    exact Nat.sub_add_cancel hlt.le
  · next hge =>
    rw [UInt64.lt_iff_toNat_lt, hleft] at hge
    have hge : left ≤ 357955 := Nat.le_of_not_lt hge
    refine Or.inl ⟨hge, ?_, hleft⟩
    rw [UInt64.toNat_div, toNat_product]; rfl

/-- No part of a frame is lost in a tick. -/
theorem Carries.tick_eq {c : TickClock} (h : c.Carries) (rate : UInt32) :
    (c.tick rate).1 * 357955 + (c.tick rate).2.remainder.toNat =
      c.remainder.toNat + length c.clocks rate := by
  have hd := Nat.div_add_mod (length c.clocks rate) 357955
  rcases h.tick_cases rate with ⟨-, hn, hr⟩ | ⟨-, hn, hr⟩ <;> rw [hn] <;> omega

theorem Carries.tick {c : TickClock} (h : c.Carries) (rate : UInt32) :
    (c.tick rate).2.Carries := by
  have hc := carries_iff.1 h
  have hm : length c.clocks rate % 357955 < 357955 := Nat.mod_lt _ (by decide)
  rw [carries_iff]
  rcases h.tick_cases rate with ⟨hle, -, hr⟩ | ⟨-, -, hr⟩ <;> omega

theorem tick_clocks (c : TickClock) (rate : UInt32) : (c.tick rate).2.clocks = c.clocks := by
  unfold TickClock.tick; simp only; split <;> rfl

/-! ## Runs of ticks -/

/-- Ticks of given clocks at given rates: the frames of each, and the clock
    after the last one. -/
def run : List (UInt32 × UInt32) → TickClock → List Nat × TickClock
  | [], c => ([], c)
  | (clocks, rate) :: ticks, c =>
    let (n, c) := tick { c with clocks } rate
    let (ns, c) := run ticks c
    (n :: ns, c)

/-- The exact length of a run, in parts of a frame. -/
def due (ticks : List (UInt32 × UInt32)) : Nat := (ticks.map fun t => length t.1 t.2).sum

theorem run_cons (clocks rate : UInt32) (ticks : List (UInt32 × UInt32)) (c : TickClock) :
    run ((clocks, rate) :: ticks) c =
      ((tick { c with clocks } rate).1 :: (run ticks (tick { c with clocks } rate).2).1,
        (run ticks (tick { c with clocks } rate).2).2) := rfl

theorem due_cons (clocks rate : UInt32) (ticks : List (UInt32 × UInt32)) :
    due ((clocks, rate) :: ticks) = length clocks rate + due ticks := List.sum_cons

theorem Carries.run_carries : ∀ (ticks : List (UInt32 × UInt32)) {c : TickClock}, c.Carries →
    (run ticks c).2.Carries
  | [], _, h => h
  | (clocks, rate) :: ticks, c, h => by
    have h' : Carries { c with clocks } := h
    exact Carries.run_carries ticks (h'.tick rate)

theorem Carries.run_eq : ∀ (ticks : List (UInt32 × UInt32)) {c : TickClock}, c.Carries →
    (run ticks c).1.sum * 357955 + (run ticks c).2.remainder.toNat =
      c.remainder.toNat + due ticks
  | [], c, _ => by simp [run, due]
  | (clocks, rate) :: ticks, c, h => by
    have h' : Carries { c with clocks } := h
    have hhead := h'.tick_eq rate
    have htail := Carries.run_eq ticks (h'.tick rate)
    rw [run_cons, due_cons, List.sum_cons, Nat.add_mul, Nat.add_assoc, htail, ← Nat.add_assoc,
      hhead, Nat.add_assoc]

/-- Tick lengths do not drift.  Whatever the clocks and the rates of the ticks
    of a run, its frames and what it carries over make up its exact length; at
    most one frame is carried over after each tick, and so the frames are off
    by one at most. -/
theorem run_frames {c : TickClock} (h : c.Carries) (ticks : List (UInt32 × UInt32)) :
    (run ticks c).1.sum * 357955 + (run ticks c).2.remainder.toNat =
        c.remainder.toNat + due ticks ∧
      (∀ k, (run (ticks.take k) c).2.remainder.toNat ≤ 357955) ∧
      |((run ticks c).1.sum : ℚ) - due ticks / 357955| ≤ 1 := by
  have heq := h.run_eq ticks
  refine ⟨heq, fun k => carries_iff.1 (h.run_carries _), ?_⟩
  have hc : (c.remainder.toNat : ℚ) ≤ 357955 := by exact_mod_cast carries_iff.1 h
  have hr : ((run ticks c).2.remainder.toNat : ℚ) ≤ 357955 := by
    exact_mod_cast carries_iff.1 (h.run_carries ticks)
  have hq : ((run ticks c).1.sum : ℚ) * 357955 + (run ticks c).2.remainder.toNat =
      c.remainder.toNat + due ticks := by exact_mod_cast heq
  -- the error is the change of what is carried over, and both lie between none and one frame
  have herr : ((run ticks c).1.sum : ℚ) - due ticks / 357955 =
      (c.remainder.toNat - (run ticks c).2.remainder.toNat) / 357955 := by
    field_simp; linarith
  have hc0 : (0 : ℚ) ≤ c.remainder.toNat := Nat.cast_nonneg _
  have hr0 : (0 : ℚ) ≤ (run ticks c).2.remainder.toNat := Nat.cast_nonneg _
  rw [herr, abs_div, abs_of_pos (by norm_num : (0 : ℚ) < 357955), div_le_one (by norm_num), abs_le]
  constructor <;> linarith

/-- Two ticks at two tempos, after one that has left a whole frame over. -/
theorem run_frames_full_carry :
    run [(14318, 44100), (3503, 44100)] ⟨14318, 357955⟩ = ([882, 216], ⟨3503, 276415⟩) ∧
      (882 + 216) * 357955 + 276415 = 357955 + due [(14318, 44100), (3503, 44100)] :=
  ⟨by decide, (run_frames (c := ⟨14318, 357955⟩) (by decide) [(14318, 44100), (3503, 44100)]).1⟩

end PaulaReplay.TickClock
