/-
  Swings: what a channel moves to and fro.

  The vibrato and the movement of the sample start go the same way: in each tick by a step,
  and when a timer is over the step turns round.  The vibrato begins in the middle of a leg,
  with half of its timer, and the sample start at the beginning of one, after a step that
  its word has made already; both come back to where they were in as many ticks as two legs
  take.

  * `Swing`: a position, a step and a timer, and `Swing.phase` how it stands at each tick of
    a whole movement; `Swing.next_phase` is one tick;
  * `iterate_cycle`: what a step hands on along a cycle, some steps hand on;
  * `Channel.swaying_bend`, `Channel.sweeping_bend`: the registers of a channel move like one
    where none of them wraps;
  * `Replay.swings_return`: a vibrato and a movement of the sample start are back after two
    legs, and never leave their way.
-/
import PaulaReplay.Proofs.Approach
import PaulaReplay.Proofs.Bending
import PaulaReplay.Proofs.Positions

namespace PaulaReplay

/-! ## Movements -/

/-- A position that moves by a step in each tick until its timer is over. -/
structure Swing where
  position : Int
  step : Int
  time : Nat
deriving DecidableEq, Repr

namespace Swing

variable {reset k : Nat} {base step : Int}

/-- One tick: when the timer is over, the step turns round. -/
def next (reset : Nat) (s : Swing) : Swing :=
  if s.time = 1 then ⟨s.position + s.step, -s.step, reset⟩
  else ⟨s.position + s.step, s.step, s.time - 1⟩

/-- The movement between `base` and the position that is `reset` steps from it, after `k`
    ticks of the way there and back. -/
def phase (reset : Nat) (base step : Int) (k : Nat) : Swing :=
  if k < reset then ⟨base + k * step, step, reset - k⟩
  else ⟨base + (2 * reset - k : Nat) * step, -step, 2 * reset - k⟩

/-- The steps between `base` and where the movement is then. -/
def offset (reset k : Nat) : Nat := if k < reset then k else 2 * reset - k

theorem offset_le : offset reset k ≤ reset := by
  unfold offset
  split <;> omega

theorem position_phase : (phase reset base step k).position = base + offset reset k * step := by
  unfold phase offset
  split <;> rfl

theorem time_phase_pos (hk : k < 2 * reset) : 0 < (phase reset base step k).time := by
  unfold phase
  split
  · exact Nat.sub_pos_of_lt ‹_›
  · exact Nat.sub_pos_of_lt hk

theorem natAbs_step_phase : (phase reset base step k).step.natAbs = step.natAbs := by
  unfold phase
  split
  · rfl
  · exact Int.natAbs_neg step

theorem position_next (reset : Nat) (s : Swing) :
    (s.next reset).position = s.position + s.step := by
  unfold next
  split <;> rfl

/-- A tick leads to the next phase, and from the last one back to the first. -/
theorem next_phase (hk : k < 2 * reset) :
    (phase reset base step k).next reset = phase reset base step ((k + 1) % (2 * reset)) := by
  by_cases hout : k < reset
  · rw [Nat.mod_eq_of_lt (by omega), phase, if_pos hout, phase]
    by_cases hturn : k + 1 < reset
    · rw [if_pos hturn, next, if_neg (by simp only; omega), natCast_succ_mul, Int.add_assoc,
        Nat.sub_sub]
    · have hlast : 2 * reset - (k + 1) = k + 1 := by omega
      have htime : reset - k = 1 := by omega
      rw [if_neg hturn, hlast, next, if_pos htime, natCast_succ_mul, Int.add_assoc]
      exact congrArg (Swing.mk _ _) (by omega)
  · rw [phase, if_neg hout]
    obtain ⟨j, hj⟩ : ∃ j, 2 * reset - k = j + 1 := ⟨2 * reset - k - 1, by omega⟩
    rw [hj, natCast_succ_mul]
    by_cases hturn : j = 0
    · have hlast : k + 1 = 2 * reset := by omega
      have hreset : 0 < reset := by omega
      rw [hlast, Nat.mod_self, phase, if_pos hreset, hturn, next, if_pos rfl]
      simp
    · have hnext : 2 * reset - (k + 1) = j := by omega
      rw [Nat.mod_eq_of_lt (by omega), phase, if_neg (by omega), hnext, next,
        if_neg (by simp only; omega)]
      simp only [Nat.add_sub_cancel, Swing.mk.injEq, and_true]
      omega

/-- A tick as a channel makes it, with a timer of eight bits. -/
theorem next_mk {time : UInt8} (h : time ≠ 0) (position step : Int) (reset : UInt8) :
    next reset.toNat ⟨position, step, time.toNat⟩ =
      ⟨position + step, if time - 1 = 0 then -step else step,
        (if time - 1 = 0 then reset else time - 1).toNat⟩ := by
  have htime := toNat_sub_one_add_one h
  have hover : time - 1 = 0 ↔ time.toNat = 1 := by
    rw [← UInt8.toNat_inj, UInt8.toNat_zero]
    omega
  rw [next]
  by_cases h1 : time.toNat = 1
  · rw [if_pos h1, if_pos (hover.2 h1), if_pos (hover.2 h1)]
  · rw [if_neg h1, if_neg fun h0 => h1 (hover.1 h0), if_neg fun h0 => h1 (hover.1 h0)]
    exact congrArg (Swing.mk _ _) (by simp only; omega)

end Swing

/-! ## Channels -/

namespace Channel

variable {c c' : Channel}

/-- The vibrato as a movement. -/
def swaying (c : Channel) : Swing :=
  ⟨c.vibrato.offset.toInt, c.vibrato.width.toInt, c.vibrato.time.toNat⟩

/-- The movement of the sample start. -/
def sweeping (c : Channel) : Swing :=
  ⟨c.region.address.toNat, c.sweep.step.toInt, c.sweep.time.toNat⟩

theorem position_swaying (c : Channel) : c.swaying.position = c.vibrato.offset.toInt := rfl

theorem step_swaying (c : Channel) : c.swaying.step = c.vibrato.width.toInt := rfl

theorem time_swaying (c : Channel) : c.swaying.time = c.vibrato.time.toNat := rfl

/-! ### The vibrato -/

theorem vibrato_sway (h : c.vibrato.reset ≠ 0) : c.sway.vibrato = { c.vibrato with
    offset := c.vibrato.offset + c.vibrato.width.toInt16
    time := if c.vibrato.time - 1 = 0 then c.vibrato.reset else c.vibrato.time - 1
    width := if c.vibrato.time - 1 = 0 then -c.vibrato.width else c.vibrato.width } := by
  rw [sway, if_neg h]

theorem sway_congr (hv : c'.vibrato = c.vibrato) : c'.sway.vibrato = c.sway.vibrato := by
  unfold sway
  simp only [hv]
  split
  · exact hv
  · rfl

theorem vibrato_bend (c : Channel) : c.bend.vibrato = c.sway.vibrato := by
  have hcongr : c.sweepOn.groundSweep.sway.vibrato = c.sway.vibrato :=
    sway_congr (by rw [sweepOn_frame])
  rw [bend, swell_frame, slideOn_frame]
  exact hcongr

theorem swaying_bend (hreset : c.vibrato.reset ≠ 0) (htime : c.vibrato.time ≠ 0)
    (hwidth : -128 < c.vibrato.width.toInt)
    (hlo : -32768 ≤ c.vibrato.offset.toInt + c.vibrato.width.toInt)
    (hhi : c.vibrato.offset.toInt + c.vibrato.width.toInt ≤ 32767) :
    c.bend.swaying = c.swaying.next c.vibrato.reset.toNat ∧
      c.bend.vibrato.reset = c.vibrato.reset ∧ c.bend.vibrato.flag = c.vibrato.flag := by
  have hwlt := c.vibrato.width.toInt_lt
  have hadd : (c.vibrato.offset + c.vibrato.width.toInt16).toInt =
      c.vibrato.offset.toInt + c.vibrato.width.toInt := by
    rw [Int16.toInt_add, Int8.toInt_toInt16]
    exact Int.bmod_eq_of_le (by omega) (by omega)
  have hneg : (-c.vibrato.width).toInt = -c.vibrato.width.toInt := by
    rw [Int8.toInt_neg]
    exact Int.bmod_eq_of_le (by omega) (by omega)
  rw [swaying, swaying, Swing.next_mk htime, vibrato_bend, vibrato_sway hreset]
  refine ⟨?_, rfl, rfl⟩
  simp only [hadd, Swing.mk.injEq, true_and, and_true]
  rw [apply_ite Int8.toInt, hneg]

/-- A way through the middle is never more than half of a leg from there. -/
theorem natAbs_from_middle {h j : Nat} (hj : j ≤ 2 * h) (width : Int) :
    (-(h * width) + j * width).natAbs ≤ width.natAbs * h := by
  have hmul : -(h * width) + j * width = width * ((j : Int) - h) := by
    rw [Int.mul_sub, Int.mul_comm width, Int.mul_comm width]
    omega
  rw [hmul, Int.natAbs_mul]
  exact Nat.mul_le_mul_left _ (by omega)

/-- A vibrato of a timer of `2 * h`, after `k` ticks of the way there and back. -/
structure Vibrates (vibrato : Vibrato) (h : Nat) (width : Int) (k : Nat) (c : Channel) : Prop where
  swaying : c.swaying = Swing.phase (2 * h) (-(h * width)) width k
  reset : c.vibrato.reset = vibrato.reset
  flag : c.vibrato.flag = vibrato.flag

section

variable {vibrato : Vibrato} {h k : Nat} {width : Int}

theorem Vibrates.position (hc : c.Vibrates vibrato h width k) :
    c.vibrato.offset.toInt.natAbs ≤ width.natAbs * h := by
  have hposition : c.vibrato.offset.toInt = _ :=
    (congrArg Swing.position hc.swaying).trans Swing.position_phase
  rw [hposition]
  exact natAbs_from_middle Swing.offset_le width

/-- In each phase the registers have room for the next step. -/
theorem Vibrates.bend (hreset : vibrato.reset.toNat = 2 * h) (hwidth : width.natAbs ≤ 127)
    (hk : k < 2 * (2 * h)) (hc : c.Vibrates vibrato h width k) :
    c.bend.Vibrates vibrato h width ((k + 1) % (2 * (2 * h))) ∧
      c.bend.vibrato.offset.toInt = c.vibrato.offset.toInt + c.vibrato.width.toInt := by
  have hh : h ≤ 127 := by
    have hlt := vibrato.reset.toNat_lt
    omega
  have hbound : width.natAbs * h ≤ 127 * 127 := Nat.mul_le_mul hwidth hh
  have hnext : (Swing.phase (2 * h) (-(h * width)) width k).next (2 * h) =
      Swing.phase (2 * h) (-(h * width)) width ((k + 1) % (2 * (2 * h))) := Swing.next_phase hk
  have htime : 0 < c.swaying.time := hc.swaying ▸ Swing.time_phase_pos hk
  have hstep : c.swaying.step.natAbs = width.natAbs := by
    rw [hc.swaying]
    exact Swing.natAbs_step_phase
  have hsum : c.swaying.position + c.swaying.step =
      (Swing.phase (2 * h) (-(h * width)) width ((k + 1) % (2 * (2 * h)))).position := by
    rw [← hnext, Swing.position_next, hc.swaying]
  have hroom : (c.swaying.position + c.swaying.step).natAbs ≤ width.natAbs * h := by
    rw [hsum, Swing.position_phase]
    exact natAbs_from_middle Swing.offset_le width
  have hn : c.vibrato.reset ≠ 0 := fun h0 => by
    rw [← hc.reset, h0] at hreset
    have hzero : (0 : UInt8).toNat = 0 := rfl
    omega
  have ht : c.vibrato.time ≠ 0 := fun h0 => by
    rw [time_swaying, h0] at htime
    exact Nat.lt_irrefl 0 htime
  rw [step_swaying] at hstep
  rw [position_swaying, step_swaying] at hroom
  obtain ⟨hswaying, hreset', hflag⟩ := swaying_bend hn ht (by omega) (by omega) (by omega)
  have hphase : c.bend.swaying = Swing.phase (2 * h) (-(h * width)) width
      ((k + 1) % (2 * (2 * h))) := by
    rw [hswaying, hc.reset, hreset, hc.swaying, hnext]
  refine ⟨⟨hphase, hreset'.trans hc.reset, hflag.trans hc.flag⟩, ?_⟩
  rw [← position_swaying, hphase, ← hsum]
  rfl

/-- In one phase there is one vibrato. -/
theorem Vibrates.unique (hc : c.Vibrates vibrato h width k) (hc' : c'.Vibrates vibrato h width k) :
    c.vibrato = c'.vibrato := by
  have hswing := hc.swaying.trans hc'.swaying.symm
  have hoffset : c.vibrato.offset = c'.vibrato.offset :=
    Int16.toInt_inj.1 (congrArg Swing.position hswing)
  have hwidth : c.vibrato.width = c'.vibrato.width :=
    Int8.toInt_inj.1 (congrArg Swing.step hswing)
  have htime : c.vibrato.time = c'.vibrato.time :=
    UInt8.toNat_inj.1 (congrArg Swing.time hswing)
  calc c.vibrato = ⟨c.vibrato.reset, c.vibrato.time, c.vibrato.width, c.vibrato.offset,
        c.vibrato.flag⟩ := rfl
    _ = c'.vibrato := by rw [hc.reset, hc.flag, hoffset, hwidth, htime, ← hc'.reset, ← hc'.flag]

end

/-! ### The sample start -/

theorem region_bend (c : Channel) : c.bend.region = c.sweepOn.groundSweep.region := by
  rw [bend, swell_frame, slideOn_frame, sway_frame]

theorem sweep_bend (c : Channel) : c.bend.sweep = c.sweepOn.groundSweep.sweep := by
  rw [bend, swell_frame, slideOn_frame, sway_frame]

theorem toNat_add_toUInt32 {a : UInt32} {s : Int32} (hlo : 0 ≤ (a.toNat : Int) + s.toInt)
    (hhi : (a.toNat : Int) + s.toInt < 2 ^ 31) :
    ((a + s.toUInt32).toNat : Int) = a.toNat + s.toInt := by
  have hs : s.toInt = if 2 * s.toUInt32.toNat < 2 ^ 32 then (s.toUInt32.toNat : Int)
      else s.toUInt32.toNat - (2 ^ 32 : Nat) := BitVec.toInt_eq_toNat_cond s.toBitVec
  have halt := a.toNat_lt
  have hslt := s.toUInt32.toNat_lt
  rw [UInt32.toNat_add]
  split at hs <;> omega

theorem groundSweep_of_lt (h : c.region.address.toNat < 2 ^ 31) : c.groundSweep = c := by
  have haddress : c.region.address.toInt32.toInt = c.region.address.toNat :=
    BitVec.toInt_eq_toNat_of_lt (by
      have hnat : c.region.address.toInt32.toBitVec.toNat = c.region.address.toNat := rfl
      omega)
  have hnot : ¬ c.region.address.toInt32 < 0 := by
    rw [Int32.lt_iff_toInt_lt, haddress, Int32.toInt_zero]
    omega
  exact if_neg hnot

theorem sweeping_bend (htime : c.sweep.time ≠ 0) (hstep : -2 ^ 31 < c.sweep.step.toInt)
    (hlo : 0 ≤ (c.region.address.toNat : Int) + c.sweep.step.toInt)
    (hhi : (c.region.address.toNat : Int) + c.sweep.step.toInt < 2 ^ 31) :
    c.bend.sweeping = c.sweeping.next c.sweep.reset.toNat ∧
      c.bend.sweep.reset = c.sweep.reset ∧
      c.bend.region = { c.region with
        address := c.bend.region.address, savedAddress := c.bend.region.address } := by
  have hadd := toNat_add_toUInt32 hlo hhi
  have hslt := c.sweep.step.toInt_lt
  have hneg : (-c.sweep.step).toInt = -c.sweep.step.toInt := by
    rw [Int32.toInt_neg]
    exact Int.bmod_eq_of_le (by omega) (by omega)
  have hon : c.sweepOn = { c with
      region.address := c.region.address + c.sweep.step.toUInt32
      region.savedAddress := c.region.address + c.sweep.step.toUInt32
      sweep.time := if c.sweep.time - 1 = 0 then c.sweep.reset else c.sweep.time - 1
      sweep.step := if c.sweep.time - 1 = 0 then -c.sweep.step else c.sweep.step } :=
    if_neg htime
  have hground : c.sweepOn.groundSweep = c.sweepOn := by
    refine groundSweep_of_lt ?_
    rw [hon]
    simp only
    omega
  rw [sweeping, region_bend, sweep_bend, hground, hon, sweeping, Swing.next_mk htime]
  refine ⟨?_, rfl, rfl⟩
  simp only [hadd, Swing.mk.injEq, true_and, and_true]
  rw [apply_ite Int32.toInt, hneg]

/-- A sample start that moves between `base` and the address that is `reset` steps from it,
    after `k` ticks of the way there and back. -/
structure Sweeps (region : Region) (reset : UInt8) (base step : Int) (k : Nat) (c : Channel) :
    Prop where
  sweeping : c.sweeping = Swing.phase reset.toNat base step k
  reset : c.sweep.reset = reset
  region : c.region =
    { region with address := c.region.address, savedAddress := c.region.address }

section

variable {region : Region} {reset : UInt8} {base step : Int} {k : Nat}

theorem position_sweeping (c : Channel) : c.sweeping.position = c.region.address.toNat := rfl

theorem step_sweeping (c : Channel) : c.sweeping.step = c.sweep.step.toInt := rfl

theorem time_sweeping (c : Channel) : c.sweeping.time = c.sweep.time.toNat := rfl

/-- Where the whole way lies in the address space, each step does. -/
theorem Sweeps.bend (hroom : ∀ j : Nat, j ≤ reset.toNat → 0 ≤ base + j * step ∧
      base + j * step < 2 ^ 31) (hstep : step.natAbs < 2 ^ 31) (hk : k < 2 * reset.toNat)
    (hc : c.Sweeps region reset base step k) :
    c.bend.Sweeps region reset base step ((k + 1) % (2 * reset.toNat)) ∧
      (c.bend.region.address.toNat : Int) = c.region.address.toNat + c.sweep.step.toInt := by
  have hnext : (Swing.phase reset.toNat base step k).next reset.toNat =
      Swing.phase reset.toNat base step ((k + 1) % (2 * reset.toNat)) := Swing.next_phase hk
  have htime : 0 < c.sweeping.time := hc.sweeping ▸ Swing.time_phase_pos hk
  have hwidth : c.sweeping.step.natAbs = step.natAbs := by
    rw [hc.sweeping]
    exact Swing.natAbs_step_phase
  have hsum : c.sweeping.position + c.sweeping.step =
      (Swing.phase reset.toNat base step ((k + 1) % (2 * reset.toNat))).position := by
    rw [← hnext, Swing.position_next, hc.sweeping]
  have hfits : 0 ≤ c.sweeping.position + c.sweeping.step ∧
      c.sweeping.position + c.sweeping.step < 2 ^ 31 := by
    rw [hsum, Swing.position_phase]
    exact hroom _ Swing.offset_le
  have ht : c.sweep.time ≠ 0 := fun h0 => by
    rw [time_sweeping, h0] at htime
    exact Nat.lt_irrefl 0 htime
  rw [step_sweeping] at hwidth
  rw [position_sweeping, step_sweeping] at hfits
  obtain ⟨hsweeping, hreset, hregion⟩ := sweeping_bend ht (by omega) hfits.1 hfits.2
  have hphase : c.bend.sweeping = Swing.phase reset.toNat base step
      ((k + 1) % (2 * reset.toNat)) := by
    rw [hsweeping, hc.reset, hc.sweeping, hnext]
  refine ⟨⟨hphase, hreset.trans hc.reset, ?_⟩, ?_⟩
  · refine hregion.trans ?_
    rw [hc.region]
  · rw [← position_sweeping, hphase, ← hsum]
    rfl

/-- In one phase there is one region and one movement. -/
theorem Sweeps.unique (hc : c.Sweeps region reset base step k)
    (hc' : c'.Sweeps region reset base step k) :
    c.region = c'.region ∧ c.sweep = c'.sweep := by
  have hswing := hc.sweeping.trans hc'.sweeping.symm
  have haddress : c.region.address = c'.region.address :=
    UInt32.toNat_inj.1 (Int.ofNat.inj (congrArg Swing.position hswing))
  have hstep : c.sweep.step = c'.sweep.step := Int32.toInt_inj.1 (congrArg Swing.step hswing)
  have htime : c.sweep.time = c'.sweep.time := UInt8.toNat_inj.1 (congrArg Swing.time hswing)
  constructor
  · rw [hc.region, hc'.region, haddress]
  · calc c.sweep = ⟨c.sweep.step, c.sweep.time, c.sweep.reset⟩ := rfl
      _ = c'.sweep := by rw [hstep, htime, hc.reset, ← hc'.reset]

end

/-! ### Runs -/

/-- After each tick of a channel its vibrato has moved by its width and is within half of a
    leg, and after two legs it is as it was. -/
structure SwaysBack (c : Channel) (after : Nat → Channel) : Prop where
  moves : ∀ n, (after (n + 1)).vibrato.offset.toInt =
    (after n).vibrato.offset.toInt + (after n).vibrato.width.toInt
  within : ∀ n, (after n).vibrato.offset.toInt.natAbs ≤
    c.vibrato.width.toInt.natAbs * c.vibrato.reset.toNat / 2
  returns : ∀ n, (after (n + 2 * c.vibrato.reset.toNat)).vibrato = (after n).vibrato

/-- After each tick of a channel its sample start has moved by the step, and is where the
    saved one is, and after two legs region and movement are as they were. -/
structure SweepsBack (c : Channel) (after : Nat → Channel) : Prop where
  moves : ∀ n, ((after (n + 1)).region.address.toNat : Int) =
    (after n).region.address.toNat + (after n).sweep.step.toInt
  saved : ∀ n, (after n).region.savedAddress = (after n).region.address
  returns : ∀ n, (after (n + 2 * c.sweep.reset.toNat)).region = (after n).region ∧
    (after (n + 2 * c.sweep.reset.toNat)).sweep = (after n).sweep

/-- Two legs later the phase is the same. -/
theorem phase_add_period (k n period : Nat) : (k + (n + period)) % period = (k + n) % period := by
  rw [← Nat.add_assoc, Nat.add_mod_right]

/-- A vibrato that begins in the middle of a leg. -/
theorem swaysBack {h : Nat} (hh : 0 < h) (hreset : c.vibrato.reset.toNat = 2 * h)
    (htime : c.vibrato.time.toNat = h) (hoffset : c.vibrato.offset = 0)
    (hwidth : c.vibrato.width.toInt.natAbs ≤ 127) :
    c.SwaysBack fun n => Channel.bend^[n] c := by
  have hstart : c.Vibrates c.vibrato h c.vibrato.width.toInt h := by
    refine ⟨?_, rfl, rfl⟩
    rw [swaying, hoffset, htime, Swing.phase, if_pos (by omega), Int.add_left_neg, Int16.toInt_zero]
    exact congrArg (Swing.mk _ _) (by omega)
  have hrun : ∀ n : Nat, (Channel.bend^[n] c).Vibrates c.vibrato h c.vibrato.width.toInt
      ((h + n) % (2 * (2 * h))) :=
    iterate_cycle (J := Vibrates c.vibrato h c.vibrato.width.toInt)
      (fun k d hk hd => (Vibrates.bend hreset hwidth hk hd).1) (by omega) hstart
  have hmoves : ∀ n : Nat, (Channel.bend^[n + 1] c).vibrato.offset.toInt =
      (Channel.bend^[n] c).vibrato.offset.toInt + (Channel.bend^[n] c).vibrato.width.toInt := by
    intro n
    rw [Function.iterate_succ_apply']
    exact (Vibrates.bend hreset hwidth (Nat.mod_lt _ (by omega)) (hrun n)).2
  have hhalf : c.vibrato.width.toInt.natAbs * c.vibrato.reset.toNat / 2 =
      c.vibrato.width.toInt.natAbs * h := by
    rw [hreset, Nat.mul_left_comm, Nat.mul_div_cancel_left _ (by decide)]
  have hreturns : ∀ n : Nat,
      (Channel.bend^[n + 2 * (2 * h)] c).vibrato = (Channel.bend^[n] c).vibrato := by
    intro n
    have hback := hrun (n + 2 * (2 * h))
    rw [phase_add_period] at hback
    exact hback.unique (hrun n)
  exact ⟨hmoves, fun n => hhalf ▸ (hrun n).position, hreset ▸ hreturns⟩

/-- A sample start that begins at the beginning of a leg. -/
theorem sweepsBack (htime : c.sweep.time = c.sweep.reset) (hreset : c.sweep.reset ≠ 0)
    (hsaved : c.region.savedAddress = c.region.address)
    (hstep : c.sweep.step.toInt.natAbs < 2 ^ 31)
    (hroom : ∀ j : Nat, j ≤ c.sweep.reset.toNat →
      0 ≤ (c.region.address.toNat : Int) + j * c.sweep.step.toInt ∧
        (c.region.address.toNat : Int) + j * c.sweep.step.toInt < 2 ^ 31) :
    c.SweepsBack fun n => Channel.bend^[n] c := by
  have hpos : 0 < c.sweep.reset.toNat :=
    Nat.pos_of_ne_zero fun h0 => hreset (UInt8.toNat_inj.1 h0)
  have hstart : c.Sweeps c.region c.sweep.reset c.region.address.toNat c.sweep.step.toInt 0 := by
    refine ⟨?_, rfl, ?_⟩
    · rw [sweeping, htime, Swing.phase, if_pos hpos, Nat.cast_zero, Int.zero_mul, Int.add_zero,
        Nat.sub_zero]
    · calc c.region = ⟨c.region.address, c.region.savedAddress, c.region.savedLength,
            c.region.length⟩ := rfl
        _ = _ := by rw [hsaved]
  have hrun : ∀ n : Nat, (Channel.bend^[n] c).Sweeps c.region c.sweep.reset
      c.region.address.toNat c.sweep.step.toInt ((0 + n) % (2 * c.sweep.reset.toNat)) :=
    iterate_cycle (J := Sweeps c.region c.sweep.reset c.region.address.toNat c.sweep.step.toInt)
      (fun k d hk hd => (Sweeps.bend hroom hstep hk hd).1) (by omega) hstart
  have hmoves : ∀ n : Nat, ((Channel.bend^[n + 1] c).region.address.toNat : Int) =
      (Channel.bend^[n] c).region.address.toNat + (Channel.bend^[n] c).sweep.step.toInt := by
    intro n
    rw [Function.iterate_succ_apply']
    exact (Sweeps.bend hroom hstep (Nat.mod_lt _ (by omega)) (hrun n)).2
  have hreturns : ∀ n : Nat,
      (Channel.bend^[n + 2 * c.sweep.reset.toNat] c).region = (Channel.bend^[n] c).region ∧
        (Channel.bend^[n + 2 * c.sweep.reset.toNat] c).sweep = (Channel.bend^[n] c).sweep := by
    intro n
    have hback := hrun (n + 2 * c.sweep.reset.toNat)
    rw [phase_add_period] at hback
    exact hback.unique (hrun n)
  exact ⟨hmoves, fun n => congrArg Region.savedAddress (hrun n).region, hreturns⟩

/-! ### Words -/

/-- The timer of a vibrato is an even number, and begins with half of it. -/
theorem exists_half (b : UInt8) : ∃ h, (b &&& 0xfe).toNat = 2 * h ∧
    ((b &&& 0xfe) >>> 1).toNat = h := by
  have heven : (b.toNat &&& 254) % 2 ^ 1 = 0 := by
    rw [Nat.and_mod_two_pow]
    exact Nat.and_zero _
  have hand : (b &&& 0xfe).toNat = b.toNat &&& 254 := UInt8.toNat_and b 0xfe
  refine ⟨(b &&& 0xfe).toNat / 2, by omega, ?_⟩
  rw [UInt8.toNat_shiftRight, show (1 : UInt8).toNat % 8 = 1 from rfl, Nat.shiftRight_eq_div_pow]

/-- A word that sets a vibrato. -/
theorem receive_of_vibrato {score : Score} {w : Word} (hw : w.byte0 = 0xf6)
    (hlock : c.reservation.lock = 0) : c.receive score w = { c with vibrato :=
      { reset := w.byte1 &&& 0xfe, time := (w.byte1 &&& 0xfe) >>> 1, width := w.byte3.toInt8
        offset := 0, flag := true } } := by
  rw [receive, hw, if_neg (by decide), if_neg (not_not.2 hlock), if_neg (by decide),
    if_neg (by decide), setEffect, hw, if_neg (by decide), if_pos rfl]

end Channel

/-- A word of a macro that moves the sample start, now and in each tick. -/
theorem Machine.channels_addBegin {score : Score} {m : Machine} {i : Slot} {w : Word}
    (hw : score.word? m.channels[i].program.base m.channels[i].program.step = some w)
    (hcode : w.byte0 = 0x11) :
    let step := w.low.toInt16.toInt32
    let address := m.channels[i].region.address + step.toUInt32
    (m.runWord score i).channels[i] = { m.channels[i] with
      program.step := m.channels[i].program.step + 1
      sweep := { step, time := w.byte1, reset := w.byte1 }
      region.address := address
      region.savedAddress := address } := by
  have hadd : Operation.ofByte w.byte0 = .addBegin := by
    rw [hcode]
    rfl
  have hlane : (m.lane i).channel = m.channels[i] := rfl
  unfold Machine.runWord Lane.turn
  simp only [hlane, hw, hadd, Lane.execute, Word.byte1_withByte0, Word.low_withByte0]
  exact Octet.getElem_set_self _ _ _

/-! ## Replays -/

namespace Replay

/-- A vibrato that a word has set on a channel whose effects go on, and a movement of the
    sample start that a word of its macro has begun, are exactly periodic as long as the
    channel is left alone.  The vibrato moves by its width in each tick, without ever
    wrapping, stays within half a leg of the note, and is as it was after two legs.  The
    sample start moves by its step, with the saved one, and after two legs region and
    movement are as they were, where all addresses of a leg are below the half of the
    address space. -/
theorem swings_return {r : Replay} {i : Slot} (score : Score) (rate : UInt32)
    (hbending : 0 < r.machine.channels[i].bending) :
    (∀ w : Word, w.byte0 = 0xf6 → r.machine.channelOf w.byte2 = i →
      r.machine.channels[i].reservation.lock = 0 → 2 ≤ (w.byte1 &&& 0xfe).toNat →
      -127 ≤ w.byte3.toInt8.toInt →
      let armed := r.onMachine (·.dispatch score w)
      let c := armed.machine.channels[i]
      let after := armed.machine.bent i
      c.vibrato = { reset := w.byte1 &&& 0xfe, time := (w.byte1 &&& 0xfe) >>> 1
                    width := w.byte3.toInt8, offset := 0, flag := true } ∧
        c.SwaysBack after ∧
        ∀ ms, LeftAlone score rate i ms armed →
          (run score rate ms armed).machine.channels[i].vibrato =
            (after (ms.countP (Move.bends i))).vibrato) ∧
    (∀ w : Word,
      score.word? r.machine.channels[i].program.base r.machine.channels[i].program.step = some w →
      w.byte0 = 0x11 → w.byte1 ≠ 0 →
      let armed := r.onMachine (·.runWord score i)
      let c := armed.machine.channels[i]
      let after := armed.machine.bent i
      (∀ k : Nat, k ≤ w.byte1.toNat →
        0 ≤ (c.region.address.toNat : Int) + k * w.low.toInt16.toInt ∧
          (c.region.address.toNat : Int) + k * w.low.toInt16.toInt < 2 ^ 31) →
      c.sweep = { step := w.low.toInt16.toInt32, time := w.byte1, reset := w.byte1 } ∧
        c.SweepsBack after ∧
        ∀ ms, LeftAlone score rate i ms armed →
          (run score rate ms armed).machine.channels[i].region =
              (after (ms.countP (Move.bends i))).region ∧
            (run score rate ms armed).machine.channels[i].sweep =
              (after (ms.countP (Move.bends i))).sweep) := by
  constructor
  · intro w hw hi hlock hreset hwidth armed c after
    have hc : c = { r.machine.channels[i] with vibrato :=
        { reset := w.byte1 &&& 0xfe, time := (w.byte1 &&& 0xfe) >>> 1, width := w.byte3.toInt8
          offset := 0, flag := true } } :=
      ((Machine.channels_dispatch score r.machine w i).trans (if_pos hi)).trans
        (Channel.receive_of_vibrato hw hlock)
    have hbent : after = fun n => Channel.bend^[n] c := by
      have hpos : 0 < c.bending := by
        rw [hc]
        exact hbending
      exact funext (Machine.bent_eq hpos)
    obtain ⟨h, hdouble, hhalf⟩ := Channel.exists_half w.byte1
    have hwlt := w.byte3.toInt8.toInt_lt
    have hback : c.SwaysBack fun n => Channel.bend^[n] c := by
      refine Channel.swaysBack (h := h) (by omega) ?_ ?_ ?_ ?_
      · rw [hc]
        exact hdouble
      · rw [hc]
        exact hhalf
      · rw [hc]
      · rw [hc]
        simp only
        omega
    refine ⟨by rw [hc], hbent ▸ hback, fun ms hms => ?_⟩
    have hvibrato := congrArg Channel.vibrato (sound_run ms hms)
    exact hvibrato
  · intro w hw hcode hn armed c after hroom
    have hc : c = _ := Machine.channels_addBegin hw hcode
    have hsweep : c.sweep =
        { step := w.low.toInt16.toInt32, time := w.byte1, reset := w.byte1 } := by rw [hc]
    have hstep : c.sweep.step.toInt = w.low.toInt16.toInt := by
      rw [hsweep]
      exact Int16.toInt_toInt32 _
    have hbent : after = fun n => Channel.bend^[n] c := by
      have hpos : 0 < c.bending := by
        rw [hc]
        exact hbending
      exact funext (Machine.bent_eq hpos)
    have hlo := w.low.toInt16.le_toInt
    have hhi := w.low.toInt16.toInt_lt
    have hback : c.SweepsBack fun n => Channel.bend^[n] c := by
      refine Channel.sweepsBack ?_ ?_ ?_ ?_ fun k hk => ?_
      · rw [hsweep]
      · rw [hsweep]
        exact hn
      · rw [hc]
      · rw [hstep]
        omega
      · rw [hstep]
        rw [hsweep] at hk
        exact hroom k hk
    refine ⟨hsweep, hbent ▸ hback, fun ms hms => ?_⟩
    have hsound := sound_run ms hms
    have hregion := congrArg Channel.region hsound
    have hmovement := congrArg Channel.sweep hsound
    exact ⟨hregion, hmovement⟩

end Replay

namespace Player

/-- A tune whose macro waits, and then moves the sample start by 16 bytes in each tick, two
    ticks there and two back. -/
def swingTune : ByteArray :=
  smallTune 0x1000 [0x10000000, 0xf3ff0000]
    [0x02000100, 0x01010000, 0x04000003, 0x11020010, 0x07000000]

/-- After five ticks that word is the next one.  From there the sample start moves up to
    304, where it turns round; a vibrato that is set there goes up to 16. -/
theorem swings_return_swingTune : ∃ tune p q, ∃ swaying sweeping : Machine,
    load swingTune (some ⟨#[]⟩) = .ok tune ∧ Player.new tune minRate = .ok p ∧
      q = tick^[5] p ∧ 0 < q.replay.machine.channels[(0 : Slot)].bending ∧
      swaying = q.replay.machine.dispatch q.tune.score ⟨0xf6040008⟩ ∧
      swaying.channels[(0 : Slot)].SwaysBack (swaying.bent 0) ∧
      (swaying.bent 0 2).vibrato.offset = 16 ∧
      sweeping = q.replay.machine.runWord q.tune.score 0 ∧
      sweeping.channels[(0 : Slot)].SweepsBack (sweeping.bent 0) ∧
      (sweeping.bent 0 2).region.address = 304 := by
  have h : ((load swingTune (some ⟨#[]⟩)).toOption.bind fun tune =>
      (Player.new tune minRate).toOption.map fun p =>
        let q := tick^[5] p
        let c := q.replay.machine.channels[(0 : Slot)]
        (decide (0 < c.bending ∧ c.reservation.lock = 0 ∧
            q.replay.machine.channelOf (⟨0xf6040008⟩ : Word).byte2 = 0 ∧
            q.tune.score.word? c.program.base c.program.step = some ⟨0x11020010⟩),
          (q.replay.machine.runWord q.tune.score 0).channels[(0 : Slot)].region.address,
          ((q.replay.machine.dispatch q.tune.score ⟨0xf6040008⟩).bent 0 2).vibrato.offset,
          ((q.replay.machine.runWord q.tune.score 0).bent 0 2).region.address)) =
        some (true, 272, 16, 304) := by
    decide +kernel
  obtain ⟨tune, p, hload, hnew, h⟩ := exists_new h
  simp only [Prod.mk.injEq, decide_eq_true_eq] at h
  obtain ⟨⟨hbending, hlock, hslot, hword⟩, haddress, hoffset, hturn⟩ := h
  have hlaw := Replay.swings_return (tick^[5] p).tune.score (tick^[5] p).rate hbending
  have hvibrato := hlaw.1 ⟨0xf6040008⟩ (by decide) hslot hlock (by decide) (by decide)
  have hstep : (⟨0x11020010⟩ : Word).low.toInt16.toInt = 16 := by decide
  have hsweep := hlaw.2 ⟨0x11020010⟩ hword (by decide) (by decide) fun k hk => by
    have hk : k ≤ 2 := hk
    rw [hstep]
    simp only [Replay.onMachine, haddress, UInt32.reduceToNat]
    omega
  exact ⟨tune, p, _, _, _, hload, hnew, rfl, hbending, rfl, hvibrato.2.1, hoffset, rfl,
    hsweep.2.1, hturn⟩

end Player

end PaulaReplay
