/-
  Sliding: where a slide takes the period.

  A slide has a timer, and when it is over the period changes by so many parts of 256.  On
  the way down a half is taken off before the product is cut, so that the period always
  comes nearer.  On the way up the product is cut as it is: where the period times the rate
  is below 256 nothing is left of the change, and the slide stays where it is for good.

  * `nextPeriod`: where a step leads, and `nextPeriod_nears`, `nextPeriod_eq_self` that it
    nears the target or does not move;
  * `slideStep_spec`: a step of a slide leads there, without any of its numbers wrapping;
  * `Channel.Sliding.bend`: a step that is not stuck takes one off what is left;
  * `Replay.slide_arrives_iff`: a slide arrives if and only if it leads down or its first
    step changes the period.
-/
import PaulaReplay.Proofs.Approach
import PaulaReplay.Proofs.Bending
import PaulaReplay.Proofs.Positions

namespace PaulaReplay

/-! ## Steps -/

section

variable {period target rate : Int}

/-- Where a step leads from a period: by the rate in parts of 256 towards the target, and
    not past it. -/
def nextPeriod (period target rate : Int) : Int :=
  if target < period then max target ((period * (256 - rate) - 128) / 256)
  else min target (period * (256 + rate) / 256)

/-- A slide leads down, or has a period that a step up changes. -/
def Advances (period target rate : Int) : Prop := target ≤ period ∨ 256 ≤ period * rate

theorem nextPeriod_nears (hp : 0 ≤ period) (hr : 0 ≤ rate) :
    Nears target period (nextPeriod period target rate) := by
  have hprod : 0 ≤ period * rate := Int.mul_nonneg hp hr
  unfold nextPeriod Nears
  rw [Int.mul_sub, Int.mul_add]
  split <;> omega

theorem nextPeriod_way (hp : 0 ≤ period) (hr : 0 ≤ rate) (h : Advances period target rate)
    (hne : nextPeriod period target rate ≠ target) :
    (target - nextPeriod period target rate).natAbs < (target - period).natAbs := by
  have hprod : 0 ≤ period * rate := Int.mul_nonneg hp hr
  unfold Advances at h
  unfold nextPeriod at hne ⊢
  rw [Int.mul_sub, Int.mul_add] at *
  split at hne <;> split <;> omega

/-- A slide that advances goes on to do so. -/
theorem Advances.next (hp : 0 ≤ period) (hr : 0 ≤ rate) (h : Advances period target rate) :
    Advances (nextPeriod period target rate) target rate := by
  have hnears : Nears target period (nextPeriod period target rate) := nextPeriod_nears hp hr
  rcases h with hdown | hup
  · left
    unfold Nears at hnears
    omega
  · rcases Int.lt_or_le period target with hlt | hdown
    · right
      have hle : period ≤ nextPeriod period target rate := by
        unfold Nears at hnears
        omega
      exact Int.le_trans hup (Int.mul_le_mul_of_nonneg_right hle hr)
    · left
      unfold Nears at hnears
      omega

/-- One that does not stays where it is. -/
theorem nextPeriod_eq_self (hp : 0 ≤ period) (hr : 0 ≤ rate) (h : ¬ Advances period target rate) :
    nextPeriod period target rate = period := by
  have hprod : 0 ≤ period * rate := Int.mul_nonneg hp hr
  simp only [Advances, not_or] at h
  unfold nextPeriod
  rw [if_neg (by omega), Int.mul_add]
  omega

end

/-! ### In 32 bits -/

theorem toInt_shiftRight_eight (x : Int32) : (x >>> 8).toInt = x.toInt / 256 := by
  have hamount : (8 : Int32).toBitVec.smod 32 = 8#32 := by decide
  show (x >>> 8).toBitVec.toInt = _
  rw [Int32.toBitVec_shiftRight, hamount]
  exact (BitVec.toInt_sshiftRight (n := 8)).trans (Int.shiftRight_eq_div_pow _ _)

theorem toInt_period (p : UInt16) : p.toUInt32.toInt32.toInt = p.toNat := by
  have hlt := p.toNat_lt
  show p.toUInt32.toBitVec.toInt = _
  rw [BitVec.toInt_eq_toNat_of_lt]
  · exact congrArg _ (UInt16.toNat_toUInt32 p)
  · have hnat : p.toUInt32.toBitVec.toNat = p.toNat := UInt16.toNat_toUInt32 p
    omega

theorem toNat_cut {x : Int32} (hlo : 0 ≤ x.toInt) (hhi : x.toInt < 65536) :
    (x.toUInt32.toUInt16.toNat : Int) = x.toInt := by
  have hcond : x.toInt = if 2 * x.toUInt32.toNat < 2 ^ 32 then (x.toUInt32.toNat : Int)
      else x.toUInt32.toNat - (2 ^ 32 : Nat) := BitVec.toInt_eq_toNat_cond x.toBitVec
  have hlt := x.toUInt32.toNat_lt
  rw [UInt32.toNat_toUInt16]
  split at hcond <;> omega

namespace Channel

variable {period target rate : Int32}

theorem slideStep_down (h : target.toInt < period.toInt) : slideStep period target rate =
    ((period * (256 - rate) - 128) >>> 8,
      decide ((period * (256 - rate) - 128) >>> 8 ≤ target)) :=
  if_pos (Int32.lt_iff_toInt_lt.2 h)

theorem slideStep_up (h : period.toInt < target.toInt) : slideStep period target rate =
    ((period * (256 + rate)) >>> 8, decide (target ≤ (period * (256 + rate)) >>> 8)) := by
  have hnot : ¬ target < period := fun hlt => by
    have hlt := Int32.lt_iff_toInt_lt.1 hlt
    omega
  rw [slideStep, if_neg hnot, if_pos (Int32.lt_iff_toInt_lt.2 h)]

theorem slideStep_self (target rate : Int32) : slideStep target target rate = (target, true) := by
  rw [slideStep, if_neg Int32.lt_irrefl, if_neg Int32.lt_irrefl]

/-- A step of a slide leads to the next period, and has come to the target just where that
    is the target. -/
theorem slideStep_spec (target : Int32) (hp : 0 ≤ period.toInt) (hp' : period.toInt < 65536)
    (hr : 0 ≤ rate.toInt) (hr' : rate.toInt < 256) :
    (if (slideStep period target rate).2 then target
      else (slideStep period target rate).1).toInt =
        nextPeriod period.toInt target.toInt rate.toInt ∧
      ((slideStep period target rate).2 = true ↔
        nextPeriod period.toInt target.toInt rate.toInt = target.toInt) := by
  have hprod : 0 ≤ period.toInt * rate.toInt := Int.mul_nonneg hp hr
  have hprod' : period.toInt * rate.toInt ≤ 65535 * 255 :=
    Int.mul_le_mul (by omega) (by omega) hr (by omega)
  have h256 : (256 : Int32).toInt = 256 := rfl
  have h128 : (128 : Int32).toInt = 128 := rfl
  unfold nextPeriod
  rcases Int.lt_trichotomy target.toInt period.toInt with hdown | hthere | hup
  · have hstep : ((period * (256 - rate) - 128) >>> 8).toInt =
        (period.toInt * (256 - rate.toInt) - 128) / 256 := by
      have hsub : (256 - rate).toInt = 256 - rate.toInt := by
        rw [Int32.toInt_sub, h256]
        exact Int.bmod_eq_of_le (by omega) (by omega)
      have hmul : (period * (256 - rate)).toInt = period.toInt * (256 - rate.toInt) := by
        rw [Int32.toInt_mul, hsub]
        refine Int.bmod_eq_of_le ?_ ?_ <;> rw [Int.mul_sub] <;> omega
      rw [toInt_shiftRight_eight, Int32.toInt_sub, hmul, h128]
      refine congrArg (· / 256) (Int.bmod_eq_of_le ?_ ?_) <;> rw [Int.mul_sub] <;> omega
    rw [slideStep_down hdown, if_pos hdown]
    simp only [decide_eq_true_eq, Int32.le_iff_toInt_le, hstep]
    constructor
    · split <;> omega
    · omega
  · obtain rfl : target = period := Int32.toInt_inj.1 hthere
    have hmin : min target.toInt (target.toInt * (256 + rate.toInt) / 256) = target.toInt := by
      rw [Int.mul_add]
      omega
    rw [slideStep_self, if_pos rfl, if_neg (Int.lt_irrefl _), hmin]
    exact ⟨rfl, iff_of_true rfl rfl⟩
  · have hstep : ((period * (256 + rate)) >>> 8).toInt =
        period.toInt * (256 + rate.toInt) / 256 := by
      have hadd : (256 + rate).toInt = 256 + rate.toInt := by
        rw [Int32.toInt_add, h256]
        exact Int.bmod_eq_of_le (by omega) (by omega)
      rw [toInt_shiftRight_eight, Int32.toInt_mul, hadd]
      refine congrArg (· / 256) (Int.bmod_eq_of_le ?_ ?_) <;> rw [Int.mul_add] <;> omega
    rw [slideStep_up hup, if_neg (by omega : ¬ target.toInt < period.toInt)]
    simp only [decide_eq_true_eq, Int32.le_iff_toInt_le, hstep]
    constructor
    · split <;> omega
    · omega

/-! ### Steps of a channel -/

variable {c c' : Channel}

/-- Where the next step of the slide leads. -/
def nextSlide (c : Channel) : Int :=
  nextPeriod c.slide.period.toNat c.pitch.target.toNat c.slide.rate.toInt

/-- The slide leads down, or its next step changes the period. -/
def Advancing (c : Channel) : Prop :=
  Advances c.slide.period.toNat c.pitch.target.toNat c.slide.rate.toInt

/-- How far the slide is from its target. -/
def slideWay (c : Channel) : Nat := ((c.pitch.target.toNat : Int) - c.slide.period.toNat).natAbs

/-- The steps of the slide that are left at most.  One at its target still has to find that
    it is there. -/
def slideLeft (c : Channel) : Nat :=
  if c.slide.rate = 0 then 0
  else stepsLeft c.slide.time.toNat c.slide.reset.toNat (c.slideWay + 1)

/-- A slide that is on its way, or has ended at its target, where there is no vibrato. -/
structure Sliding (c : Channel) : Prop where
  still : c.vibrato.reset = 0
  rate : 0 ≤ c.slide.rate.toInt ∧ c.slide.rate.toInt < 256
  ended : c.slide.rate = 0 → c.slide.period = c.pitch.target ∧ c.pitch.period = c.pitch.target
  time : c.slide.rate ≠ 0 → c.slide.time ≠ 0
  reset : c.slide.rate ≠ 0 → c.slide.reset ≠ 0

theorem slideOn_of_ended (h : c.slide.rate = 0) : c.slideOn = c := if_pos h

theorem slideOn_of_counting (h : c.slide.rate ≠ 0) (ht : c.slide.time - 1 ≠ 0) :
    c.slideOn = { c with slide.time := c.slide.time - 1 } := by
  rw [slideOn, if_neg h]
  exact if_pos ht

/-- A step that is due. -/
structure Steps (c c' : Channel) : Prop where
  period : (c'.slide.period.toNat : Int) = c.nextSlide
  played : c'.pitch.period = c'.slide.period
  target : c'.pitch.target = c.pitch.target
  time : c'.slide.time = c.slide.reset
  reset : c'.slide.reset = c.slide.reset
  rate : c'.slide.rate = if c.nextSlide = c.pitch.target.toNat then 0 else c.slide.rate
  vibrato : c'.vibrato = c.vibrato

theorem Sliding.steps (h : c.Sliding) (hrate : c.slide.rate ≠ 0) (ht : c.slide.time - 1 = 0) :
    c.Steps c.slideOn := by
  have hperiod := c.slide.period.toNat_lt
  have htarget := c.pitch.target.toNat_lt
  obtain ⟨hr, hr'⟩ := h.rate
  have hrate32 : c.slide.rate.toInt32.toInt = c.slide.rate.toInt := Int16.toInt_toInt32 _
  have hlo : 0 ≤ c.slide.period.toUInt32.toInt32.toInt := by
    rw [toInt_period]
    omega
  have hhi : c.slide.period.toUInt32.toInt32.toInt < 65536 := by
    rw [toInt_period]
    omega
  obtain ⟨hvalue, harrived⟩ := slideStep_spec c.pitch.target.toUInt32.toInt32 hlo hhi
    (hrate32 ▸ hr) (hrate32 ▸ hr')
  rw [toInt_period, toInt_period, hrate32] at hvalue harrived
  have hnears : Nears c.pitch.target.toNat c.slide.period.toNat c.nextSlide :=
    nextPeriod_nears (by omega) hr
  have hcut : ∀ x : Int32, x.toInt = c.nextSlide →
      (x.toUInt32.toUInt16.toNat : Int) = c.nextSlide := by
    intro x hx
    unfold Nears at hnears
    rw [toNat_cut] <;> omega
  rw [slideOn, if_neg hrate]
  simp only
  rw [if_neg (not_not.2 ht)]
  exact ⟨hcut _ hvalue, rfl, rfl, rfl, rfl, if_congr harrived rfl rfl, rfl⟩

theorem Sliding.nears (h : c.Sliding) :
    Nears c.pitch.target.toNat c.slide.period.toNat c.nextSlide :=
  nextPeriod_nears (Int.natCast_nonneg _) h.rate.1

/-- A step that is due, of a slide that advances. -/
theorem Sliding.due (h : c.Sliding) (hrate : c.slide.rate ≠ 0) (hs : c.Steps c') :
    c'.Sliding ∧ (c.Advancing → c'.Advancing ∧ c'.slideLeft ≤ stepsLeft 1 c.slide.reset.toNat
      (c.slideWay + 1) - 1) := by
  have hreset := h.reset hrate
  by_cases hthere : c.nextSlide = c.pitch.target.toNat
  · have hended : c'.slide.rate = 0 := hs.rate.trans (if_pos hthere)
    have hperiod : c'.slide.period = c.pitch.target :=
      UInt16.toNat_inj.1 (Int.ofNat.inj (hs.period.trans hthere))
    refine ⟨⟨hs.vibrato ▸ h.still, by rw [hended]; decide, fun _ => ?_,
      fun hne => absurd hended hne, fun hne => absurd hended hne⟩, fun _ => ⟨.inl ?_, ?_⟩⟩
    · rw [hs.played, hs.target]
      exact ⟨hperiod, hperiod⟩
    · rw [hs.target, hperiod]
    · rw [slideLeft, if_pos hended]
      exact Nat.zero_le _
  · have hgoes : c'.slide.rate = c.slide.rate := hs.rate.trans (if_neg hthere)
    refine ⟨⟨hs.vibrato ▸ h.still, hgoes ▸ h.rate, fun h0 => absurd (hgoes ▸ h0) hrate,
      fun _ => hs.time ▸ hreset, fun _ => hs.reset ▸ hreset⟩, fun hadv => ⟨?_, ?_⟩⟩
    · rw [Advancing, hs.period, hs.target, hgoes]
      exact hadv.next (Int.natCast_nonneg _) h.rate.1
    · have hway : c'.slideWay < c.slideWay := by
        rw [slideWay, hs.period, hs.target]
        exact nextPeriod_way (Int.natCast_nonneg _) h.rate.1 hadv hthere
      rw [slideLeft, if_neg (by rwa [hgoes]), hs.time, hs.reset]
      exact stepsLeft_move _ (Nat.succ_lt_succ hway)

theorem Sliding.slideOn (h : c.Sliding) : c.slideOn.Sliding ∧
    c.slideOn.pitch.target = c.pitch.target ∧
    Nears c.pitch.target.toNat c.slide.period.toNat c.slideOn.slide.period.toNat ∧
    (c.Advancing → c.slideOn.Advancing ∧ c.slideOn.slideLeft ≤ c.slideLeft - 1) := by
  by_cases hrate : c.slide.rate = 0
  · have hleft : c.slideLeft = 0 := if_pos hrate
    rw [slideOn_of_ended hrate]
    exact ⟨h, rfl, .refl _ _, fun hadv => ⟨hadv, by omega⟩⟩
  · have htime := toNat_sub_one_add_one (h.time hrate)
    by_cases ht : c.slide.time - 1 = 0
    · have hs := h.steps hrate ht
      obtain ⟨hsliding, hadvance⟩ := h.due hrate hs
      have hleft : c.slideLeft = stepsLeft 1 c.slide.reset.toNat (c.slideWay + 1) := by
        rw [ht] at htime
        rw [slideLeft, if_neg hrate, ← htime]
        rfl
      refine ⟨hsliding, hs.target, ?_, fun hadv => hleft ▸ hadvance hadv⟩
      rw [hs.period]
      exact h.nears
    · have hleft : c.slideLeft =
          stepsLeft ((c.slide.time - 1).toNat + 1) c.slide.reset.toNat (c.slideWay + 1) := by
        rw [slideLeft, if_neg hrate, htime]
      rw [slideOn_of_counting hrate ht]
      refine ⟨⟨h.still, h.rate, h.ended, fun _ => ht, h.reset⟩, rfl, .refl _ _,
        fun hadv => ⟨hadv, ?_⟩⟩
      rw [hleft, slideLeft, if_neg hrate]
      exact stepsLeft_count _ _ _

/-- A slide that does not advance stays where it is. -/
theorem Sliding.stuck (h : c.Sliding) (hnot : ¬ c.Advancing) :
    c.slideOn.slide.period = c.slide.period ∧ c.slideOn.slide.rate = c.slide.rate := by
  by_cases hrate : c.slide.rate = 0
  · rw [slideOn_of_ended hrate]
    exact ⟨rfl, rfl⟩
  · by_cases ht : c.slide.time - 1 = 0
    · have hs := h.steps hrate ht
      have hnext : c.nextSlide = c.slide.period.toNat :=
        nextPeriod_eq_self (Int.natCast_nonneg _) h.rate.1 hnot
      have hthere : c.nextSlide ≠ c.pitch.target.toNat := fun he => hnot (.inl (by omega))
      exact ⟨UInt16.toNat_inj.1 (Int.ofNat.inj (hs.period.trans hnext)),
        hs.rate.trans (if_neg hthere)⟩
    · rw [slideOn_of_counting hrate ht]
      exact ⟨rfl, rfl⟩

/-! ### Ticks -/

theorem slideOn_congr (hp : c'.pitch = c.pitch) (hs : c'.slide = c.slide) :
    c'.slideOn.pitch = c.slideOn.pitch ∧ c'.slideOn.slide = c.slideOn.slide := by
  unfold Channel.slideOn
  simp only [hp, hs]
  split
  · exact ⟨hp, hs⟩
  · split <;> exact ⟨rfl, rfl⟩

/-- Where there is no vibrato, only this effect is about the period. -/
theorem slide_bend (h : c.vibrato.reset = 0) : c.bend.pitch = c.slideOn.pitch ∧
    c.bend.slide = c.slideOn.slide ∧ c.bend.vibrato = c.slideOn.vibrato := by
  have hsway : c.sweepOn.groundSweep.sway = c.sweepOn.groundSweep := by
    rw [sweepOn_frame]
    exact if_pos h
  have hpitch : c.sweepOn.groundSweep.pitch = c.pitch := by rw [sweepOn_frame]
  have hslide : c.sweepOn.groundSweep.slide = c.slide := by rw [sweepOn_frame]
  have hcongr := slideOn_congr hpitch hslide
  rw [bend, hsway, swell_frame]
  refine ⟨hcongr.1, hcongr.2, ?_⟩
  rw [slideOn_frame, sweepOn_frame, slideOn_frame c]

theorem Sliding.congr (h : c.Sliding) (hp : c'.pitch = c.pitch) (hs : c'.slide = c.slide)
    (hv : c'.vibrato = c.vibrato) : c'.Sliding :=
  ⟨by rw [hv]; exact h.still, by rw [hs]; exact h.rate, by rw [hs, hp]; exact h.ended,
    by rw [hs]; exact h.time, by rw [hs]; exact h.reset⟩

theorem Sliding.bend (h : c.Sliding) : c.bend.Sliding ∧
    c.bend.pitch.target = c.pitch.target ∧
    Nears c.pitch.target.toNat c.slide.period.toNat c.bend.slide.period.toNat ∧
    (c.Advancing → c.bend.Advancing ∧ c.bend.slideLeft ≤ c.slideLeft - 1) := by
  obtain ⟨hp, hs, hv⟩ := slide_bend h.still
  have hstep := h.slideOn
  have hleft : c.bend.slideLeft = c.slideOn.slideLeft := by
    rw [slideLeft, slideLeft, slideWay, slideWay, hp, hs]
  have hadvancing : c.bend.Advancing ↔ c.slideOn.Advancing := by
    rw [Advancing, Advancing, hp, hs]
  rw [hp, hs, hleft, hadvancing]
  exact ⟨hstep.1.congr hp hs hv, hstep.2⟩

/-- From the step `n` on the slide of a channel is over: the period of the slide and the one
    that is played are the one of the note.  Up to there it never turns back. -/
structure LandsBy (n : Nat) (c : Channel) (after : Nat → Channel) : Prop where
  arrives : ArrivesBy n c.slide.period.toNat c.pitch.target.toNat fun k =>
    (after k).slide.period.toNat
  played : ∀ k, n ≤ k → (after k).pitch.period = c.pitch.target
  stopped : ∀ k, n ≤ k → (after k).slide.rate = 0

/-- A slide that advances arrives. -/
theorem Sliding.lands (h : c.Sliding) (hadv : c.Advancing) :
    c.LandsBy c.slideLeft fun n => Channel.bend^[n] c := by
  let I : Channel → Prop := fun d =>
    d.Sliding ∧ d.pitch.target = c.pitch.target ∧ d.Advancing
  have hkeep : ∀ d, I d → I d.bend := fun d ⟨hd, htarget, hadv⟩ =>
    ⟨hd.bend.1, hd.bend.2.1.trans htarget, (hd.bend.2.2.2 hadv).1⟩
  have hleft : ∀ d, I d → d.bend.slideLeft ≤ d.slideLeft - 1 := fun d ⟨hd, _, hadv⟩ =>
    (hd.bend.2.2.2 hadv).2
  -- nothing is left only where the slide is over, for its timer is not
  have hover : ∀ d, I d → d.slideLeft = 0 → d.slide.rate = 0 := by
    intro d hd h0
    by_contra hrate
    have htime := toNat_sub_one_add_one (hd.1.time hrate)
    rw [slideLeft, if_neg hrate, stepsLeft_eq_zero_iff (by omega)] at h0
    omega
  have hlast : ∀ n, c.slideLeft ≤ n → I (Channel.bend^[n] c) ∧
      (Channel.bend^[n] c).slide.rate = 0 := by
    intro n hn
    have hI := iterate_keeps hkeep n ⟨h, rfl, hadv⟩
    have hle := left_iterate_le hkeep hleft n ⟨h, rfl, hadv⟩
    exact ⟨hI, hover _ hI (by omega)⟩
  refine ⟨arrivesBy_of_left (v := fun d => d.slide.period.toNat) hkeep (fun d hd => ?_) hleft
    (fun d hd h0 => ?_) ⟨h, rfl, hadv⟩, fun n hn => ?_, fun n hn => (hlast n hn).2⟩
  · exact hd.2.1 ▸ hd.1.bend.2.2.1
  · exact hd.2.1 ▸ congrArg (fun p : UInt16 => (p.toNat : Int)) (hd.1.ended (hover d hd h0)).1
  · obtain ⟨⟨hsliding, htarget, -⟩, hrate⟩ := hlast n hn
    exact (hsliding.ended hrate).2.trans htarget

/-- One that does not never changes. -/
theorem Sliding.stuck_iterate (h : c.Sliding) (hnot : ¬ c.Advancing) : ∀ n : Nat,
    (Channel.bend^[n] c).slide.period = c.slide.period ∧
      (Channel.bend^[n] c).slide.rate = c.slide.rate := by
  intro n
  have hI := iterate_keeps (f := Channel.bend)
    (I := fun d => d.Sliding ∧ d.pitch.target = c.pitch.target ∧
      d.slide.period = c.slide.period ∧ d.slide.rate = c.slide.rate) ?_ n ⟨h, rfl, rfl, rfl⟩
  · exact hI.2.2
  · rintro d ⟨hd, htarget, hperiod, hrate⟩
    have hstuck : ¬ d.Advancing := by
      rw [Advancing, htarget, hperiod, hrate]
      exact hnot
    obtain ⟨hperiod', hrate'⟩ := hd.stuck hstuck
    obtain ⟨hslide, -⟩ := (slide_bend hd.still).2
    refine ⟨hd.bend.1, hd.bend.2.1.trans htarget, ?_, ?_⟩
    · rw [hslide]
      exact hperiod'.trans hperiod
    · rw [hslide]
      exact hrate'.trans hrate

end Channel

/-! ## Replays -/

/-- A slide goes to its note and is over there: its period never leaves the way to the
    note, never turns back, and is the one of the note, with the period that is played, after
    as many effects as its timer and the way say.  This is so if and only if the slide leads
    down or its period and its rate make up 256.  Where they do not, it stays where it is,
    and is never over. -/
theorem Replay.slide_arrives_iff {r : Replay} {i : Slot} (score : Score) (rate : UInt32)
    (hbending : 0 < r.machine.channels[i].bending)
    (hvibrato : r.machine.channels[i].vibrato.reset = 0)
    (hrate : 1 ≤ r.machine.channels[i].slide.rate.toInt ∧
      r.machine.channels[i].slide.rate.toInt ≤ 255)
    (htime : r.machine.channels[i].slide.time ≠ 0)
    (hreset : r.machine.channels[i].slide.reset ≠ 0) :
    let c := r.machine.channels[i]
    let after := r.machine.bent i
    let advances := c.pitch.target ≤ c.slide.period ∨
      256 ≤ c.slide.period.toNat * c.slide.rate.toInt
    let steps := stepsLeft c.slide.time.toNat c.slide.reset.toNat
      (((c.pitch.target.toNat : Int) - c.slide.period.toNat).natAbs + 1)
    (∀ ms, LeftAlone score rate i ms r →
      (run score rate ms r).machine.channels[i].slide = (after (ms.countP (Move.bends i))).slide ∧
      (run score rate ms r).machine.channels[i].pitch = (after (ms.countP (Move.bends i))).pitch) ∧
    ((∃ n, c.LandsBy n after) ↔ advances) ∧ (advances → c.LandsBy steps after) ∧
    (¬ advances → ∀ n, (after n).slide.period = c.slide.period ∧
      (after n).slide.rate = c.slide.rate) := by
  intro c after advances steps
  have hne : c.slide.rate ≠ 0 := fun h0 => by
    rw [h0] at hrate
    exact absurd hrate.1 (by decide)
  have hsliding : c.Sliding :=
    ⟨hvibrato, ⟨Int.le_trans (by decide) hrate.1, Int.lt_of_le_of_lt hrate.2 (by decide)⟩,
      fun h0 => absurd h0 hne, fun _ => htime, fun _ => hreset⟩
  have hafter : after = fun n => Channel.bend^[n] c := funext (Machine.bent_eq hbending)
  have hadvances : advances ↔ c.Advancing := by
    simp only [advances, Channel.Advancing, Advances, UInt16.le_iff_toNat_le, Int.ofNat_le]
  have hleft : c.slideLeft = steps := if_neg hne
  have hlands : advances → c.LandsBy steps after := fun h => by
    rw [hafter, ← hleft]
    exact hsliding.lands (hadvances.1 h)
  have hstuck : ¬ advances → ∀ n, (after n).slide.period = c.slide.period ∧
      (after n).slide.rate = c.slide.rate := fun h => by
    rw [hafter]
    exact hsliding.stuck_iterate fun hadv => h (hadvances.2 hadv)
  refine ⟨fun ms hms => ?_, ⟨fun ⟨n, hn⟩ => ?_, fun h => ⟨steps, hlands h⟩⟩, hlands, hstuck⟩
  · have hsound := sound_run ms hms
    have hslide := congrArg Channel.slide hsound
    have hpitch := congrArg Channel.pitch hsound
    exact ⟨hslide, hpitch⟩
  · by_contra hnot
    exact hne ((hstuck hnot n).2.symm.trans (hn.stopped n (Nat.le_refl n)))

namespace Player

/-- A tune with a note of the period 113, from which a word of the track slides in the row
    after it. -/
def slideTune (w : UInt32) : ByteArray :=
  smallTune 0x1000 [0x2f000000, 0xf3000000, w, 0xf3ff0000] [0x01010000, 0x08000000, 0x07000000]

/-- At the rate 16 a slide from 113 to 170 has come to 127 after three ticks, and it
    arrives. -/
theorem slide_arrives_slideTune : ∃ tune p q,
    load (slideTune 0xe8020010) (some ⟨#[]⟩) = .ok tune ∧ Player.new tune minRate = .ok p ∧
      q = tick^[7] p ∧ 0 < q.replay.machine.channels[(0 : Slot)].bending ∧
      q.replay.machine.channels[(0 : Slot)].vibrato.reset = 0 ∧
      q.replay.machine.channels[(0 : Slot)].slide =
        { period := 113, rate := 16, time := 1, reset := 2 } ∧
      q.replay.machine.channels[(0 : Slot)].pitch.target = 170 ∧
      (tick^[3] q).replay.machine.channels[(0 : Slot)].slide = (q.replay.machine.bent 0 3).slide ∧
      (tick^[3] q).replay.machine.channels[(0 : Slot)].slide.period = 127 ∧
      q.replay.machine.channels[(0 : Slot)].LandsBy 115 (q.replay.machine.bent 0) := by
  have h : ((load (slideTune 0xe8020010) (some ⟨#[]⟩)).toOption.bind fun tune =>
      (Player.new tune minRate).toOption.map fun p =>
        let q := tick^[7] p
        (decide (0 < q.replay.machine.channels[(0 : Slot)].bending ∧
            q.replay.machine.channels[(0 : Slot)].vibrato.reset = 0 ∧
            Replay.LeftAlone q.tune.score q.rate 0 (q.ticksMoves 3) q.replay),
          q.replay.machine.channels[(0 : Slot)].slide,
          q.replay.machine.channels[(0 : Slot)].pitch.target,
          (q.ticksMoves 3).countP (Replay.Move.bends 0),
          (tick^[3] q).replay.machine.channels[(0 : Slot)].slide.period)) =
        some (true, { period := 113, rate := 16, time := 1, reset := 2 }, 170, 3, 127) := by
    decide +kernel
  obtain ⟨tune, p, hload, hnew, h⟩ := exists_new h
  simp only [Prod.mk.injEq, decide_eq_true_eq] at h
  obtain ⟨⟨hbending, hvibrato, halone⟩, hslide, htarget, hcount, hafter⟩ := h
  have hlaw := Replay.slide_arrives_iff (tick^[7] p).tune.score (tick^[7] p).rate hbending hvibrato
    (by rw [hslide]; decide) (by rw [hslide]; decide) (by rw [hslide]; decide)
  simp only [hslide, htarget] at hlaw
  obtain ⟨hrun, -, hlands, -⟩ := hlaw
  have hticks := (hrun _ halone).1
  rw [hcount] at hticks
  refine ⟨tune, p, _, hload, hnew, rfl, hbending, hvibrato, hslide, htarget, ?_, hafter,
    hlands (.inr (by decide))⟩
  rw [← run_ticksMoves]
  exact hticks

/-- At the rate 1 a slide from 113 to 120 stays where it is, tick after tick. -/
theorem slide_stays : ∃ tune p q,
    load (slideTune 0xee010001) (some ⟨#[]⟩) = .ok tune ∧ Player.new tune minRate = .ok p ∧
      q = tick^[7] p ∧ 0 < q.replay.machine.channels[(0 : Slot)].bending ∧
      q.replay.machine.channels[(0 : Slot)].vibrato.reset = 0 ∧
      q.replay.machine.channels[(0 : Slot)].slide =
        { period := 113, rate := 1, time := 1, reset := 1 } ∧
      q.replay.machine.channels[(0 : Slot)].pitch.target = 120 ∧
      Replay.LeftAlone q.tune.score q.rate 0 (q.ticksMoves 8) q.replay ∧
      (tick^[8] q).replay.machine.channels[(0 : Slot)].slide =
        { period := 113, rate := 1, time := 1, reset := 1 } ∧
      ∀ n, ¬ q.replay.machine.channels[(0 : Slot)].LandsBy n (q.replay.machine.bent 0) := by
  have h : ((load (slideTune 0xee010001) (some ⟨#[]⟩)).toOption.bind fun tune =>
      (Player.new tune minRate).toOption.map fun p =>
        let q := tick^[7] p
        (decide (0 < q.replay.machine.channels[(0 : Slot)].bending ∧
            q.replay.machine.channels[(0 : Slot)].vibrato.reset = 0 ∧
            Replay.LeftAlone q.tune.score q.rate 0 (q.ticksMoves 8) q.replay),
          q.replay.machine.channels[(0 : Slot)].slide,
          q.replay.machine.channels[(0 : Slot)].pitch.target,
          (tick^[8] q).replay.machine.channels[(0 : Slot)].slide)) =
        some (true, { period := 113, rate := 1, time := 1, reset := 1 }, 120,
          { period := 113, rate := 1, time := 1, reset := 1 }) := by
    decide +kernel
  obtain ⟨tune, p, hload, hnew, h⟩ := exists_new h
  simp only [Prod.mk.injEq, decide_eq_true_eq] at h
  obtain ⟨⟨hbending, hvibrato, halone⟩, hslide, htarget, hafter⟩ := h
  refine ⟨tune, p, _, hload, hnew, rfl, hbending, hvibrato, hslide, htarget, halone, hafter,
    fun n hlands => ?_⟩
  have hrate : (tick^[7] p).replay.machine.channels[(0 : Slot)].slide.rate ≠ 0 := by
    rw [hslide]
    decide
  have hsliding : (tick^[7] p).replay.machine.channels[(0 : Slot)].Sliding :=
    ⟨hvibrato, by rw [hslide]; decide, fun h0 => absurd h0 hrate, by rw [hslide]; decide,
      by rw [hslide]; decide⟩
  have hnot : ¬ (tick^[7] p).replay.machine.channels[(0 : Slot)].Advancing := by
    rw [Channel.Advancing, hslide, htarget, Advances]
    decide
  have hstuck := (hsliding.stuck_iterate hnot n).2
  rw [← Machine.bent_eq hbending, hlands.stopped n (Nat.le_refl n), hslide] at hstuck
  exact absurd hstuck (by decide)

end Player

end PaulaReplay
