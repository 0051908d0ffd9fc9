/-
  Envelopes: where an envelope takes the volume.

  An envelope has a timer, and when it is over the volume goes on by the rate.  On the way
  down a step that would pass the target, or for which the volume does not suffice, ends
  the envelope there.  On the way up the rate is added as it is, in a register that holds
  no more than 127: a step past that leads to a volume below the one that there was.

  * `Climbs`: no step on the way up passes 127;
  * `Channel.volume_swell_of_due`: what a step makes of the volume where it does not, and
    `Channel.volume_swell_of_full` where it does;
  * `Channel.Swelling.bend`: a step of the first kind nears the target, and takes one off
    what is left;
  * `Replay.envelope_arrives_iff`: an envelope arrives if and only if it climbs.
-/
import PaulaReplay.Proofs.Approach
import PaulaReplay.Proofs.Bending
import PaulaReplay.Proofs.Positions
import PaulaReplay.Proofs.Volume

namespace PaulaReplay

/-! ## Steps upwards -/

/-- Each step up from below the target is one that a volume has room for. -/
def Climbs (volume target rate : Int) : Prop :=
  ∀ k : Nat, volume + k * rate < target → volume + k * rate + rate ≤ 127

section

variable {volume target rate : Int}

theorem Climbs.first (h : Climbs volume target rate) (hlt : volume < target) :
    volume + rate ≤ 127 := by
  have h := h 0
  rw [Nat.cast_zero, Int.zero_mul, Int.add_zero] at h
  exact h hlt

/-- Where the target and the rate are small enough all steps are. -/
theorem climbs_of_le (h : target + rate ≤ 128) : Climbs volume target rate := by
  intro k hlt
  omega

/-- From the target, or above it, no step leads up. -/
theorem climbs_of_ge (hrate : 0 ≤ rate) (h : target ≤ volume) : Climbs volume target rate := by
  intro k hlt
  have hpos : 0 ≤ k * rate := Int.mul_nonneg k.cast_nonneg hrate
  omega

/-- After a step that there is room for, those that are left are the steps from there, up to
    where the envelope ends. -/
theorem climbs_min_iff (hrate : 0 ≤ rate) (hroom : volume + rate ≤ 127) :
    Climbs (min (volume + rate) target) target rate ↔ Climbs volume target rate := by
  have hpos : ∀ k : Nat, 0 ≤ k * rate := fun k => Int.mul_nonneg k.cast_nonneg hrate
  rcases Int.lt_or_le target (volume + rate) with hlt | hle
  · rw [Int.min_eq_right (Int.le_of_lt hlt)]
    refine iff_of_true (climbs_of_ge hrate (Int.le_refl target)) fun k hk => ?_
    cases k with
    | zero => rwa [Nat.cast_zero, Int.zero_mul, Int.add_zero]
    | succ k =>
      have hk0 := hpos k
      rw [natCast_succ_mul] at hk
      omega
  · rw [Int.min_eq_left hle]
    constructor
    · intro h k hk
      cases k with
      | zero => rwa [Nat.cast_zero, Int.zero_mul, Int.add_zero]
      | succ k =>
        have h := h k
        rw [natCast_succ_mul] at hk ⊢
        omega
    · intro h k hk
      have h := h (k + 1)
      rw [natCast_succ_mul] at h
      omega

end

/-- Adding a rate to a volume goes round at 128. -/
theorem toInt_add_toInt8 (v : Int8) (b : UInt8) :
    (v + b.toInt8).toInt = (v.toInt + b.toNat).bmod 256 := by
  have hb : b.toInt8.toInt = (b.toNat : Int).bmod 256 := BitVec.toInt_eq_toNat_bmod b.toBitVec
  rw [Int8.toInt_add, hb]
  exact Int.add_bmod_bmod

/-! ## Channels -/

namespace Channel

variable {c c' : Channel}

/-- How far the volume is from the target. -/
def swellWay (c : Channel) : Nat := (c.envelope.target.toInt - c.volume.toInt).natAbs

/-- The steps of the envelope that are left at most. -/
def swellLeft (c : Channel) : Nat :=
  stepsLeft (c.envelope.time.toNat + 1) (c.envelope.reset.toNat + 1) c.swellWay

/-- An envelope that is on its way, or has ended at its target. -/
structure Swelling (c : Channel) : Prop where
  volume : Level c.volume
  target : Level c.envelope.target
  rate : 0 < c.envelope.rate.toNat
  ended : c.envelope.reset = 0 → c.volume = c.envelope.target

/-- All steps of the envelope that lead up have room. -/
def Climbing (c : Channel) : Prop :=
  Climbs c.volume.toInt c.envelope.target.toInt c.envelope.rate.toNat

/-! ### A step of an envelope -/

theorem swell_of_ended (h : c.envelope.reset = 0) : c.swell = c := if_pos h

theorem swell_of_counting (h : c.envelope.reset ≠ 0) (ht : c.envelope.time ≠ 0) :
    c.swell = { c with envelope.time := c.envelope.time - 1 } := by
  rw [swell, if_neg h, if_pos ht]

theorem swell_of_due (h : c.envelope.reset ≠ 0) (ht : c.envelope.time = 0) :
    c.swell =
      if (swellStep c.volume c.envelope.target c.envelope.rate).2 then
        { c with envelope.reset := 0, envelope.time := 0, volume := c.envelope.target }
      else
        { c with
          envelope.time := c.envelope.reset
          volume := (swellStep c.volume c.envelope.target c.envelope.rate).1 } := by
  rw [swell, if_neg h, if_neg (not_not.2 ht)]

/-- Where a step leads that is due: by the rate towards the target, and not past it. -/
def nextVolume (c : Channel) : Int :=
  if c.volume.toInt < c.envelope.target.toInt then
    min (c.volume.toInt + c.envelope.rate.toNat) c.envelope.target.toInt
  else max (c.volume.toInt - c.envelope.rate.toNat) c.envelope.target.toInt

/-- There is room for the next step, if it leads up. -/
def Roomy (c : Channel) : Prop :=
  c.volume.toInt < c.envelope.target.toInt → c.volume.toInt + c.envelope.rate.toNat ≤ 127

theorem Climbing.roomy (h : c.Climbing) : c.Roomy := h.first

theorem swellStep_low {v target : Int8} {rate : UInt8} (h : target.toInt < v.toInt)
    (hlow : v.toInt < rate.toNat) : swellStep v target rate = (v, true) := by
  simp only [swellStep, if_pos (Int8.lt_iff_toInt_lt.2 h), hlow, decide_true, if_true,
    Bool.true_or]

theorem swellStep_down {v target : Int8} {rate : UInt8} (h : target.toInt < v.toInt)
    (hlow : ¬ v.toInt < rate.toNat) : swellStep v target rate =
      (v - rate.toInt8, decide (v - rate.toInt8 < target)) := by
  simp only [swellStep, if_pos (Int8.lt_iff_toInt_lt.2 h), hlow, decide_false, if_false,
    Bool.false_or]

theorem swellStep_up {v target : Int8} {rate : UInt8} (h : v.toInt < target.toInt) :
    swellStep v target rate = (v + rate.toInt8, decide (target < v + rate.toInt8)) := by
  have hnot : ¬ target < v := fun hlt => by
    have hlt := Int8.lt_iff_toInt_lt.1 hlt
    omega
  rw [swellStep, if_neg hnot, if_pos (Int8.lt_iff_toInt_lt.2 h)]

theorem swellStep_self (v : Int8) (rate : UInt8) : swellStep v v rate = (v, false) := by
  rw [swellStep, if_neg Int8.lt_irrefl, if_neg Int8.lt_irrefl]

/-- A step that there is room for leads there. -/
theorem Swelling.toInt_swellStep (h : c.Swelling) (hroom : c.Roomy) :
    (if (swellStep c.volume c.envelope.target c.envelope.rate).2 then c.envelope.target
      else (swellStep c.volume c.envelope.target c.envelope.rate).1).toInt = c.nextVolume := by
  obtain ⟨⟨hlo, hhi⟩, ⟨htlo, hthi⟩, hrate, -⟩ := h
  unfold nextVolume
  rcases Int.lt_trichotomy c.envelope.target.toInt c.volume.toInt with hdown | hthere | hup
  · rw [if_neg (by omega : ¬ c.volume.toInt < c.envelope.target.toInt)]
    by_cases hlow : c.volume.toInt < c.envelope.rate.toNat
    · rw [swellStep_low hdown hlow, if_pos rfl]
      omega
    · have hsub : (c.volume - c.envelope.rate.toInt8).toInt =
          c.volume.toInt - c.envelope.rate.toNat := by
        have hb := toInt_of_le (b := c.envelope.rate) (by omega)
        rw [toInt_sub_of_le] <;> omega
      simp only [swellStep_down hdown hlow, decide_eq_true_eq, Int8.lt_iff_toInt_lt, hsub]
      split <;> omega
  · have hmax : max (c.envelope.target.toInt - c.envelope.rate.toNat) c.envelope.target.toInt =
        c.envelope.target.toInt := Int.max_eq_right (by omega)
    rw [← Int8.toInt_inj.1 hthere, swellStep_self, if_neg Bool.false_ne_true,
      if_neg (Int.lt_irrefl _), hmax]
  · have hadd : (c.volume + c.envelope.rate.toInt8).toInt =
        c.volume.toInt + c.envelope.rate.toNat := by
      have hroom := hroom hup
      rw [toInt_add_toInt8]
      exact Int.bmod_eq_of_le (by omega) (by omega)
    simp only [swellStep_up hup, if_pos hup, decide_eq_true_eq, Int8.lt_iff_toInt_lt, hadd]
    split <;> omega

/-- After a step that is due the timer is set anew, unless the volume is the target. -/
theorem swell_due_frame (h : c.envelope.reset ≠ 0) (ht : c.envelope.time = 0) :
    c.swell.envelope.target = c.envelope.target ∧ c.swell.envelope.rate = c.envelope.rate ∧
      (c.swell.volume = c.envelope.target ∨ c.swell.envelope.time = c.envelope.reset ∧
        c.swell.envelope.reset = c.envelope.reset) := by
  rw [swell_of_due h ht]
  split
  · exact ⟨rfl, rfl, .inl rfl⟩
  · exact ⟨rfl, rfl, .inr ⟨rfl, rfl⟩⟩

theorem Swelling.due (h : c.Swelling) (hroom : c.Roomy) (hreset : c.envelope.reset ≠ 0)
    (ht : c.envelope.time = 0) : c.swell.Swelling ∧
      Nears c.envelope.target.toInt c.volume.toInt c.swell.volume.toInt ∧
      c.swell.swellLeft ≤ c.swellLeft - 1 ∧ (c.swell.Climbing ↔ c.Climbing) := by
  obtain ⟨htarget, hrate, htimer⟩ := swell_due_frame hreset ht
  have hvolume : c.swell.volume.toInt = c.nextVolume := by
    rw [← h.toInt_swellStep hroom, swell_of_due hreset ht]
    split <;> rfl
  have hnears : Nears c.envelope.target.toInt c.volume.toInt c.swell.volume.toInt := by
    rw [hvolume, nextVolume, Nears]
    split <;> omega
  obtain ⟨hlo, hhi⟩ := h.volume
  obtain ⟨htlo, hthi⟩ := h.target
  refine ⟨⟨?_, htarget ▸ h.target, hrate ▸ h.rate, fun h0 => ?_⟩, hnears, ?_, ?_⟩
  · unfold Level
    unfold Nears at hnears
    omega
  · rw [htarget]
    exact htimer.resolve_right fun ⟨_, he⟩ => hreset (he ▸ h0)
  · rcases htimer with he | ⟨htime, he⟩
    · have hway : c.swell.swellWay = 0 := by
        rw [swellWay, htarget, he, Int.sub_self]
        rfl
      rw [swellLeft, hway, stepsLeft_zero]
      exact Nat.zero_le _
    · have htime1 : c.swellLeft = stepsLeft 1 (c.envelope.reset.toNat + 1) c.swellWay := by
        rw [swellLeft, ht]
        rfl
      rw [htime1, swellLeft, htime, he]
      by_cases hway : c.swell.swellWay = 0
      · rw [hway, stepsLeft_zero]
        exact Nat.zero_le _
      · refine stepsLeft_move _ ?_
        rw [swellWay, htarget, hvolume, nextVolume] at hway ⊢
        have hpos := h.rate
        rw [swellWay]
        split at hway <;> split <;> omega
  · unfold Climbing
    rw [htarget, hrate, hvolume, nextVolume]
    split
    · next hup => exact climbs_min_iff (Int.natCast_nonneg _) (hroom hup)
    · next hdown =>
      exact iff_of_true (climbs_of_ge (Int.natCast_nonneg _) (Int.le_max_right _ _))
        (climbs_of_ge (Int.natCast_nonneg _) (by omega))

/-- A step of the envelope that there is room for, if it is due. -/
theorem Swelling.swell (h : c.Swelling)
    (hroom : c.envelope.reset ≠ 0 → c.envelope.time = 0 → c.Roomy) :
    c.swell.Swelling ∧ c.swell.envelope.target = c.envelope.target ∧
      Nears c.envelope.target.toInt c.volume.toInt c.swell.volume.toInt ∧
      c.swell.swellLeft ≤ c.swellLeft - 1 ∧ (c.swell.Climbing ↔ c.Climbing) := by
  by_cases hreset : c.envelope.reset = 0
  · have hway : c.swellWay = 0 := by
      rw [swellWay, h.ended hreset, Int.sub_self]
      rfl
    have hleft : c.swellLeft = 0 := by rw [swellLeft, hway, stepsLeft_zero]
    rw [swell_of_ended hreset]
    exact ⟨h, rfl, .refl _ _, by omega, Iff.rfl⟩
  · by_cases ht : c.envelope.time = 0
    · obtain ⟨hswelling, hnears, hleft, hclimbing⟩ := h.due (hroom hreset ht) hreset ht
      exact ⟨hswelling, (swell_due_frame hreset ht).1, hnears, hleft, hclimbing⟩
    · have htime := toNat_sub_one_add_one ht
      have hcount := stepsLeft_count ((c.envelope.time - 1).toNat + 1) (c.envelope.reset.toNat + 1)
        c.swellWay
      have hleft : c.swellLeft = stepsLeft ((c.envelope.time - 1).toNat + 1 + 1)
          (c.envelope.reset.toNat + 1) c.swellWay := by
        rw [swellLeft, htime]
      rw [swell_of_counting hreset ht]
      refine ⟨⟨h.volume, h.target, h.rate, h.ended⟩, rfl, .refl _ _, ?_, Iff.rfl⟩
      rw [hleft]
      exact hcount

/-- A step up that there is no room for leads down. -/
theorem Swelling.falls (h : c.Swelling) (hreset : c.envelope.reset ≠ 0) (ht : c.envelope.time = 0)
    (hroom : ¬ c.Roomy) : c.volume.toInt < c.envelope.target.toInt ∧
      c.swell.volume.toInt < c.volume.toInt := by
  obtain ⟨hup, hfull⟩ := Classical.not_imp.1 hroom
  obtain ⟨⟨hlo, hhi⟩, ⟨htlo, hthi⟩, -, -⟩ := h
  have hround : (c.volume + c.envelope.rate.toInt8).toInt =
      c.volume.toInt + c.envelope.rate.toNat - 256 := by
    have hrate := c.envelope.rate.toNat_lt
    rw [toInt_add_toInt8, Int.bmod_def]
    split <;> omega
  have hrate := c.envelope.rate.toNat_lt
  have hpast : ¬ c.envelope.target < c.volume + c.envelope.rate.toInt8 := by
    rw [Int8.lt_iff_toInt_lt]
    omega
  rw [swell_of_due hreset ht, swellStep_up hup, if_neg (by simpa using hpast)]
  exact ⟨hup, by simp only; omega⟩

/-! ### Ticks -/

theorem swell_congr (hv : c'.volume = c.volume) (he : c'.envelope = c.envelope) :
    c'.swell.volume = c.swell.volume ∧ c'.swell.envelope = c.swell.envelope := by
  unfold Channel.swell
  simp only [hv, he]
  split
  · exact ⟨hv, he⟩
  · split
    · exact ⟨rfl, rfl⟩
    · split <;> exact ⟨rfl, rfl⟩

/-- Of the effects only this one is about the volume. -/
theorem volume_bend (c : Channel) : c.bend.volume = c.swell.volume :=
  (swell_congr (by rw [slideOn_frame, sway_frame, sweepOn_frame])
    (by rw [slideOn_frame, sway_frame, sweepOn_frame])).1

theorem envelope_bend (c : Channel) : c.bend.envelope = c.swell.envelope :=
  (swell_congr (by rw [slideOn_frame, sway_frame, sweepOn_frame])
    (by rw [slideOn_frame, sway_frame, sweepOn_frame])).2

theorem Swelling.congr (h : c.Swelling) (hv : c'.volume = c.volume)
    (he : c'.envelope = c.envelope) : c'.Swelling :=
  ⟨by rw [hv]; exact h.volume, by rw [he]; exact h.target, by rw [he]; exact h.rate,
    by rw [he, hv]; exact h.ended⟩

theorem Swelling.bend (h : c.Swelling)
    (hroom : c.envelope.reset ≠ 0 → c.envelope.time = 0 → c.Roomy) :
    c.bend.Swelling ∧ c.bend.envelope.target = c.envelope.target ∧
      Nears c.envelope.target.toInt c.volume.toInt c.bend.volume.toInt ∧
      c.bend.swellLeft ≤ c.swellLeft - 1 ∧ (c.bend.Climbing ↔ c.Climbing) := by
  have hstep := h.swell hroom
  have hleft : c.bend.swellLeft = c.swell.swellLeft := by
    rw [swellLeft, swellLeft, swellWay, swellWay, volume_bend, envelope_bend]
  have hclimbing : c.bend.Climbing ↔ c.swell.Climbing := by
    rw [Climbing, Climbing, volume_bend, envelope_bend]
  rw [envelope_bend, volume_bend, hleft, hclimbing]
  exact ⟨hstep.1.congr (volume_bend c) (envelope_bend c), hstep.2⟩

theorem volume_of_swellLeft (h0 : c.swellLeft = 0) : c.volume = c.envelope.target := by
  have hway : c.swellWay = 0 := (stepsLeft_eq_zero_iff (Nat.succ_pos _)).1 h0
  rw [swellWay] at hway
  rw [← Int8.toInt_inj]
  omega

/-- An envelope that climbs arrives. -/
theorem Swelling.arrives (h : c.Swelling) (hclimbing : c.Climbing) :
    ArrivesBy c.swellLeft c.volume.toInt c.envelope.target.toInt
      (fun n => (Channel.bend^[n] c).volume.toInt) := by
  have hstep : ∀ d : Channel, d.Swelling ∧ d.envelope.target = c.envelope.target ∧ d.Climbing →
      _ := fun d hd => hd.1.bend fun _ _ => hd.2.2.roomy
  refine arrivesBy_of_left (v := fun d => d.volume.toInt)
    (I := fun d => d.Swelling ∧ d.envelope.target = c.envelope.target ∧ d.Climbing)
    (fun d hd => ?_) (fun d hd => ?_) (fun d hd => (hstep d hd).2.2.2.1) (fun d hd h0 => ?_)
    ⟨h, rfl, hclimbing⟩
  · obtain ⟨hswelling, htarget, -, -, hiff⟩ := hstep d hd
    exact ⟨hswelling, htarget.trans hd.2.1, hiff.2 hd.2.2⟩
  · exact hd.2.1 ▸ (hstep d hd).2.2.1
  · exact hd.2.1 ▸ congrArg Int8.toInt (volume_of_swellLeft h0)

/-- One that does not falls back, sooner or later, before it has come to its target. -/
theorem Swelling.falls_back : ∀ (n : Nat) {c : Channel}, c.Swelling → c.swellLeft ≤ n →
    ¬ c.Climbing → ∃ k, (Channel.bend^[k] c).volume.toInt < c.envelope.target.toInt ∧
      (Channel.bend^[k + 1] c).volume.toInt < (Channel.bend^[k] c).volume.toInt := by
  intro n
  induction n with
  | zero =>
    intro c h hleft hnot
    have hthere := volume_of_swellLeft (Nat.le_zero.1 hleft)
    exact absurd (climbs_of_ge (Int.natCast_nonneg _) (by rw [hthere])) hnot
  | succ n ih =>
    intro c h hleft hnot
    by_cases hroom : c.envelope.reset ≠ 0 → c.envelope.time = 0 → c.Roomy
    · obtain ⟨hswelling, htarget, -, hnext, hiff⟩ := h.bend hroom
      obtain ⟨k, hk⟩ := ih hswelling (by omega) (fun hc => hnot (hiff.1 hc))
      refine ⟨k + 1, ?_⟩
      rw [Function.iterate_succ_apply, Function.iterate_succ_apply, ← htarget]
      exact hk
    · simp only [Classical.not_imp] at hroom
      obtain ⟨hreset, ht, hfull⟩ := hroom
      refine ⟨0, ?_⟩
      rw [Function.iterate_one, Function.iterate_zero, volume_bend]
      exact h.falls hreset ht hfull

end Channel

/-! ## Replays -/

/-- An envelope between volumes within 0 and 0x40 goes to its target and stays there: the
    volume never leaves the way to the target, never turns back, and is there after as many
    effects as its timer and the way say.  This is so if and only if no step up from below
    the target passes 127.  Where one does, the volume falls back before it is there. -/
theorem Replay.envelope_arrives_iff {r : Replay} {i : Slot} (score : Score) (rate : UInt32)
    (hbending : 0 < r.machine.channels[i].bending) (hvolume : Level r.machine.channels[i].volume)
    (htarget : Level r.machine.channels[i].envelope.target)
    (hrate : r.machine.channels[i].envelope.rate ≠ 0)
    (hreset : r.machine.channels[i].envelope.reset ≠ 0) :
    let c := r.machine.channels[i]
    let start := c.volume.toInt
    let target := c.envelope.target.toInt
    let volume := fun n => (r.machine.bent i n).volume.toInt
    let steps := stepsLeft (c.envelope.time.toNat + 1) (c.envelope.reset.toNat + 1)
      (target - start).natAbs
    (∀ ms, LeftAlone score rate i ms r →
      (run score rate ms r).machine.channels[i].volume.toInt =
        volume (ms.countP (Move.bends i))) ∧
    (Arrives start target volume ↔ Climbs start target c.envelope.rate.toNat) ∧
    (Climbs start target c.envelope.rate.toNat → ArrivesBy steps start target volume) ∧
    (¬ Climbs start target c.envelope.rate.toNat →
      ∃ n, volume n < target ∧ volume (n + 1) < volume n) := by
  intro c start target volume steps
  have hpos : 0 < c.envelope.rate.toNat :=
    Nat.pos_of_ne_zero fun h0 => hrate (UInt8.toNat_inj.1 h0)
  have hswelling : c.Swelling := ⟨hvolume, htarget, hpos, fun h0 => absurd h0 hreset⟩
  have hbent : volume = fun n => (Channel.bend^[n] c).volume.toInt :=
    funext fun n => by simp only [volume, Machine.bent_eq hbending n, c]
  have harrives : Climbs start target c.envelope.rate.toNat →
      ArrivesBy steps start target volume := fun h => hbent ▸ hswelling.arrives h
  have hfalls : ¬ Climbs start target c.envelope.rate.toNat →
      ∃ n, volume n < target ∧ volume (n + 1) < volume n := fun h =>
    hbent ▸ hswelling.falls_back _ (Nat.le_refl _) h
  refine ⟨fun ms hms => ?_, ⟨fun ⟨m, h⟩ => ?_, fun h => ⟨steps, harrives h⟩⟩, harrives, hfalls⟩
  · have hsound := congrArg Channel.volume (sound_run ms hms)
    exact congrArg Int8.toInt hsound
  · by_contra hnot
    obtain ⟨n, hbelow, hfall⟩ := hfalls hnot
    have hnears := h.nears n (n + 1) (Nat.le_succ n)
    unfold Nears at hnears
    omega

namespace Player

/-- A tune whose macro slides the volume from nothing to the full one, at a rate of its
    own, and every second tick. -/
def envelopeTune (rate : UInt32) : ByteArray :=
  smallTune 0x1000 [0x10000000, 0xf3ff0000]
    [0x01010000, (0x0f000140 : UInt32) ||| (rate <<< 16), 0x07000000]

/-- At the rate 16 the volume has come to 32 after three ticks, and it arrives. -/
theorem envelope_arrives_envelopeTune : ∃ tune p q,
    load (envelopeTune 16) (some ⟨#[]⟩) = .ok tune ∧ Player.new tune minRate = .ok p ∧
      q = tick^[2] p ∧ 0 < q.replay.machine.channels[(0 : Slot)].bending ∧
      q.replay.machine.channels[(0 : Slot)].volume = 0 ∧
      q.replay.machine.channels[(0 : Slot)].envelope = { rate := 16, reset := 1, target := 0x40 } ∧
      (tick^[3] q).replay.machine.channels[(0 : Slot)].volume.toInt =
        (q.replay.machine.bent 0 3).volume.toInt ∧
      (tick^[3] q).replay.machine.channels[(0 : Slot)].volume = 32 ∧
      ArrivesBy 127 0 0x40 fun n => (q.replay.machine.bent 0 n).volume.toInt := by
  have h : ((load (envelopeTune 16) (some ⟨#[]⟩)).toOption.bind fun tune =>
      (Player.new tune minRate).toOption.map fun p =>
        let q := tick^[2] p
        (decide (0 < q.replay.machine.channels[(0 : Slot)].bending),
          q.replay.machine.channels[(0 : Slot)].volume,
          q.replay.machine.channels[(0 : Slot)].envelope,
          decide (Replay.LeftAlone q.tune.score q.rate 0 (q.ticksMoves 3) q.replay),
          (q.ticksMoves 3).countP (Replay.Move.bends 0),
          (tick^[3] q).replay.machine.channels[(0 : Slot)].volume)) =
        some (true, 0, { rate := 16, reset := 1, target := 0x40 }, true, 3, 32) := by
    decide +kernel
  obtain ⟨tune, p, hload, hnew, h⟩ := exists_new h
  simp only [Prod.mk.injEq, decide_eq_true_eq] at h
  obtain ⟨hbending, hvolume, henvelope, halone, hcount, hafter⟩ := h
  have hlaw := Replay.envelope_arrives_iff (tick^[2] p).tune.score (tick^[2] p).rate hbending
    (by rw [hvolume]; exact level_zero) (by rw [henvelope]; exact level_full)
    (by rw [henvelope]; decide) (by rw [henvelope]; decide)
  simp only [hvolume, henvelope] at hlaw
  obtain ⟨hrun, -, harrives, -⟩ := hlaw
  have hticks := hrun _ halone
  rw [hcount] at hticks
  refine ⟨tune, p, _, hload, hnew, rfl, hbending, hvolume, henvelope, ?_, hafter,
    harrives (climbs_of_le (by decide))⟩
  rw [← run_ticksMoves]
  exact hticks

/-- At the rate 128 the first step leads from nothing to a volume below it. -/
theorem envelope_falls : ∃ tune p q,
    load (envelopeTune 128) (some ⟨#[]⟩) = .ok tune ∧ Player.new tune minRate = .ok p ∧
      q = tick^[2] p ∧ 0 < q.replay.machine.channels[(0 : Slot)].bending ∧
      q.replay.machine.channels[(0 : Slot)].volume = 0 ∧
      q.replay.machine.channels[(0 : Slot)].envelope = { rate := 128, reset := 1, target := 0x40 } ∧
      Replay.LeftAlone q.tune.score q.rate 0 q.tickMoves q.replay ∧
      q.tick.replay.machine.channels[(0 : Slot)].volume = -128 ∧
      ¬ Arrives 0 0x40 fun n => (q.replay.machine.bent 0 n).volume.toInt := by
  have h : ((load (envelopeTune 128) (some ⟨#[]⟩)).toOption.bind fun tune =>
      (Player.new tune minRate).toOption.map fun p =>
        let q := tick^[2] p
        (decide (0 < q.replay.machine.channels[(0 : Slot)].bending),
          q.replay.machine.channels[(0 : Slot)].volume,
          q.replay.machine.channels[(0 : Slot)].envelope,
          decide (Replay.LeftAlone q.tune.score q.rate 0 q.tickMoves q.replay),
          q.tick.replay.machine.channels[(0 : Slot)].volume,
          (q.replay.machine.bent 0 1).volume)) =
        some (true, 0, { rate := 128, reset := 1, target := 0x40 }, true, -128, -128) := by
    decide +kernel
  obtain ⟨tune, p, hload, hnew, h⟩ := exists_new h
  simp only [Prod.mk.injEq, decide_eq_true_eq] at h
  obtain ⟨hbending, hvolume, henvelope, halone, hafter, hbent⟩ := h
  refine ⟨tune, p, _, hload, hnew, rfl, hbending, hvolume, henvelope, halone, hafter, ?_⟩
  rintro ⟨n, harrives⟩
  have hone := harrives.between 1
  simp only [hbent] at hone
  exact absurd hone (by decide)

end Player

end PaulaReplay
