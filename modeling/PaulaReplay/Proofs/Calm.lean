/-
  Calm: ticks in which no macro runs.

  Where the macros have ended, no sound effect waits, no voice is switched on
  and the next row is some ticks away, a tick leaves each channel to itself:
  its lock counts down, and its effects go on.

  * `Channel.drift` is what a channel does by itself;
  * `Replay.Calm` says that this is all that happens for some ticks;
  * `Player.calm_tick`: what a tick makes of a calm replay;
  * `Player.calm_iterate`: the first channel drifts for all these ticks.
-/
import Mathlib.Tactic.MkIffOfInductiveProp
import PaulaReplay.Proofs.Moves

namespace PaulaReplay

/-! ## Channels -/

namespace Channel

/-- The macro has ended, and no sound effect waits. -/
def Calm (c : Channel) : Prop := c.program.running = 0 ∧ c.reservation.code = 0

instance (c : Channel) : Decidable c.Calm := inferInstanceAs (Decidable (_ ∧ _))

/-- The effects of a channel in a tick. -/
def bendOn (c : Channel) : Channel :=
  if c.bending < 0 then c else if c.bending = 0 then { c with bending := 1 } else c.bend

/-- What a channel does by itself in a tick. -/
def drift (c : Channel) : Channel := c.countLock.bendOn

/-- Where the macro stands, and what keeps notes off. -/
def duty (c : Channel) : Program × Reservation := (c.program, c.reservation)

theorem duty_sweepOn (c : Channel) : c.sweepOn.duty = c.duty := by
  unfold sweepOn; split <;> rfl

theorem duty_groundSweep (c : Channel) : c.groundSweep.duty = c.duty := by
  unfold groundSweep; split <;> rfl

theorem duty_sway (c : Channel) : c.sway.duty = c.duty := by
  unfold sway; split <;> rfl

theorem duty_slideOn (c : Channel) : c.slideOn.duty = c.duty := by
  unfold slideOn
  split
  · rfl
  · simp only; split <;> rfl

theorem duty_swell (c : Channel) : c.swell.duty = c.duty := by
  unfold swell
  split
  · rfl
  · split
    · rfl
    · simp only; split <;> rfl

theorem duty_bendOn (c : Channel) : c.bendOn.duty = c.duty := by
  unfold bendOn
  split_ifs
  · rfl
  · rfl
  · rw [bend, duty_swell, duty_slideOn, duty_sway, duty_groundSweep, duty_sweepOn]

variable {c c' : Channel}

theorem Calm.congr (h : c.Calm) (he : c'.duty = c.duty) : c'.Calm := by
  rw [duty, duty, Prod.mk.injEq] at he
  exact ⟨by rw [he.1]; exact h.1, by rw [he.2]; exact h.2⟩

theorem Calm.countLock (h : c.Calm) : c.countLock.Calm := by
  unfold Channel.countLock
  split <;> exact h

theorem Calm.drift (h : c.Calm) : c.drift.Calm := h.countLock.congr (duty_bendOn _)

/-! ## Vibratos -/

/-- The sound of a channel changes, and it is a vibrato alone that changes
    it. -/
@[mk_iff]
structure Swaying (c : Channel) : Prop where
  bending : 0 < c.bending
  sweep : c.sweep.time = 0
  address : ¬ c.region.address.toInt32 < 0
  slide : c.slide.rate = 0
  envelope : c.envelope.reset = 0
  vibrato : c.vibrato.reset ≠ 0

instance (c : Channel) : Decidable c.Swaying := decidable_of_iff' _ (swaying_iff c)

theorem pitch_countLock (c : Channel) : c.countLock.pitch = c.pitch := by
  unfold countLock; split <;> rfl

theorem vibrato_countLock (c : Channel) : c.countLock.vibrato = c.vibrato := by
  unfold countLock; split <;> rfl

theorem target_sway (c : Channel) : c.sway.pitch.target = c.pitch.target := by
  unfold sway; split <;> rfl

theorem Swaying.countLock (h : c.Swaying) : c.countLock.Swaying := by
  unfold Channel.countLock
  split <;> exact ⟨h.bending, h.sweep, h.address, h.slide, h.envelope, h.vibrato⟩

theorem Swaying.sway (h : c.Swaying) : c.sway.Swaying := by
  rw [Channel.sway, if_neg h.vibrato]
  exact ⟨h.bending, h.sweep, h.address, h.slide, h.envelope, h.vibrato⟩

theorem Swaying.groundSweep_sweepOn (h : c.Swaying) : c.sweepOn.groundSweep = c := by
  rw [show c.sweepOn = c from if_pos h.sweep]
  exact if_neg h.address

theorem Swaying.bendOn_eq (h : c.Swaying) : c.bendOn = c.sway := by
  have hneg : ¬ c.bending < 0 := fun hlt => Int8.lt_irrefl (Int8.lt_trans hlt h.bending)
  have hzero : c.bending ≠ 0 := fun he => Int8.lt_irrefl (he ▸ h.bending)
  have hslide : c.sway.slideOn = c.sway := if_pos h.sway.slide
  have hswell : c.sway.swell = c.sway := if_pos h.sway.envelope
  rw [bendOn, if_neg hneg, if_neg hzero, bend, h.groundSweep_sweepOn, hslide, hswell]

/-- Until it turns back, a vibrato goes on by its width in each tick. -/
theorem Swaying.iterate_drift : ∀ (k : Nat) {c : Channel}, c.Swaying →
    k ≤ (c.vibrato.time - 1).toNat → (drift^[k] c).Swaying ∧
      (drift^[k] c).pitch.target = c.pitch.target ∧
      (drift^[k] c).vibrato.width = c.vibrato.width ∧
      (drift^[k] c).vibrato.offset = c.vibrato.offset + Int16.ofNat k * c.vibrato.width.toInt16
  | 0, c, h, _ => ⟨h, rfl, rfl, by simp⟩
  | k + 1, c, h, hk => by
    have hne : c.vibrato.time - 1 ≠ 0 := by
      intro h0
      rw [h0] at hk
      exact absurd hk (Nat.not_succ_le_zero k)
    have hd : c.drift = c.countLock.sway := h.countLock.bendOn_eq
    have hs : c.drift.Swaying := hd ▸ h.countLock.sway
    have ht : c.drift.pitch.target = c.pitch.target := by
      rw [hd, target_sway, pitch_countLock]
    have hv : c.drift.vibrato = { c.vibrato with
        offset := c.vibrato.offset + c.vibrato.width.toInt16, time := c.vibrato.time - 1 } := by
      rw [hd, Channel.sway, if_neg h.countLock.vibrato]
      simp only [vibrato_countLock, if_neg hne]
    have hk' : k ≤ (c.drift.vibrato.time - 1).toNat := by
      have hle : (1 : UInt8) ≤ c.vibrato.time - 1 := UInt8.le_iff_toNat_le.2
        (Nat.one_le_iff_ne_zero.2 fun he => hne (UInt8.toNat_inj.1 he))
      rw [hv, UInt8.toNat_sub_of_le _ _ hle]
      exact Nat.le_sub_one_of_lt hk
    obtain ⟨hswaying, htarget, hwidth, hoffset⟩ := hs.iterate_drift k hk'
    rw [Function.iterate_succ_apply]
    refine ⟨hswaying, htarget.trans ht, hwidth.trans (by rw [hv]), ?_⟩
    rw [hoffset, hv, Int16.ofNat_add]
    grind

end Channel

/-! ## Machines -/

namespace Machine

variable {m : Machine} {score : Score} {rate : UInt32} {i : Slot}

/-- All channels are calm, and all voices are switched off. -/
@[mk_iff]
structure Calm (m : Machine) : Prop where
  channels : ∀ i : Slot, m.channels[i].Calm
  voices : ∀ i : Slot, m.voices[i].mode &&& 1 = 0

instance (m : Machine) : Decidable m.Calm := decidable_of_iff' _ (calm_iff m)

theorem setChannel_setChannel (m : Machine) (i : Slot) (c c' : Channel) :
    (m.setChannel i c).setChannel i c' = m.setChannel i c' := by
  have h : (m.channels.set i c).set i c' = m.channels.set i c' := by
    ext j
    simp only [Octet.getElem_set]
    split <;> rfl
  exact congrArg (fun channels => { m with channels }) h

/-- The share of a channel in a tick, with the channel apart. -/
theorem channels_bend (m : Machine) (i : Slot) :
    (m.bend i).channels = m.channels.set i m.channels[i].bendOn := by
  unfold bend Channel.bendOn
  simp only
  split_ifs
  · exact (Octet.set_getElem_self _ _).symm
  · rfl
  · rfl

theorem voices_bend (m : Machine) (i : Slot) : (m.bend i).voices = m.voices := by
  unfold bend
  simp only
  split_ifs <;> rfl

/-- No sound effect is dispatched and no macro has a turn on a calm channel. -/
theorem takeTurn_takeEffect (h : m.channels[i].Calm) :
    (m.takeEffect score i).takeTurn score i = m := by
  have he : m.takeEffect score i = m := if_pos h.2
  have hw : m.channels[i].countWait = (m.channels[i], false) := if_pos h.1
  rw [he, takeTurn, hw]
  exact congrArg (fun channels => { m with channels }) (Octet.set_getElem_self _ _)

theorem tickChannel_of_calm (h : m.channels[i].Calm) : m.tickChannel score rate i =
    ((m.onChannel i Channel.countLock).bend i).loadVoice i rate := by
  have hc : (m.onChannel i Channel.countLock).channels[i].Calm := by
    rw [show (m.onChannel i Channel.countLock).channels[i] = m.channels[i].countLock from
      Octet.getElem_set_self _ _ _]
    exact h.countLock
  rw [tickChannel, takeTurn_takeEffect hc]

theorem channels_tickChannel (h : m.channels[i].Calm) :
    (m.tickChannel score rate i).channels = m.channels.set i m.channels[i].drift := by
  have hself : (m.onChannel i Channel.countLock).channels[i] = m.channels[i].countLock :=
    Octet.getElem_set_self _ _ _
  rw [tickChannel_of_calm h]
  show ((m.onChannel i Channel.countLock).bend i).channels = _
  rw [channels_bend, hself]
  exact congrArg Machine.channels (m.setChannel_setChannel i _ _)

theorem Calm.tickChannel (h : m.Calm) (score : Score) (rate : UInt32) (i : Slot) :
    (m.tickChannel score rate i).Calm := by
  constructor
  · intro j
    rw [channels_tickChannel (h.channels i), Octet.getElem_set]
    split
    · exact (h.channels i).drift
    · exact h.channels j
  · intro j
    rw [tickChannel_of_calm (h.channels i)]
    show ((((m.onChannel i Channel.countLock).bend i).voices).set i _)[j].mode &&& 1 = 0
    rw [voices_bend, Octet.getElem_set]
    split
    · show ((m.onChannel i Channel.countLock).bend i).voices[i].mode &&& 1 = 0
      rw [voices_bend]
      exact h.voices i
    · exact h.voices j

/-- Some channels have drifted, and the others are as they were. -/
def Drifted (is : List Slot) (m m' : Machine) : Prop :=
  ∀ j, (j ∈ is → m'.channels[j] = m.channels[j].drift) ∧
    (j ∉ is → m'.channels[j] = m.channels[j])

/-- Channels that are calm drift, each that has its tick. -/
theorem Calm.foldl (score : Score) (rate : UInt32) :
    ∀ (is : List Slot) {m : Machine}, is.Nodup → m.Calm →
    (is.foldl (fun m i => m.tickChannel score rate i) m).Calm ∧
      Drifted is m (is.foldl (fun m i => m.tickChannel score rate i) m)
  | [], _, _, h => ⟨h, fun _ => ⟨fun hj => absurd hj List.not_mem_nil, fun _ => rfl⟩⟩
  | i :: is, m, hn, h => by
    obtain ⟨hi, hn⟩ := List.nodup_cons.1 hn
    obtain ⟨hcalm, hall⟩ := Calm.foldl score rate is hn (h.tickChannel score rate i)
    have hstep : (m.tickChannel score rate i).channels = m.channels.set i m.channels[i].drift :=
      channels_tickChannel (h.channels i)
    rw [List.foldl_cons]
    refine ⟨hcalm, fun j => ?_⟩
    rcases eq_or_ne i j with rfl | hj
    · refine ⟨fun _ => ?_, fun hnot => absurd List.mem_cons_self hnot⟩
      rw [(hall i).2 hi, hstep, Octet.getElem_set_self]
    · have hother : (m.tickChannel score rate i).channels[j] = m.channels[j] := by
        rw [hstep, Octet.getElem_set_ne _ hj]
      rw [List.mem_cons, or_iff_right hj.symm, ← hother]
      exact hall j

theorem nodup_channelOrder (multi : Bool) : (channelOrder multi).Nodup := by
  cases multi <;> decide

theorem Calm.tickChannels (h : m.Calm) (score : Score) (rate : UInt32) :
    (m.tickChannels score rate).Calm ∧
      Drifted (channelOrder m.multi) m (m.tickChannels score rate) :=
  Calm.foldl score rate _ (nodup_channelOrder m.multi) h

end Machine

/-! ## Voices -/

/-- A voice that is switched off plays nothing. -/
theorem Voice.render_of_off {v : Voice} (h : v.mode &&& 1 = 0) (bank : Bank) (n : Nat) :
    v.render bank n = ⟨v, #[], false⟩ := by
  have hoff : v.audible bank = false := by
    rw [audible, h]
    simp only [bne_self_eq_false, Bool.and_false, Bool.false_and]
  rw [render, hoff]
  rfl

/-! ## Replays -/

namespace Replay

variable {r : Replay} {n : Nat}

/-- The channels are calm, the song is played, and there are so many ticks
    before its next row. -/
@[mk_iff]
structure Calm (n : Nat) (r : Replay) : Prop where
  machine : r.machine.Calm
  enabled : r.machine.master.enabled = true
  song : 0 ≤ r.song
  speed : n ≤ r.machine.master.speedCount.toNat

instance (n : Nat) (r : Replay) : Decidable (r.Calm n) := decidable_of_iff' _ (calm_iff n r)

/-- The sound of a tick leaves a calm machine as it is. -/
theorem machine_render (h : r.machine.Calm) (bank : Bank) (rate : UInt32) :
    (r.render bank rate).machine = r.machine := by
  have hr : ∀ i : Slot, (Mix.renderings bank r.machine.multi (r.clock.tick rate).1
      r.machine.voices)[i] = ⟨r.machine.voices[i], #[], false⟩ := by
    intro i
    rw [Mix.renderings, Octet.getElem_ofFn, Voice.render_of_off (h.voices i), ite_self]
  have hv : (Mix.renderings bank r.machine.multi (r.clock.tick rate).1 r.machine.voices).map
      (·.voice) = r.machine.voices := by
    ext i
    rw [Octet.getElem_map, hr]
  have hc : (Octet.ofFn fun i => if ((Mix.renderings bank r.machine.multi (r.clock.tick rate).1
      r.machine.voices).map (·.fired))[i] then { r.machine.channels[i] with program.running := -1 }
        else r.machine.channels[i]) = r.machine.channels := by
    ext i
    rw [Octet.getElem_ofFn, Octet.getElem_map, hr]
    exact if_neg Bool.false_ne_true
  unfold render Player.resume
  simp only
  rw [hv, hc]

/-- In a calm tick the channels have their ticks, and the ticks of the row
    count down. -/
theorem Calm.advance_eq (h : r.Calm (n + 1)) (score : Score) (rate : UInt32) :
    Player.advance score rate r =
      (r.begin.onMachine (·.tickChannels score rate)).countTick := by
  have hboard := Machine.board_tickChannels score rate r.begin.machine
  have hspeed : (r.begin.machine.tickChannels score rate).master.speedCount =
      r.machine.master.speedCount := congrArg (fun b => b.1.speedCount) hboard
  have hne : r.machine.master.speedCount ≠ 0 := by
    intro h0
    have hs := h.speed
    rw [h0] at hs
    exact absurd hs (Nat.not_succ_le_zero n)
  calc Player.advance score rate r
      = if r.machine.master.enabled then
          if 0 ≤ r.song then (r.begin.onMachine (·.tickChannels score rate)).tickTracks score
          else r.begin.onMachine (·.tickChannels score rate)
        else r.begin := rfl
    _ = (r.begin.onMachine (·.tickChannels score rate)).tickTracks score := by
        rw [if_pos h.enabled, if_pos h.song]
    _ = (r.begin.onMachine (·.tickChannels score rate)).countTick :=
        if_pos (by exact hspeed.trans_ne hne)

end Replay

/-! ## Players -/

namespace Player

variable {p : Player} {n : Nat}

/-- A tick of a calm replay: its channels drift, and it is calm for the ticks
    that are left. -/
theorem calm_tick (h : p.replay.Calm (n + 1)) : p.tick.replay.Calm n ∧
    p.tick.replay.machine.multi = p.replay.machine.multi ∧
    Machine.Drifted (Machine.channelOrder p.replay.machine.multi) p.replay.machine
      p.tick.replay.machine := by
  have hbegin : p.replay.begin.machine.Calm := ⟨h.machine.channels, h.machine.voices⟩
  obtain ⟨hcalm, hchannels⟩ := hbegin.tickChannels p.tune.score p.rate
  have hdone : ((p.replay.begin.onMachine
      (·.tickChannels p.tune.score p.rate)).countTick).machine.Calm :=
    ⟨hcalm.channels, hcalm.voices⟩
  have hboard := Machine.board_tickChannels p.tune.score p.rate p.replay.begin.machine
  have hreplay : p.tick.replay = ((p.replay.begin.onMachine
      (·.tickChannels p.tune.score p.rate)).countTick).render p.tune.score.bank p.rate := by
    rw [← h.advance_eq, ← p.run_tickMoves, run, tickMoves, Replay.run_tickMoves]
  have hm : p.tick.replay.machine = ((p.replay.begin.onMachine
      (·.tickChannels p.tune.score p.rate)).countTick).machine := by
    rw [hreplay]
    exact Replay.machine_render hdone _ _
  have hspeed : p.tick.replay.machine.master.speedCount =
      p.replay.machine.master.speedCount - 1 := by
    rw [hm]
    exact congrArg (fun b => b.1.speedCount - 1) hboard
  have hs := h.speed
  refine ⟨⟨?_, ?_, ?_, ?_⟩, ?_, ?_⟩
  · rw [hm]
    exact hdone
  · rw [hm]
    exact (congrArg (fun b => b.1.enabled) hboard).trans h.enabled
  · rw [hreplay]
    exact h.song
  · rw [hspeed]
    have hle : (1 : UInt16) ≤ p.replay.machine.master.speedCount := by
      rw [UInt16.le_iff_toNat_le]
      exact (Nat.succ_le_succ n.zero_le).trans hs
    rw [UInt16.toNat_sub_of_le _ _ hle]
    exact Nat.le_sub_one_of_lt hs
  · rw [hm]
    exact congrArg (fun b => b.2.1) hboard
  · rw [hm]
    exact hchannels

/-- For as many ticks as a replay is calm, its first channel drifts. -/
theorem calm_iterate : ∀ (k : Nat) {p : Player}, p.replay.Calm (n + k) →
    (tick^[k] p).replay.Calm n ∧ (tick^[k] p).replay.machine.channels[Slot.ofNat 0] =
      Channel.drift^[k] p.replay.machine.channels[Slot.ofNat 0]
  | 0, _, h => ⟨h, rfl⟩
  | k + 1, p, h => by
    obtain ⟨hcalm, -, hchannels⟩ := calm_tick (n := n + k) h
    obtain ⟨hk, hfirst⟩ := calm_iterate k hcalm
    rw [Function.iterate_succ_apply, Function.iterate_succ_apply]
    refine ⟨hk, ?_⟩
    have hmem : Slot.ofNat 0 ∈ Machine.channelOrder p.replay.machine.multi := by
      cases p.replay.machine.multi <;> decide
    rw [hfirst, (hchannels _).1 hmem]

end Player

end PaulaReplay
