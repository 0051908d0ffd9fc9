/-
  Bending: how a channel goes on that is left alone but for its effects.

  The effects of a channel read and change the registers that are heard, and nothing else
  in a tick changes them unless a word comes to the channel or it is switched off.  So
  however a replay goes on in between, such a channel is what its effects have made of it.

  * `Channel.sweepOn_frame` and the lemmas after it: what each of the effects changes;
  * `Channel.sound`: the registers that are heard, and `sound_bendOn` that the effects
    read no others;
  * `Machine.bent`: a channel after its effects have gone on for so many ticks;
  * `Replay.disturbs`: a move changes the sound of a channel in another way, and
    `Replay.LeftAlone` that no move does;
  * `Replay.sound_run`: a channel that is left alone sounds as its effects have made it.
-/
import PaulaReplay.Proofs.Channels

namespace PaulaReplay

/-! ## Effects -/

namespace Channel

variable {c : Channel}

theorem sweepOn_frame (c : Channel) : c.sweepOn.groundSweep =
    { c with region := c.sweepOn.groundSweep.region, sweep := c.sweepOn.groundSweep.sweep } := by
  unfold groundSweep sweepOn
  split_ifs <;> rfl

theorem sway_frame (c : Channel) :
    c.sway = { c with pitch.period := c.sway.pitch.period, vibrato := c.sway.vibrato } := by
  unfold sway
  split <;> rfl

theorem slideOn_frame (c : Channel) :
    c.slideOn = { c with pitch.period := c.slideOn.pitch.period, slide := c.slideOn.slide } := by
  unfold slideOn
  split
  · rfl
  · simp only
    split <;> rfl

theorem swell_frame (c : Channel) :
    c.swell = { c with volume := c.swell.volume, envelope := c.swell.envelope } := by
  unfold swell
  split
  · rfl
  · split
    · rfl
    · simp only
      split <;> rfl

/-- All effects together leave the place of the macro, what keeps notes off, and whether the
    effects go on. -/
theorem bending_bend (c : Channel) : c.bend.bending = c.bending := by
  rw [bend, swell_frame, slideOn_frame, sway_frame, sweepOn_frame]

/-! ### What is heard -/

/-- The registers that are heard: all but the place of the macro, and what keeps notes
    off. -/
def sound (c : Channel) : Channel := { c with program := {}, reservation := {} }

theorem sound_sweepOn (c : Channel) : c.sweepOn.sound = c.sound.sweepOn := by
  unfold sweepOn
  split
  · next h => exact (if_pos h).symm
  · next h => exact (if_neg h).symm

theorem sound_groundSweep (c : Channel) : c.groundSweep.sound = c.sound.groundSweep := by
  unfold groundSweep
  split
  · next h => exact (if_pos h).symm
  · next h => exact (if_neg h).symm

theorem sound_sway (c : Channel) : c.sway.sound = c.sound.sway := by
  unfold sway
  split
  · next h => exact (if_pos h).symm
  · next h => exact (if_neg h).symm

theorem sound_slideOn (c : Channel) : c.slideOn.sound = c.sound.slideOn := by
  unfold slideOn
  split
  · next h => exact (if_pos h).symm
  · next h =>
    refine Eq.trans ?_ (if_neg h).symm
    simp only
    split
    · next ht => exact (if_pos ht).symm
    · next ht => exact (if_neg ht).symm

theorem sound_swell (c : Channel) : c.swell.sound = c.sound.swell := by
  unfold swell
  split
  · next h => exact (if_pos h).symm
  · next h =>
    refine Eq.trans ?_ (if_neg h).symm
    split
    · next ht => exact (if_pos ht).symm
    · next ht =>
      refine Eq.trans ?_ (if_neg ht).symm
      simp only
      split
      · next ha => exact (if_pos ha).symm
      · next ha => exact (if_neg ha).symm

/-- The effects read what is heard, and nothing else. -/
theorem sound_bendOn (c : Channel) : c.bendOn.sound = c.sound.bendOn := by
  unfold bendOn
  split
  · next h => exact (if_pos h).symm
  · next h =>
    refine Eq.trans ?_ (if_neg h).symm
    split
    · next h0 => exact (if_pos h0).symm
    · next h0 =>
      refine Eq.trans ?_ (if_neg h0).symm
      rw [bend, sound_swell, sound_slideOn, sound_sway, sound_groundSweep, sound_sweepOn]
      rfl

theorem bendOn_of_pos (h : 0 < c.bending) : c.bendOn = c.bend := by
  have hneg : ¬ c.bending < 0 := fun hlt => Int8.lt_irrefl (Int8.lt_trans hlt h)
  have hzero : c.bending ≠ 0 := fun he => Int8.lt_irrefl (he ▸ h)
  rw [bendOn, if_neg hneg, if_neg hzero]

theorem bending_iterate (n : Nat) (c : Channel) : (bend^[n] c).bending = c.bending := by
  induction n with
  | zero => rfl
  | succ n ih =>
    rw [Function.iterate_succ_apply', bending_bend]
    exact ih

/-- Effects that go on do so in each tick. -/
theorem iterate_bendOn (h : 0 < c.bending) (n : Nat) : bendOn^[n] c = bend^[n] c := by
  induction n with
  | zero => rw [Function.iterate_zero, Function.iterate_zero]
  | succ n ih =>
    have hpos : 0 < (bend^[n] c).bending := by rwa [bending_iterate]
    rw [Function.iterate_succ_apply', ih, bendOn_of_pos hpos, Function.iterate_succ_apply']

end Channel

/-! ## Machines -/

namespace Machine

variable {m : Machine} {score : Score} {rate : UInt32} {i : Slot}

/-- A channel after its effects have gone on for so many ticks. -/
def bent (i : Slot) (m : Machine) (n : Nat) : Channel := ((bend i)^[n] m).channels[i]

theorem bent_eq_bendOn (i : Slot) (m : Machine) (n : Nat) :
    m.bent i n = Channel.bendOn^[n] m.channels[i] := by
  induction n with
  | zero => rfl
  | succ n ih =>
    rw [bent, Function.iterate_succ_apply', channels_bend, Octet.getElem_set_self,
      Function.iterate_succ_apply', ← ih]
    rfl

theorem bent_eq (h : 0 < m.channels[i].bending) (n : Nat) :
    m.bent i n = Channel.bend^[n] m.channels[i] :=
  (bent_eq_bendOn i m n).trans (Channel.iterate_bendOn h n)

/-- A move of a channel changes its sound by its effects, unless it runs a word of its macro
    or dispatches one to it. -/
theorem sound_apply {mv : Move} (hword : mv ≠ .word i)
    (hsent : ∀ m' w, m.dispatched score mv = some (m', w) → m'.channelOf w.byte2 ≠ i) :
    (mv.apply score rate m).channels[i].sound =
      if mv = .bend i then m.channels[i].sound.bendOn else m.channels[i].sound := by
  by_cases hslot : mv.slot = i
  · have hself : ∀ f : Channel → Channel, (∀ c, (f c).sound = c.sound) →
        (m.onChannel i f).channels[i].sound = m.channels[i].sound := by
      intro f hf
      have hset : (m.onChannel i f).channels[i] = f m.channels[i] := Octet.getElem_set_self _ _ _
      rw [hset, hf]
    cases mv with
    | word j => exact absurd (congrArg Move.word hslot) hword
    | bend j =>
      obtain rfl : j = i := hslot
      rw [if_pos rfl, Move.apply, channels_bend, Octet.getElem_set_self, Channel.sound_bendOn]
    | takeEffect j =>
      obtain rfl : j = i := hslot
      rw [if_neg (by simp), Move.apply, takeEffect]
      simp only [dispatched] at hsent
      split
      · rfl
      · next hcode =>
        have hto := hsent _ _ (if_neg hcode)
        rw [channels_dispatch, if_neg hto]
        exact hself _ fun _ => rfl
    | countLock j =>
      obtain rfl : j = i := hslot
      rw [if_neg (by simp)]
      refine hself _ fun c => ?_
      unfold Channel.countLock
      split <;> rfl
    | countWait j =>
      obtain rfl : j = i := hslot
      rw [if_neg (by simp)]
      refine hself _ fun c => ?_
      unfold Channel.countWait
      split <;> rfl
    | wake j | halt j =>
      obtain rfl : j = i := hslot
      rw [if_neg (by simp)]
      exact hself _ fun _ => rfl
    | load j => rw [if_neg (by simp)]; rfl
  · have hbend : mv ≠ .bend i := fun he => hslot (congrArg Move.slot he)
    rw [if_neg hbend]
    rcases (m.channel_cases mv hslot : (mv.apply score rate m).channels[i] = _ ∨ _) with
      he | ⟨m', w, hd, hw, -⟩
    · rw [he]
    · exact absurd hw (hsent m' w hd)

end Machine

/-! ## Replays -/

namespace Replay

variable {score : Score} {rate : UInt32} {r : Replay} {i : Slot}

/-- A move in which the effects of a channel go on. -/
def Move.bends (i : Slot) : Move → Bool
  | .machine (.bend j) => j == i
  | _ => false

/-- A move may change the sound of a channel otherwise: it runs a word of its macro,
    dispatches a word to it, switches it off, or puts all back. -/
def disturbs (score : Score) (i : Slot) (r : Replay) (mv : Move) : Bool :=
  (match mv with
    | .machine (.word j) => j == i
    | _ => false) ||
  ((r.dispatched score mv).any fun (m, w) => m.channelOf w.byte2 == i) || r.silences i mv

/-- None of some moves does so. -/
def LeftAlone (score : Score) (rate : UInt32) (i : Slot) (ms : List Move) (r : Replay) : Prop :=
  Along score rate (fun r mv => r.disturbs score i mv = false) ms r

instance (ms : List Move) : Decidable (LeftAlone score rate i ms r) := decidableAlong ms r

/-- A move that does not disturb a channel changes its sound by its effects alone. -/
theorem sound_apply {mv : Move} (h : r.disturbs score i mv = false) :
    (mv.apply score rate r).machine.channels[i].sound =
      if mv.bends i then r.machine.channels[i].sound.bendOn
      else r.machine.channels[i].sound := by
  simp only [disturbs, Bool.or_eq_false_iff] at h
  obtain ⟨⟨hword, hsent⟩, hsilences⟩ := h
  have hto : ∀ m w, r.dispatched score mv = some (m, w) → m.channelOf w.byte2 ≠ i := by
    intro m w hd
    rw [hd, Option.any_some] at hsent
    exact beq_eq_false_iff_ne.1 hsent
  by_cases hmachine : ∃ mv', mv = .machine mv'
  · obtain ⟨mv', rfl⟩ := hmachine
    have hown : mv' ≠ .word i := by
      rintro rfl
      exact beq_eq_false_iff_ne.1 hword rfl
    have hbends : (Move.bends i (.machine mv') = true) ↔ mv' = .bend i := by
      cases mv' <;> simp [Move.bends]
    simp only [hbends]
    exact Machine.sound_apply hown hto
  · have hbends : mv.bends i = false := by
      cases mv with
      | machine mv' => exact absurd ⟨mv', rfl⟩ hmachine
      | _ => rfl
    have hafter := channelAfter_apply score rate r mv i
    rw [hbends, if_neg Bool.false_ne_true]
    generalize (mv.apply score rate r).machine.channels[i] = c at hafter
    cases hafter with
    | same => rfl
    | own _ hmv => exact absurd ⟨_, hmv⟩ hmachine
    | received hd hi => exact absurd hi (hto _ _ hd)
    | silenced hoff | reset hoff =>
      rw [hsilences] at hoff
      cases hoff
    | resumed | reserved => rfl

/-- A channel that is left alone sounds as its effects have made it, whatever happens in
    between. -/
theorem sound_run : ∀ (ms : List Move) {r : Replay}, LeftAlone score rate i ms r →
    (run score rate ms r).machine.channels[i].sound =
      (r.machine.bent i (ms.countP (Move.bends i))).sound := by
  have hiterate : ∀ (n : Nat) (c : Channel),
      (Channel.bendOn^[n] c).sound = Channel.bendOn^[n] c.sound :=
    fun n c => (Function.Semiconj.iterate_right (f := Channel.sound) Channel.sound_bendOn n) c
  intro ms
  induction ms with
  | nil => exact fun _ => rfl
  | cons mv ms ih =>
    rintro r ⟨hmv, hms⟩
    rw [run_cons, ih hms, Machine.bent_eq_bendOn, Machine.bent_eq_bendOn, hiterate, hiterate,
      sound_apply hmv, List.countP_cons]
    split
    · rw [Function.iterate_succ_apply]
    · rfl

end Replay

end PaulaReplay
