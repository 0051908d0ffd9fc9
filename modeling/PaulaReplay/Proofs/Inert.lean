/-
  Inert: with four voices the other four are left alone.

  Channels are named by notes, by macros that start others, by tracks that
  switch a channel off, and by a host.  All of them are cut down to the channels
  that have ticks, but for a track that switches a channel off; and a channel
  that was never switched on stays what it is when it is switched off.

  * `Machine.Inert`: the channels without ticks, and their voices, are as they
    are before a song starts;
  * `Machine.Inert.apply`, `Replay.inert_apply`: each move keeps it whose channel
    has ticks;
  * `Replay.multi_apply`, `Replay.multi_run`: seven voices are never switched off again;
  * `Player.Reachable.inert`: it holds whatever a host does.
-/
import PaulaReplay.Proofs.Positions

namespace PaulaReplay

/-! ## Channels without ticks -/

/-- A channel with its voice before a song starts. -/
def Lane.unheard (i : Slot) : Lane := (Replay.initial false).reset.machine.lane i

/-- It is switched off already. -/
theorem unheard_silenced : ∀ i : Slot,
    (⟨(Lane.unheard i).channel.silenced, (Lane.unheard i).voice.silenced⟩ : Lane) =
      Lane.unheard i := by
  decide +kernel

namespace Machine

variable {m m' : Machine} {score : Score} {rate : UInt32} {i : Slot}

/-- While four voices are heard, the channels without ticks are as they are
    before a song starts, and so are their voices. -/
def Inert (m : Machine) : Prop :=
  m.multi = false → ∀ i : Slot, 4 ≤ i.val → m.lane i = Lane.unheard i

theorem lt_of_mem_channelOrder (h : i ∈ channelOrder m.multi) (hm : m.multi = false) :
    i.val < 4 := by
  have hfour : ∀ i : Slot, i ∈ channelOrder false → i.val < 4 := by decide
  rw [hm] at h
  exact hfour i h

/-- A channel without ticks is as it was before the song started. -/
theorem Inert.lane_eq (h : m.Inert) (hi : i ∉ channelOrder m.multi) :
    m.lane i = Lane.unheard i := by
  have hmask : ¬i.val ≤ m.channelMask.toNat := fun hle => hi (mem_channelOrder_of_le hle)
  unfold channelMask at hmask
  cases hm : m.multi with
  | true =>
    rw [hm] at hmask
    exact absurd (Nat.le_of_lt_succ i.isLt) hmask
  | false =>
    rw [hm] at hmask
    exact h hm i (Nat.lt_of_not_le hmask)

/-- With four voices a number names one of the channels that have ticks. -/
theorem channelOf_lt (hm : m.multi = false) (n : UInt8) : (m.channelOf n).val < 4 := by
  have hle : (n &&& 3).toNat ≤ 3 := by
    rw [UInt8.toNat_and]
    exact Nat.and_le_right
  have hmask : m.channelMask = 3 := by
    rw [channelMask, hm]
    rfl
  rw [channelOf, hmask]
  show (n &&& 3).toNat % 8 < 4
  omega

theorem Inert.congr (h : m.Inert) (hm : m.multi = true → m'.multi = true)
    (hc : m'.channels = m.channels) (hv : m'.voices = m.voices) : m'.Inert := by
  intro hfour i hi
  have hfour : m.multi = false := by
    cases hmulti : m.multi with
    | false => rfl
    | true => exact absurd (hm hmulti) (by rw [hfour]; decide)
  rw [lane, hc, hv]
  exact h hfour i hi

theorem Inert.setChannel (h : m.Inert) (hi : m.multi = false → i.val < 4) (c : Channel) :
    (m.setChannel i c).Inert := by
  intro hfour j hj
  have hne : i ≠ j := by
    rintro rfl
    exact absurd (hi hfour) (Nat.not_lt.2 hj)
  show Lane.mk (m.channels.set i c)[j] m.voices[j] = _
  rw [Octet.getElem_set_ne _ hne]
  exact h hfour j hj

theorem Inert.setVoice (h : m.Inert) (hi : m.multi = false → i.val < 4) (v : Voice) :
    (m.setVoice i v).Inert := by
  intro hfour j hj
  have hne : i ≠ j := by
    rintro rfl
    exact absurd (hi hfour) (Nat.not_lt.2 hj)
  show Lane.mk m.channels[j] (m.voices.set i v)[j] = _
  rw [Octet.getElem_set_ne _ hne]
  exact h hfour j hj

theorem Inert.setLane (h : m.Inert) (hi : m.multi = false → i.val < 4) (l : Lane) :
    (m.setLane i l).Inert :=
  (h.setChannel hi l.channel).setVoice hi l.voice

theorem Inert.dispatch (h : m.Inert) (w : Word) : (m.dispatch score w).Inert :=
  h.setChannel (fun hm => channelOf_lt hm w.byte2) _

/-- A channel without ticks stays what it is when it is switched off. -/
theorem Inert.channelOff (h : m.Inert) (n : Nat) : (m.channelOff n).Inert := by
  unfold Machine.channelOff
  split
  · next hn =>
    simp only
    split
    · intro hfour j hj
      by_cases he : (⟨n % 16, hn⟩ : Slot) = j
      · subst he
        have hlane := h hfour _ hj
        rw [lane_setLane_self, ← unheard_silenced, ← hlane]
        rfl
      · rw [lane_setLane_ne _ he]
        exact h hfour j hj
    · exact h
  · exact h

theorem Inert.runWord (h : m.Inert) (hi : m.multi = false → i.val < 4) :
    (m.runWord score i).Inert := by
  unfold Machine.runWord
  cases (m.lane i).turn score with
  | goesOn l => exact h.setLane hi l
  | rests l => exact h.setLane hi l
  | cues l slot value => exact (h.setLane hi l).congr id rfl rfl
  | starts l w => exact (h.setLane hi l).dispatch w

/-- A move of a channel that has ticks is one of channels that have ticks. -/
theorem Inert.apply (h : m.Inert) {mv : Move} (hmv : mv.slot ∈ channelOrder m.multi) :
    (mv.apply score rate m).Inert := by
  have hi := lt_of_mem_channelOrder hmv
  cases mv with
  | countLock i => exact h.setChannel hi _
  | takeEffect i =>
    rw [Move.apply, takeEffect]
    split
    · exact h
    · exact Inert.dispatch (h.setChannel hi _) _
  | countWait i => exact h.setChannel hi _
  | wake i => exact h.setChannel hi _
  | word i => exact h.runWord hi
  | halt i => exact h.setChannel hi _
  | bend i =>
    rw [Move.apply, bend]
    simp only
    split_ifs
    · exact h
    · exact h.setChannel hi _
    · exact h.setChannel hi _
  | load i => exact h.setVoice hi _

theorem Inert.reachEnd (h : m.Inert) : m.reachEnd.Inert :=
  h.congr (congrArg (·.multi) m.hushed_reachEnd).trans (congrArg (·.channels) m.hushed_reachEnd)
    (congrArg (·.voices) m.hushed_reachEnd)

theorem Inert.grant? (h : m.Inert) (request : Option Request) : (m.grant? score request).Inert := by
  cases request with
  | none => exact h
  | some request =>
    cases request with
    | dispatch w => exact h.dispatch w
    | endSong => exact h.reachEnd
    | fade | cue | endPattern => exact h.congr id rfl rfl

theorem multi_reachEnd (m : Machine) : m.reachEnd.multi = m.multi :=
  congrArg (·.multi) m.hushed_reachEnd

theorem multi_channelOff (m : Machine) (n : Nat) : (m.channelOff n).multi = m.multi :=
  multi_of_board (board_channelOff n m)

theorem multi_grant? (m : Machine) (request : Option Request) :
    (m.grant? score request).multi = m.multi := by
  cases request with
  | none => rfl
  | some request =>
    cases request with
    | endSong => exact m.multi_reachEnd
    | _ => rfl

end Machine

/-! ## Moves -/

namespace Replay

variable {r : Replay} {score : Score} {rate : UInt32}

/-- No command switches seven voices off. -/
theorem multi_obey (h : r.machine.multi = true) (c : StepCommand) :
    (r.obey c).1.machine.multi = true := by
  refine (congrArg (·.machine.multi) (hushed_obey r c)).trans ?_
  show (c.sharesTime || r.machine.multi) = true
  rw [h, Bool.or_true]

theorem multi_greeted (r : Replay) : r.greeted.machine.multi = r.machine.multi :=
  congrArg (·.machine.multi) (hushed_greetFirst r)

theorem multi_readStep (h : r.machine.multi = true) (score : Score) :
    (r.readStep score).1.machine.multi = true := by
  have hg : r.greeted.machine.multi = true := r.multi_greeted.trans h
  rw [readStep_eq]
  split
  · exact r.greeted.machine.multi_reachEnd.trans hg
  · split
    · exact multi_obey hg _
    · exact hg

/-- But for a start, no move switches seven voices off. -/
theorem multi_apply (h : r.machine.multi = true) {mv : Move} (hmv : ∀ multi, mv ≠ .reset multi) :
    (mv.apply score rate r).machine.multi = true := by
  cases mv with
  | machine mv => exact (Machine.multi_apply _ mv).trans h
  | enter i =>
    rw [Move.apply, enterTrack]
    split
    · exact h
    · exact h
    · exact (Machine.multi_channelOff _ _).trans h
  | word i => exact (Machine.multi_grant? _ _).trans h
  | leave => exact (congrArg (·.machine.multi) (hushed_leave r)).trans h
  | readStep => exact multi_readStep h score
  | giveUp => exact (Machine.multi_reachEnd _).trans h
  | reset multi => exact absurd rfl (hmv multi)
  | select n =>
    rw [Move.apply, selectSong]
    unfold enterSong
    simp only
    split <;> exact h
  | aim position e =>
    rw [Move.apply, aim]
    simp only
    split <;> exact h
  | _ => exact h

/-- So moves without a start leave seven voices switched on. -/
theorem multi_run {q : Move → Bool} (hq : ∀ multi, q (.reset multi) = false) {ms : List Move}
    (hms : ms.all q = true) (h : r.machine.multi = true) :
    (run score rate ms r).machine.multi = true := by
  refine Along.run (P := fun r => r.machine.multi = true) (fun r mv hr hmv => ?_) ms
    (along_of_all (fun _ _ hmv => hmv) ms r hms) h
  refine multi_apply hr ?_
  rintro multi rfl
  rw [hq] at hmv
  cases hmv

theorem inert_reset (multi : Bool) : (initial multi).reset.machine.Inert := by
  cases multi with
  | false => exact fun _ _ _ => rfl
  | true =>
    have hmulti : (initial true).reset.machine.multi = true := by decide +kernel
    intro hfour
    rw [hmulti] at hfour
    cases hfour

/-- Voices that are not heard are not rendered, and do not fire. -/
theorem inert_render (h : r.machine.Inert) (bank : Bank) (rate : UInt32) :
    (r.render bank rate).machine.Inert := by
  intro hfour i hi
  have hfour : r.machine.multi = false := hfour
  have hsilent : heard r.machine.multi i = false := by
    rw [heard, hfour, if_neg Bool.false_ne_true]
    exact decide_eq_false (Nat.not_lt.2 hi)
  have hlane := h hfour i hi
  unfold Machine.lane at hlane ⊢
  unfold render Player.resume Mix.renderings
  simp only [Octet.getElem_ofFn, Octet.getElem_map, hsilent, Bool.false_eq_true, if_false]
  exact hlane

theorem inert_readStep (h : r.machine.Inert) (score : Score) :
    (r.readStep score).1.machine.Inert := by
  refine h.congr (fun hm => multi_readStep hm score) (channels_readStep r score) ?_
  rcases sounding_readStep r score with hs | ⟨s, speed, target, -, -, hs⟩ <;>
    exact congrArg (fun x => x.2.1) hs

/-- Each move leaves the channels without ticks alone, if it is not the turn of
    one of them. -/
theorem inert_apply (h : r.machine.Inert) {mv : Move} (hmv : r.Heard mv) :
    (mv.apply score rate r).machine.Inert := by
  cases mv with
  | machine mv => exact h.apply hmv
  | enter i =>
    rw [Move.apply, enterTrack]
    split
    · exact h
    · exact h
    · exact h.channelOff _
  | word i => exact h.grant? _
  | leave =>
    rw [Move.apply, leave]
    split
    · exact Machine.Inert.reachEnd (h.congr id rfl rfl)
    · exact h.congr id rfl rfl
  | readStep => exact inert_readStep h score
  | giveUp => exact h.reachEnd
  | render => exact inert_render h score.bank rate
  | reset multi => exact inert_reset multi
  | select n =>
    have hs := sounding_selectSong r score n
    have hseven (hm : r.machine.multi = true) :
        (Move.apply score rate r (.select n)).machine.multi = true :=
      multi_apply hm (by rintro _ ⟨⟩)
    exact h.congr hseven (congrArg (fun x => x.1) hs) (congrArg (fun x => x.2.1) hs)
  | aim position e =>
    have hs := sounding_aim r position e
    have hseven (hm : r.machine.multi = true) :
        (Move.apply score rate r (.aim position e)).machine.multi = true :=
      multi_apply hm (by rintro _ ⟨⟩)
    exact h.congr hseven (congrArg (fun x => x.1) hs) (congrArg (fun x => x.2.1) hs)
  | reserve i code priority => exact h.setChannel (Machine.lt_of_mem_channelOrder hmv) _
  | begin | countTick | startRow | stop | enable | announce | drain => exact h.congr id rfl rfl

end Replay

namespace Player

variable {p : Player} {allowed : Player → Action → Prop}

/-- Seven voices stay switched on in a tick. -/
theorem multi_tick (h : p.replay.machine.multi = true) : p.tick.replay.machine.multi = true := by
  rw [← p.run_tickMoves]
  exact Replay.multi_run (fun _ => rfl) (Replay.all_stays_tickMoves _) h

/-- Whatever a host does: while four voices are heard, the other channels and
    their voices are as they are before a song starts, and no tick switches
    seven voices off. -/
theorem Reachable.inert (h : Reachable allowed p) :
    (p.replay.machine.multi = false → ∀ i : Slot, 4 ≤ i.val →
      p.replay.machine.lane i = (Replay.initial false).reset.machine.lane i) ∧
    (p.replay.machine.multi = true → p.tick.replay.machine.multi = true) := by
  constructor
  · exact h.replay_keeps_heard (P := fun r => r.machine.Inert)
      (fun score rate r mv hr hmv => Replay.inert_apply hr hmv) Replay.inert_reset
  · exact multi_tick

/-- A tune that plays a note on channel 5 and switches channel 6 off. -/
def farTune : ByteArray :=
  songTune 0 0 [[0, 0xfe06] ++ List.replicate 6 0xff00] [[0x0c001500, 0xf3ff0000]] [[0x04000010]]

/-- The note of channel 5 is heard on channel 1, and no effect is taken for
    channel 7. -/
theorem inert_farTune : ∃ tune p, load farTune (some ⟨#[]⟩) = .ok tune ∧
    Player.new tune minRate = .ok p ∧
    let q := ((p.perform (.playEffect 7 0x0c000000 1)).perform .tick).perform .tick
    q.replay.machine.multi = false ∧ q.replay.machine.channels[Slot.ofNat 1].pitch.note = 12 ∧
    ∀ i : Slot, 4 ≤ i.val →
      q.replay.machine.lane i = (Replay.initial false).reset.machine.lane i := by
  have h : ((load farTune (some ⟨#[]⟩)).toOption.bind fun tune =>
      (Player.new tune minRate).toOption.map fun p =>
        let m := ((p.perform (.playEffect 7 0x0c000000 1)).perform .tick).perform .tick
        (m.replay.machine.multi, m.replay.machine.channels[Slot.ofNat 1].pitch.note)) =
      some (false, 12) := by decide +kernel
  obtain ⟨tune, p, hload, hnew, h⟩ := exists_new h
  simp only [Prod.mk.injEq] at h
  obtain ⟨hmulti, hnote⟩ := h
  have hreach : Reachable AtWill p := .new hnew
  have hreach := ((hreach.perform (.playEffect 7 0x0c000000 1) trivial).perform .tick
    trivial).perform .tick trivial
  exact ⟨tune, p, hload, hnew, hmulti, hnote, hreach.inert.1 hmulti⟩

end Player

end PaulaReplay
