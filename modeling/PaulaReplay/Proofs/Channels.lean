/-
  Channels: what may happen to a channel in a move.

  Outside of its own tick a channel changes in few ways: a word is dispatched to it, a
  track switches it off, its macro resumes, or the host gives it a sound effect.

  * `Replay.ChannelAfter`: what a channel may be after a move, and
    `channelAfter_apply` that it is nothing else;
  * `Replay.sendsNote`, `Replay.silences`: a move dispatches a note to a channel, or
    switches it off.
-/
import PaulaReplay.Proofs.Resting

namespace PaulaReplay

theorem Channel.code_countLock (c : Channel) :
    c.countLock.reservation.code = c.reservation.code := by
  unfold countLock
  split <;> rfl

namespace Machine

variable {m m' : Machine} {score : Score} {rate : UInt32} {i j : Slot}

theorem channels_setChannel_ne (h : j ≠ i) (c : Channel) :
    (m.setChannel j c).channels[i] = m.channels[i] := Octet.getElem_set_ne _ h _

theorem channels_setLane_ne (h : j ≠ i) (l : Lane) :
    (m.setLane j l).channels[i] = m.channels[i] := Octet.getElem_set_ne _ h _

/-- A word that is dispatched comes to the channel that it names. -/
theorem channels_dispatch (score : Score) (m : Machine) (w : Word) (i : Slot) :
    (m.dispatch score w).channels[i] =
      if m.channelOf w.byte2 = i then m.channels[i].receive score w else m.channels[i] := by
  show (m.channels.set _ _)[i] = _
  rw [Octet.getElem_set]
  split
  · next h => rw [h]
  · rfl

/-- In the tick of another channel only a word that is dispatched is noticed. -/
theorem channel_cases (mv : Move) (h : mv.slot ≠ i) :
    (mv.apply score rate m).channels[i] = m.channels[i] ∨
      ∃ m' w, m.dispatched score mv = some (m', w) ∧ m'.channelOf w.byte2 = i ∧
        (mv.apply score rate m).channels[i] = m.channels[i].receive score w := by
  have hdispatch : ∀ {m' : Machine} (w : Word), m'.channels[i] = m.channels[i] →
      m.dispatched score mv = some (m', w) → (mv.apply score rate m) = m'.dispatch score w →
      (mv.apply score rate m).channels[i] = m.channels[i] ∨
        ∃ m' w, m.dispatched score mv = some (m', w) ∧ m'.channelOf w.byte2 = i ∧
          (mv.apply score rate m).channels[i] = m.channels[i].receive score w := by
    intro m' w hm hd happly
    have hword := channels_dispatch score m' w i
    rw [← happly, hm] at hword
    by_cases hi : m'.channelOf w.byte2 = i
    · exact .inr ⟨m', w, hd, hi, hword.trans (if_pos hi)⟩
    · exact .inl (hword.trans (if_neg hi))
  cases mv with
  | takeEffect j =>
    by_cases hcode : m.channels[j].reservation.code = 0
    · refine .inl ?_
      rw [Move.apply, takeEffect, if_pos hcode]
    · exact hdispatch _ (channels_setChannel_ne h _) (if_neg hcode) (if_neg hcode)
  | word j =>
    have happly : Move.apply score rate m (.word j) = m.runWord score j := rfl
    unfold runWord at happly
    cases ht : (m.lane j).turn score with
    | starts l w =>
      rw [ht] at happly
      have hd : m.dispatched score (.word j) = some (m.setLane j l, w) := by
        rw [dispatched, ht]
      exact hdispatch w (channels_setLane_ne h l) hd happly
    | goesOn l | rests l | cues l =>
      rw [ht] at happly
      rw [happly]
      exact .inl (channels_setLane_ne h l)
  | bend j =>
    rw [Move.apply, channels_bend]
    exact .inl (Octet.getElem_set_ne _ h _)
  | countLock j | countWait j | wake j | halt j => exact .inl (channels_setChannel_ne h _)
  | load j => exact .inl rfl

/-- A channel that is switched off is not locked, and is the one that the number names. -/
theorem channel_channelOff (n : Nat) (i : Slot) :
    (m.channelOff n).channels[i] = m.channels[i] ∨
      n % 16 = i.val ∧ m.channels[i].reservation.lock = 0 ∧
        (m.channelOff n).channels[i] = m.channels[i].silenced := by
  unfold channelOff
  split
  · next h =>
    simp only
    split
    · next hlock =>
      by_cases hi : (⟨n % 16, h⟩ : Slot) = i
      · subst hi
        exact .inr ⟨rfl, hlock, Octet.getElem_set_self _ _ _⟩
      · exact .inl (channels_setLane_ne hi _)
    · exact .inl rfl
  · exact .inl rfl

end Machine

namespace Replay

variable {score : Score} {rate : UInt32} {r : Replay} {i : Slot}

/-- A move of the tick of a channel. -/
def Move.ofTick (i : Slot) : Move → Bool
  | .machine mv => mv.slot == i
  | _ => false

/-- A move dispatches a note to a channel. -/
def sendsNote (score : Score) (i : Slot) (r : Replay) (mv : Move) : Bool :=
  (r.dispatched score mv).any fun (m, w) => m.channelOf w.byte2 == i && w.byte0 < 0xc0

/-- A move switches a channel off. -/
def silences (i : Slot) (r : Replay) : Move → Bool
  | .enter j =>
    r.tracks[j].number == offNumber && r.tracks[j].transpose.toUInt8.toNat % 16 == i.val &&
      r.machine.channels[i].reservation.lock == 0
  | .reset _ => true
  | _ => false

/-- What a channel may be after a move. -/
inductive ChannelAfter (score : Score) (r : Replay) (mv : Move) (i : Slot) : Channel → Prop
  | same : ChannelAfter score r mv i r.machine.channels[i]
  | own {mv' : Machine.Move} (c : Channel) : mv = .machine mv' → mv'.slot = i →
      ChannelAfter score r mv i c
  | received {m : Machine} {w : Word} : r.dispatched score mv = some (m, w) →
      m.channelOf w.byte2 = i → ChannelAfter score r mv i (r.machine.channels[i].receive score w)
  | silenced : r.silences i mv = true → ChannelAfter score r mv i r.machine.channels[i].silenced
  | resumed : mv = .render →
      ChannelAfter score r mv i { r.machine.channels[i] with program.running := -1 }
  | reserved {code priority : UInt32} : mv = .reserve i code priority →
      ChannelAfter score r mv i { r.machine.channels[i] with
        reservation.code := code, reservation.priority := priority }
  | reset : r.silences i mv = true → ChannelAfter score r mv i (Channel.cleared {}).silenced

theorem ChannelAfter.of_channels {s : Replay} {mv : Move} (i : Slot)
    (h : s.machine.channels = r.machine.channels) :
    ChannelAfter score r mv i s.machine.channels[i] := by
  rw [h]
  exact .same

theorem ChannelAfter.of_sounding {s : Replay} {mv : Move} (i : Slot)
    (h : s.machine.sounding = r.machine.sounding) :
    ChannelAfter score r mv i s.machine.channels[i] :=
  .of_channels i (Machine.channels_of_sounding h)

/-- No move does anything else to a channel. -/
theorem channelAfter_apply (score : Score) (rate : UInt32) (r : Replay) (mv : Move) (i : Slot) :
    ChannelAfter score r mv i (mv.apply score rate r).machine.channels[i] := by
  cases mv with
  | machine mv =>
    by_cases hi : mv.slot = i
    · exact .own _ rfl hi
    · show ChannelAfter score r (.machine mv) i (mv.apply score rate r.machine).channels[i]
      rcases r.machine.channel_cases mv hi with h | ⟨m, w, hd, hw, h⟩ <;> rw [h]
      · exact .same
      · exact .received hd hw
  | enter j =>
    rw [Move.apply]
    by_cases hnumber : r.tracks[j].number = offNumber
    · obtain ⟨r', hmachine, henter⟩ := enterTrack_of_off hnumber
      rw [henter]
      show ChannelAfter score r (.enter j) i (r'.machine.channelOff _).channels[i]
      rw [hmachine]
      rcases r.machine.channel_channelOff r.tracks[j].transpose.toUInt8.toNat i with
        h | ⟨hchannel, hlock, h⟩ <;> rw [h]
      · exact .same
      · refine .silenced ?_
        rw [silences, hnumber, hchannel, hlock, BEq.rfl, BEq.rfl]
        rfl
    · rw [enterTrack, Tracks.enter, if_neg hnumber]
      split_ifs <;> exact .same
  | word j =>
    show ChannelAfter score r (.word j) i (r.machine.grant? score _).channels[i]
    cases hrequest : (Tracks.step score j r.tracks).request with
    | none => exact .same
    | some request =>
      cases request with
      | dispatch w =>
        have hd : r.dispatched score (.word j) = some (r.machine, w) := by
          rw [dispatched, hrequest]
        show ChannelAfter score r (.word j) i (r.machine.dispatch score w).channels[i]
        rw [Machine.channels_dispatch]
        split
        · next hw => exact .received hd hw
        · exact .same
      | endSong =>
        show ChannelAfter score r (.word j) i (onMachine r Machine.reachEnd).machine.channels[i]
        exact .of_sounding i (sounding_reachEnd r.machine)
      | fade | cue | endPattern => exact .same
  | leave => exact .of_sounding i (sounding_leave r)
  | readStep => exact .of_channels i (channels_readStep r score)
  | giveUp => exact .of_sounding i (sounding_reachEnd r.machine)
  | render =>
    show ChannelAfter score r .render i (Octet.ofFn _)[i]
    rw [Octet.getElem_ofFn]
    split
    · exact .resumed rfl
    · exact .same
  | reset multi =>
    have h := Machine.channels_of_sounding (sounding_reset multi)
    show ChannelAfter score r (.reset multi) i (initial multi).reset.machine.channels[i]
    rw [h, Octet.getElem_replicate]
    exact .reset rfl
  | select n => exact .of_channels i (Machine.channels_of_sounding (sounding_selectSong r score n))
  | aim position e => exact .of_sounding i (sounding_aim r position e)
  | reserve j code priority =>
    by_cases hj : j = i
    · subst hj
      show ChannelAfter score r _ j (r.machine.channels.set j _)[j]
      rw [Octet.getElem_set_self]
      exact .reserved rfl
    · show ChannelAfter score r _ i (r.machine.channels.set j _)[i]
      rw [Octet.getElem_set_ne _ hj]
      exact .same
  | begin | countTick | startRow | stop | enable | announce | drain => exact .of_channels i rfl

end Replay

end PaulaReplay
