/-
  Voices: what moves do to a voice.

  A voice has many writers: the words of its macro, the tick of its channel,
  the tracks that switch channels off, and the sound it makes itself.

  * `Lane.setsVoice`: the words that write the voice; `Lane.voice_execute`:
    all others leave it as it is;
  * `Machine.voice_cases`, `Replay.voice_cases`: what a voice is after a move,
    in terms of what it was;
  * `Replay.sounding_reset`: what all voices are before a song starts.
-/
import Mathlib.Tactic.SplitIfs
import PaulaReplay.Proofs.Frames

namespace PaulaReplay

namespace Lane

variable {score : Score} {l : Lane} {w : Word}

/-- The operations that write the registers of the voice. -/
def setsVoice : Operation → Bool
  | .offReset | .off | .on | .waitVoice => true
  | _ => false

theorem voice_yield (l : Lane) : l.yield.lane.voice = l.voice := by
  unfold yield; split <;> rfl

theorem voice_loop (l : Lane) (w : Word) : (l.loop w).voice = l.voice := by
  unfold loop; simp only; split <;> rfl

theorem voice_jump (l : Lane) (score : Score) (w : Word) :
    (l.jump score w).lane.voice = l.voice := by
  unfold jump; split <;> rfl

theorem voice_execute {op : Operation} (hop : setsVoice op = false) :
    (execute score op w l).lane.voice = l.voice := by
  cases op with
  | offReset | off | on | waitVoice => cases hop
  | wait =>
    rw [execute, wait]
    simp only
    split_ifs <;> first | rfl | exact voice_yield _
  | previousNote | addNote | setNote => exact voice_yield _
  | waitKeyUp =>
    rw [execute, waitKeyUp]
    simp only
    split_ifs <;> rfl
  | call => exact voice_jump _ score w
  | jump => exact voice_jump l score w
  | loop => exact voice_loop l w
  | loopKeyDown =>
    rw [execute]
    split
    · exact voice_loop l w
    · rfl
  | splitNote | splitVolume | addVolume | setVolume =>
    rw [execute]
    split <;> rfl
  | _ => rfl

end Lane

/-! ## Machines -/

namespace Machine

variable {score : Score} {rate : UInt32}

theorem channels_of_sounding {m : Machine} {s : Octet Channel × Octet Voice × Fade}
    (h : m.sounding = s) : m.channels = s.1 := by rw [← h]; rfl

theorem voices_of_sounding {m : Machine} {s : Octet Channel × Octet Voice × Fade}
    (h : m.sounding = s) : m.voices = s.2.1 := by rw [← h]; rfl

theorem voices_setVoice (m : Machine) (i j : Slot) (v : Voice) :
    (m.setVoice i v).voices[j] = if i = j then v else m.voices[j] :=
  Octet.getElem_set _ _ _ _

theorem voices_runWord (m : Machine) (i j : Slot) : (m.runWord score i).voices[j] =
    if i = j then ((m.lane i).turn score).lane.voice else m.voices[j] := by
  rw [← voices_setVoice]
  unfold runWord
  cases (m.lane i).turn score <;> rfl

/-- Of the moves of channels, the words of its macro and the setting up change
    a voice. -/
theorem voice_cases (m : Machine) (mv : Move) (i : Slot) :
    (mv.apply score rate m).voices[i] = m.voices[i] ∨
      (mv = .word i ∧
        (mv.apply score rate m).voices[i] = ((m.lane i).turn score).lane.voice) ∨
      ∃ master, (mv.apply score rate m).voices[i] = (m.lane i).load master rate := by
  cases mv with
  | takeEffect j =>
    unfold Move.apply takeEffect
    simp only
    split <;> exact .inl rfl
  | word j =>
    have hword : (m.runWord score j).voices[i] =
        if j = i then ((m.lane j).turn score).lane.voice else m.voices[i] :=
      voices_runWord m j i
    by_cases hj : j = i
    · subst hj
      exact .inr (.inl ⟨rfl, hword.trans (if_pos rfl)⟩)
    · exact .inl (hword.trans (if_neg hj))
  | bend j =>
    unfold Move.apply bend
    simp only
    split_ifs <;> exact .inl rfl
  | load j =>
    have hload := voices_setVoice m j i ((m.lane j).load m.master.fade.volume rate)
    by_cases hj : j = i
    · subst hj
      exact .inr (.inr ⟨_, hload.trans (if_pos rfl)⟩)
    · exact .inl (hload.trans (if_neg hj))
  | countLock | countWait | wake | halt => exact .inl rfl

theorem voice_channelOff (m : Machine) (n : Nat) (i : Slot) :
    (m.channelOff n).voices[i] = m.voices[i] ∨
      (m.channelOff n).voices[i] = m.voices[i].silenced := by
  unfold channelOff
  split
  · next h =>
    simp only
    split
    · let j : Slot := ⟨n % 16, h⟩
      have hoff := voices_setVoice (m.setChannel j m.channels[j].silenced) j i
        m.voices[j].silenced
      by_cases hi : j = i
      · subst hi
        exact .inr (hoff.trans (if_pos rfl))
      · exact .inl (hoff.trans (if_neg hi))
    · exact .inl rfl
  · exact .inl rfl

theorem voices_grant? (m : Machine) (request : Option Request) :
    (m.grant? score request).voices = m.voices := by
  cases request with
  | none => rfl
  | some request =>
    cases request with
    | endSong => exact voices_of_sounding (Replay.sounding_reachEnd m)
    | _ => rfl

end Machine

/-! ## Replays -/

namespace Replay

variable {score : Score} {rate : UInt32}

/-- A song starts in silence. -/
theorem sounding_reset : ∀ multi, (initial multi).reset.machine.sounding =
    (Octet.replicate (Channel.cleared {}).silenced, Octet.replicate (Voice.cleared {}).silenced,
      {}) := by decide +kernel

theorem voice_render (r : Replay) (bank : Bank) (rate : UInt32) (i : Slot) :
    (r.render bank rate).machine.voices[i] = r.machine.voices[i] ∨
      (r.render bank rate).machine.voices[i] =
        (r.machine.voices[i].render bank (r.clock.tick rate).1).voice := by
  unfold render Player.resume Mix.renderings
  simp only [Octet.getElem_map, Octet.getElem_ofFn]
  split
  · exact .inr rfl
  · exact .inl rfl

/-- What the voice of a channel may be after a move. -/
inductive VoiceAfter (score : Score) (rate : UInt32) (r : Replay) (mv : Move) (i : Slot) :
    Voice → Prop
  | same : VoiceAfter score rate r mv i r.machine.voices[i]
  | word : mv = .machine (.word i) →
      VoiceAfter score rate r mv i ((r.machine.lane i).turn score).lane.voice
  | loaded (master : Int8) : VoiceAfter score rate r mv i ((r.machine.lane i).load master rate)
  | silenced : VoiceAfter score rate r mv i r.machine.voices[i].silenced
  | rendered (n : Nat) : VoiceAfter score rate r mv i (r.machine.voices[i].render score.bank n).voice
  | reset : VoiceAfter score rate r mv i (Voice.cleared {}).silenced

theorem VoiceAfter.of_voices {r s : Replay} {mv : Move} (i : Slot)
    (h : s.machine.voices = r.machine.voices) :
    VoiceAfter score rate r mv i s.machine.voices[i] := by
  rw [h]
  exact .same

theorem VoiceAfter.of_sounding {r s : Replay} {mv : Move} (i : Slot)
    (h : s.machine.sounding = r.machine.sounding) :
    VoiceAfter score rate r mv i s.machine.voices[i] :=
  .of_voices i (Machine.voices_of_sounding h)

/-- No move does anything else to a voice. -/
theorem voiceAfter_apply (score : Score) (rate : UInt32) (r : Replay) (mv : Move) (i : Slot) :
    VoiceAfter score rate r mv i (mv.apply score rate r).machine.voices[i] := by
  cases mv with
  | machine mv =>
    show VoiceAfter score rate r (.machine mv) i (mv.apply score rate r.machine).voices[i]
    rcases r.machine.voice_cases mv i with h | ⟨rfl, h⟩ | ⟨master, h⟩ <;> rw [h]
    · exact .same
    · exact .word rfl
    · exact .loaded master
  | enter j =>
    rw [Move.apply, enterTrack]
    split
    · exact .same
    · exact .same
    · rcases r.machine.voice_channelOff _ i with h | h <;> rw [h]
      · exact .same
      · exact .silenced
  | word j => exact .of_voices i (Machine.voices_grant? _ _)
  | leave => exact .of_sounding i (sounding_leave r)
  | readStep =>
    rcases sounding_readStep r score with h | ⟨s, speed, target, -, -, h⟩ <;>
      exact .of_voices i (Machine.voices_of_sounding h)
  | giveUp => exact .of_sounding i (sounding_reachEnd r.machine)
  | render =>
    rcases r.voice_render score.bank rate i with h | h
    · exact h ▸ .same
    · exact h ▸ .rendered _
  | reset multi =>
    have h := Machine.voices_of_sounding (sounding_reset multi)
    show VoiceAfter score rate r (.reset multi) i (initial multi).reset.machine.voices[i]
    rw [h, Octet.getElem_replicate]
    exact .reset
  | select n => exact .of_voices i (Machine.voices_of_sounding (sounding_selectSong r score n))
  | aim position e => exact .of_sounding i (sounding_aim r position e)
  | begin | countTick | startRow | stop | enable | announce | reserve | drain => exact .of_voices i rfl

end Replay

end PaulaReplay
