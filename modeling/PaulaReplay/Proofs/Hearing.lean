/-
  Hearing: a row is heard in the tick after it.

  In a tick the channels come before the song.  So the voices are set up by the time a
  row is played, and what the row asks of the channels has to wait for their next tick.
  Only a track that switches a channel off reaches a voice at once.

  * `Replay.namesOff`: a move handles a track that switches a channel off;
    `voices_apply_ofSong`: no other move of the song reaches a voice;
  * `Replay.switchedOff`: a channel is switched off in some moves, unlocked as it is then;
    `voices_run_ofSong`, `voices_run_cases`: what becomes of its voice;
  * `Player.voicesHeard`: the voices of a tick, as the channels have left them but for
    those switched off; `mix_tick`: the sound of the tick is made of these;
  * `Player.rows_heard_later`: so it does not depend on the row that is played in it.
-/
import PaulaReplay.Proofs.Channels

namespace PaulaReplay

/-- A voice that is switched off already stays as it is when it is switched off. -/
theorem Voice.silenced_silenced (v : Voice) : v.silenced.silenced = v.silenced := rfl

theorem Machine.voices_channelOff (m : Machine) (n : Nat) (j : Slot) :
    (m.channelOff n).voices[j] =
      if n % 16 = j.val ∧ m.channels[j].reservation.lock = 0 then m.voices[j].silenced
      else m.voices[j] := by
  unfold channelOff
  by_cases hn : n % 16 < 8
  · have hset (l : Lane) : (m.setLane ⟨n % 16, hn⟩ l).voices[j] =
        if (⟨n % 16, hn⟩ : Slot) = j then l.voice else m.voices[j] := voices_setVoice _ _ _ _
    by_cases hj : n % 16 = j.val
    · obtain rfl : (⟨n % 16, hn⟩ : Slot) = j := Fin.ext hj
      simp only [dif_pos hn, true_and]
      split
      · rw [hset, if_pos rfl]
      · rfl
    · have hne : (⟨n % 16, hn⟩ : Slot) ≠ j := fun he => hj (congrArg Fin.val he)
      rw [if_neg fun h => hj h.1]
      simp only [dif_pos hn]
      split
      · rw [hset, if_neg hne]
      · rfl
  · have hne : n % 16 ≠ j.val := fun he => hn (he ▸ j.isLt)
    rw [dif_neg hn, if_neg fun h => hne h.1]

namespace Replay

variable {score : Score} {rate : UInt32} {r : Replay} {j : Slot}

/-! ## Moves of the song -/

/-- A move handles a track that is no more than a number, and whose transposition names a
    channel. -/
def namesOff (j : Slot) (r : Replay) : Move → Bool
  | .enter i => r.tracks[i].number == offNumber && r.tracks[i].transpose.toUInt8.toNat % 16 == j.val
  | _ => false

/-- Such a move, where the channel is not locked. -/
def turnsOff (j : Slot) (r : Replay) (mv : Move) : Bool :=
  r.namesOff j mv && r.machine.channels[j].reservation.lock == 0

/-- Switched off, a voice is silenced where its channel is not locked. -/
theorem voices_channelOff_self (r : Replay) (j : Slot) :
    (r.machine.channelOff j.val).voices[j] =
      if r.machine.channels[j].reservation.lock = 0 then r.machine.voices[j].silenced
      else r.machine.voices[j] := by
  have hj : j.val % 16 = j.val := Nat.mod_eq_of_lt (Nat.lt_trans j.isLt (by decide))
  simp only [Machine.voices_channelOff, hj, true_and]

/-- Of the moves of the song only a track that switches a channel off reaches a voice. -/
theorem voices_apply_ofSong {mv : Move} (hmv : mv.ofSong = true) (r : Replay) (j : Slot) :
    (mv.apply score rate r).machine.voices[j] =
      if r.namesOff j mv then (r.machine.channelOff j.val).voices[j] else r.machine.voices[j] := by
  have hsame {s : Replay} (h : s.machine.sounding = r.machine.sounding) :
      s.machine.voices[j] = r.machine.voices[j] := by
    rw [Machine.voices_of_sounding h]
    rfl
  cases mv with
  | enter i =>
    by_cases hoff : r.tracks[i].number = offNumber
    · obtain ⟨r', hmachine, henter⟩ := enterTrack_of_off hoff
      rw [Move.apply, henter, voices_channelOff_self]
      show (r'.machine.channelOff _).voices[j] = _
      rw [hmachine, Machine.voices_channelOff]
      by_cases hname : r.tracks[i].transpose.toUInt8.toNat % 16 = j.val
      · simp only [namesOff, hoff, hname, BEq.rfl, Bool.and_self, if_true, true_and]
      · simp only [namesOff, hname, beq_false_of_ne hname, Bool.and_false, Bool.false_eq_true,
          if_false, false_and]
    · have hquiet : r.namesOff j (.enter i) = false := by
        rw [namesOff, beq_false_of_ne hoff, Bool.false_and]
      rw [hquiet, if_neg Bool.false_ne_true, Move.apply, enterTrack, Tracks.enter, if_neg hoff]
      split_ifs <;> rfl
  | word i =>
    show (r.machine.grant? score _).voices[j] = r.machine.voices[j]
    rw [Machine.voices_grant?]
  | leave => exact hsame (sounding_leave r)
  | readStep =>
    rcases sounding_readStep r score with h | ⟨s, speed, target, -, -, h⟩
    · exact hsame h
    · show ((r.readStep score).1.machine.voices)[j] = r.machine.voices[j]
      rw [Machine.voices_of_sounding h]
  | giveUp => exact hsame (sounding_reachEnd r.machine)
  | countTick | startRow | stop => rfl
  | begin | machine | render | reset | select | enable | aim | announce | reserve | drain =>
    cases hmv

/-! ## Rows -/

/-- Whether a channel is switched off in some moves, and is not locked then. -/
def switchedOff (score : Score) (rate : UInt32) (j : Slot) : List Move → Replay → Bool
  | [], _ => false
  | mv :: ms, r => r.turnsOff j mv || switchedOff score rate j ms (mv.apply score rate r)

/-- The voice of a channel after moves of the song: it is silenced if the channel was
    switched off in one of them, and else as it was. -/
theorem voices_run_ofSong : ∀ (ms : List Move) (r : Replay), ms.all Move.ofSong = true →
    (run score rate ms r).machine.voices[j] =
      if switchedOff score rate j ms r then r.machine.voices[j].silenced
      else r.machine.voices[j]
  | [], _, _ => rfl
  | mv :: ms, r, hms => by
    rw [List.all_cons, Bool.and_eq_true] at hms
    rw [run_cons, voices_run_ofSong ms _ hms.2, voices_apply_ofSong hms.1, switchedOff, turnsOff,
      voices_channelOff_self]
    cases r.namesOff j mv with
    | false => rfl
    | true =>
      by_cases hlock : r.machine.channels[j].reservation.lock = 0
      · simp only [hlock, BEq.rfl, Bool.and_self, Bool.true_or, if_true, Voice.silenced_silenced,
          ite_self]
      · simp only [beq_false_of_ne hlock, if_neg hlock, Bool.and_false, Bool.false_or, if_true]

/-- What becomes of the voice of a channel in some moves of the song: it is as it was, as
    none of them handles a track that switches the channel off, or as the last one that
    does leaves it. -/
theorem voices_run_cases : ∀ (ms : List Move) (r : Replay), ms.all Move.ofSong = true →
    Along score rate (fun s mv => s.namesOff j mv = false) ms r ∧
        (run score rate ms r).machine.voices[j] = r.machine.voices[j] ∨
      ∃ before mv after, ms = before ++ mv :: after ∧
        (run score rate before r).namesOff j mv = true ∧
        Along score rate (fun s mv => s.namesOff j mv = false) after
          (mv.apply score rate (run score rate before r)) ∧
        (run score rate ms r).machine.voices[j] =
          ((run score rate before r).machine.channelOff j.val).voices[j]
  | [], _, _ => .inl ⟨trivial, rfl⟩
  | mv :: ms, r, hms => by
    rw [List.all_cons, Bool.and_eq_true] at hms
    have happly : (mv.apply score rate r).machine.voices[j] =
        if r.namesOff j mv then (r.machine.channelOff j.val).voices[j] else r.machine.voices[j] :=
      voices_apply_ofSong hms.1 r j
    rcases voices_run_cases ms (mv.apply score rate r) hms.2 with
      ⟨hnone, hsame⟩ | ⟨before, mv', after, rfl, hnames, hnone, hlast⟩
    · cases hnames : r.namesOff j mv with
      | false =>
        rw [hnames, if_neg Bool.false_ne_true] at happly
        exact .inl ⟨⟨hnames, hnone⟩, hsame.trans happly⟩
      | true =>
        rw [hnames, if_pos rfl] at happly
        exact .inr ⟨[], mv, ms, rfl, hnames, hnone, hsame.trans happly⟩
    · exact .inr ⟨mv :: before, mv', after, rfl, hnames, hnone, hlast⟩

end Replay

/-! ## Ticks -/

namespace Player

/-- The replay in the next tick as the channels have had their ticks, and the row, if
    there is one, is to be played. -/
def beforeRow (p : Player) : Replay :=
  if p.replay.begin.machine.master.enabled then
    p.replay.begin.onMachine (·.tickChannels p.tune.score p.rate)
  else p.replay.begin

/-- The moves of the song in the next tick. -/
def songMoves (p : Player) : List Replay.Move :=
  if p.replay.begin.machine.master.enabled ∧ 0 ≤ p.replay.song then
    Replay.sequencerMoves p.tune.score p.beforeRow
  else []

/-- A channel is switched off in the next tick. -/
def switchesOff (p : Player) (j : Slot) : Bool :=
  Replay.switchedOff p.tune.score p.rate j p.songMoves p.beforeRow

/-- The voices as the sound of the next tick is made: those that are set up by their
    channels, and silenced where a channel is switched off. -/
def voicesHeard (p : Player) : Octet Voice :=
  Octet.ofFn fun j =>
    if p.switchesOff j then p.beforeRow.machine.voices[j].silenced
    else p.beforeRow.machine.voices[j]

theorem run_songMoves (p : Player) :
    Replay.run p.tune.score p.rate p.songMoves p.beforeRow = p.advanced := by
  have hsong : p.replay.begin.song = p.replay.song := rfl
  rw [advanced, ← Replay.run_advanceMoves, Replay.advanceMoves, songMoves, beforeRow, hsong]
  by_cases henabled : p.replay.begin.machine.master.enabled
  · have hchannels : Replay.run p.tune.score p.rate
        ((Machine.tickMoves p.tune.score p.rate p.replay.begin.machine).map .machine)
        p.replay.begin = p.replay.begin.onMachine (·.tickChannels p.tune.score p.rate) := by
      rw [Replay.run_map_machine]
      unfold Replay.onMachine
      rw [Machine.run_tickMoves]
    simp only [henabled, if_true, true_and, Replay.run_cons, Replay.Move.apply, Replay.run_append,
      hchannels]
  · simp only [henabled]
    rfl

theorem all_ofSong_songMoves (p : Player) : p.songMoves.all Replay.Move.ofSong = true := by
  unfold songMoves
  split
  · exact Replay.all_ofSong_sequencerMoves _
  · rfl

theorem voices_advanced (p : Player) : p.advanced.machine.voices = p.voicesHeard := by
  ext j
  rw [← run_songMoves, Replay.voices_run_ofSong _ _ p.all_ofSong_songMoves, voicesHeard,
    Octet.getElem_ofFn]
  rfl

/-- The sound of a tick is made of these voices. -/
theorem mix_tick (p : Player) : p.tick.mix = (Mix.ofVoices p.tune.score.bank
    p.advanced.machine.multi (p.advanced.clock.tick p.rate).1 p.voicesHeard).1 := by
  obtain ⟨hmixer, -⟩ := p.tick_mixed
  rw [mix, hmixer, mixed, Mixer.play_eq, voices_advanced]

/-- Rows are heard later.  In its share of a tick the song leaves the voice of a channel
    as it is, unless it handles a track that switches the channel off; then the voice is
    as the last such track leaves it.  So the sound of a tick is made of the voices that
    the channels have set up, whatever the song does in the tick: two players with one
    bank, whose channels have set up the same voices, sound the same in the tick, be
    their rows and their patterns what they may, if the same channels are switched off,
    and the ticks are of one length with as many voices heard. -/
theorem rows_heard_later :
    (∀ (score : Score) (rate : UInt32) (r : Replay) (j : Slot),
      Replay.Along score rate (fun s mv => s.namesOff j mv = false)
          (Replay.sequencerMoves score r) r ∧
        (r.tickTracks score).machine.voices[j] = r.machine.voices[j] ∨
      ∃ before mv after, Replay.sequencerMoves score r = before ++ mv :: after ∧
        (Replay.run score rate before r).namesOff j mv = true ∧
        Replay.Along score rate (fun s mv => s.namesOff j mv = false) after
          (mv.apply score rate (Replay.run score rate before r)) ∧
        (r.tickTracks score).machine.voices[j] =
          ((Replay.run score rate before r).machine.channelOff j.val).voices[j]) ∧
    (∀ p : Player, p.tick.mix = (Mix.ofVoices p.tune.score.bank p.advanced.machine.multi
      (p.advanced.clock.tick p.rate).1 p.voicesHeard).1) ∧
    ∀ p q : Player, p.tune.score.bank = q.tune.score.bank →
      p.beforeRow.machine.voices = q.beforeRow.machine.voices →
      (∀ j, p.switchesOff j = q.switchesOff j) →
      (p.advanced.clock.tick p.rate).1 = (q.advanced.clock.tick q.rate).1 →
      p.advanced.machine.multi = q.advanced.machine.multi → p.tick.mix = q.tick.mix := by
  refine ⟨fun score rate r j => ?_, mix_tick, fun p q hbank hvoices hoff hframes hmulti => ?_⟩
  · have hrun : Replay.run score rate (Replay.sequencerMoves score r) r = r.tickTracks score :=
      Replay.run_sequencerMoves r
    rw [← hrun]
    exact Replay.voices_run_cases _ r (Replay.all_ofSong_sequencerMoves r)
  · have hheard : p.voicesHeard = q.voicesHeard := by
      ext j
      simp only [voicesHeard, Octet.getElem_ofFn, hoff, hvoices]
    rw [mix_tick, mix_tick, hbank, hmulti, hframes, hheard]

/-- A tune of one note on the first channel, while a track switches the second one off. -/
def echoTune : ByteArray :=
  songTune 0 0 [0 :: 0xfe01 :: List.replicate 6 0xff00] [[0x0c001000, 0xf3ff0000]]
    [[0x03000008, 0x0e000040, 0x01000000, 0x08000000, 0x07000000]]

/-- A player whose first track waits for some rows more. -/
def delayed (p : Player) (rows : UInt8) : Player :=
  { p with replay.tracks :=
      p.replay.tracks.modify (Slot.ofNat 0) fun (t : Track) => { t with wait := rows } }

theorem voices_beforeRow_delayed (p : Player) (rows : UInt8) :
    p.beforeRow.machine.voices = (p.delayed rows).beforeRow.machine.voices := by
  have henabled : (p.delayed rows).replay.begin.machine = p.replay.begin.machine := rfl
  unfold beforeRow
  rw [henabled]
  split <;> rfl

/-- The row of the note, with which a macro begins, sounds as one in which the track would
    wait. -/
theorem later_echoTune : ∃ tune p, load echoTune (some shortNote) = .ok tune ∧
    Player.new tune minRate = .ok p ∧ p.switchesOff 1 = true ∧
      p.advanced.machine.channels[(0 : Slot)].program.running = -1 ∧
      (p.delayed 255).advanced.machine.channels[(0 : Slot)].program.running = 0 ∧
      p.tick.mix = (p.delayed 255).tick.mix := by
  have h : ((load echoTune (some shortNote)).toOption.bind fun tune =>
      (Player.new tune minRate).toOption.map fun p =>
        ((p.switchesOff 1, p.advanced.machine.channels[(0 : Slot)].program.running,
          (p.delayed 255).advanced.machine.channels[(0 : Slot)].program.running),
        decide (∀ j, p.switchesOff j = (p.delayed 255).switchesOff j),
        decide ((p.advanced.clock.tick p.rate).1 =
          ((p.delayed 255).advanced.clock.tick p.rate).1),
        decide (p.advanced.machine.multi = (p.delayed 255).advanced.machine.multi))) =
      some ((true, -1, 0), true, true, true) := by decide +kernel
  obtain ⟨tune, p, hload, hnew, h⟩ := exists_new h
  simp only [Prod.mk.injEq, decide_eq_true_eq] at h
  obtain ⟨⟨hoff, hplayed, hwaited⟩, hsame, hframes, hmulti⟩ := h
  exact ⟨tune, p, hload, hnew, hoff, hplayed, hwaited,
    rows_heard_later.2.2 _ _ rfl (p.voices_beforeRow_delayed 255) hsame hframes hmulti⟩

end Player

end PaulaReplay
