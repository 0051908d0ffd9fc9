/-
  Resting: a channel that is switched off rests until a macro is started on it.

  A macro may be started from three sides: by a word of a track, by a word of
  another macro, and by a sound effect of the host.  Each of them dispatches a
  word, which the channel accepts or not.  Nothing else wakes the channel: its
  sound goes on changing, but without its macro no voice is switched on, and
  without a voice no macro resumes.

  * `Replay.dispatched`: the word that a move dispatches; `Replay.startsMacro`:
    it starts a macro on a channel, as `running_of_startsMacro` says;
  * `Replay.Rests`: the macro of a channel is stopped, and its voice is switched
    off; `Rests.apply`: so it stays; `rests_channelOff`: so it is at first;
  * `Replay.QuietUntilStarted`: up to the first move that starts a macro on a
    channel its macro does not run, and its voice plays nothing;
    `Rests.quiet_tickMoves`, `Player.Makes.quiet`: so it is in a tick, and in all
    that a host does, if the channel rests before;
  * `Player.Course`: what a host does, one action after the other;
    `Player.quiet_until_started`: a channel that was switched off is quiet in it.
-/
import PaulaReplay.Proofs.Registers
import PaulaReplay.Proofs.Silence
import PaulaReplay.Proofs.Calm

namespace PaulaReplay

/-! ## Starts of macros -/

/-- A channel takes a word as the start of a macro: it is not locked, and there
    is such a macro. -/
def Channel.accepts (score : Score) (w : Word) (c : Channel) : Bool :=
  w.byte0 < 0xc0 && c.reservation.lock == 0 && (score.macroStart? w.byte1).isSome

theorem Channel.running_of_accepts {score : Score} {w : Word} {c : Channel}
    (hw : c.accepts score w = true) : (c.receive score w).program.running = -1 := by
  simp only [accepts, Bool.and_eq_true, decide_eq_true_eq, beq_iff_eq] at hw
  obtain ⟨⟨hnote, hlock⟩, hstart⟩ := hw
  obtain ⟨base, hbase⟩ := Option.isSome_iff_exists.1 hstart
  rw [receive_of_note hnote, startMacro, if_neg (not_not_intro hlock), hbase]
  rfl

/-- Any other word leaves a macro that is stopped as it is. -/
theorem Channel.running_receive {score : Score} {w : Word} {c : Channel}
    (hw : c.accepts score w = false) (h : c.program.running = 0) :
    (c.receive score w).program.running = 0 := by
  unfold receive
  split_ifs with hlocks hlocked hnote hslide
  · exact h
  · exact h
  · have hstart : score.macroStart? w.byte1 = none := by
      simpa only [accepts, decide_eq_true hnote, not_not.1 hlocked, BEq.rfl, Bool.true_and,
        Option.isSome_eq_false_iff, Option.isNone_iff_eq_none] using hw
    rw [hstart]
    rfl
  · exact h
  · unfold setEffect
    split_ifs <;> exact h

namespace Machine

variable {m : Machine} {score : Score} {rate : UInt32} {i j : Slot}

/-- The macro of a channel is stopped. -/
def Stopped (i : Slot) (m : Machine) : Prop := m.channels[i].program.running = 0

/-- A word that is dispatched starts a macro on a channel. -/
def startsMacro (score : Score) (i : Slot) (w : Word) (m : Machine) : Bool :=
  m.channelOf w.byte2 == i && m.channels[i].accepts score w

theorem Stopped.congr {m' : Machine} (h : m.Stopped i) (hc : m'.channels = m.channels) :
    m'.Stopped i := by
  rw [Stopped, hc]
  exact h

theorem Stopped.setChannel (h : m.Stopped i) {c : Channel} (hc : j = i → c.program.running = 0) :
    (m.setChannel j c).Stopped i := by
  show (m.channels.set j c)[i].program.running = 0
  rw [Octet.getElem_set]
  split
  · next hj => exact hc hj
  · exact h

theorem Stopped.onChannel (h : m.Stopped i) (j : Slot) {f : Channel → Channel}
    (hf : ∀ c, c.program.running = 0 → (f c).program.running = 0) : (m.onChannel j f).Stopped i :=
  h.setChannel fun hj => hf _ (hj ▸ h)

theorem Stopped.dispatch (h : m.Stopped i) {w : Word} (hw : m.startsMacro score i w = false) :
    (m.dispatch score w).Stopped i := by
  refine h.setChannel fun hj => ?_
  rw [startsMacro, hj, BEq.rfl, Bool.true_and] at hw
  rw [hj]
  exact Channel.running_receive hw h

theorem Stopped.channelOff (h : m.Stopped i) (n : Nat) : (m.channelOff n).Stopped i := by
  unfold Machine.channelOff
  split
  · simp only
    split
    · exact Stopped.setChannel h fun _ => rfl
    · exact h
  · exact h

/-- A macro that is stopped has no turn. -/
theorem turnMoves_of_stopped (h : m.Stopped i) : turnMoves score i m = [.countWait i] := by
  have hwait : m.channels[i].countWait = (m.channels[i], false) := if_pos h
  rw [turnMoves, hwait]
  rfl

/-- The word that a move of a channel dispatches, and the machine it comes to. -/
def dispatched (score : Score) (m : Machine) : Move → Option (Machine × Word)
  | .takeEffect j =>
    let code := m.channels[j].reservation.code
    if code = 0 then none else some (m.onChannel j Channel.takeCode, ⟨code⟩)
  | .word j =>
    match (m.lane j).turn score with
    | .starts l w => some (m.setLane j l, w)
    | _ => none
  | _ => none

theorem Stopped.apply (h : m.Stopped i) {mv : Move} (hmv : mv ≠ .word i)
    (hstart : ∀ m' w, m.dispatched score mv = some (m', w) → m'.startsMacro score i w = false) :
    (mv.apply score rate m).Stopped i := by
  cases mv with
  | countLock j =>
    refine h.onChannel j fun c hc => ?_
    unfold Channel.countLock
    split <;> exact hc
  | takeEffect j =>
    rw [Move.apply, takeEffect]
    simp only [dispatched] at hstart
    split
    · exact h
    · next hcode =>
      have htaken : (m.onChannel j Channel.takeCode).Stopped i := h.onChannel j fun c hc => hc
      exact htaken.dispatch (hstart _ _ (if_neg hcode))
  | countWait j =>
    refine h.onChannel j fun c hc => ?_
    unfold Channel.countWait
    split <;> exact hc
  | wake j => exact h.onChannel j fun c hc => hc
  | word j =>
    have hj : j ≠ i := fun he => hmv (congrArg Move.word he)
    have hlane : ∀ l, (m.setLane j l).Stopped i := fun l =>
      Stopped.setChannel h fun he => absurd he hj
    rw [Move.apply, Machine.runWord]
    simp only [dispatched] at hstart
    cases ht : (m.lane j).turn score with
    | starts l w =>
      rw [ht] at hstart
      exact (hlane l).dispatch (hstart _ _ rfl)
    | goesOn l => exact hlane l
    | rests l => exact hlane l
    | cues l slot value => exact hlane l
  | halt j => exact h.onChannel j fun _ _ => rfl
  | bend j =>
    rw [Stopped, Move.apply, channels_bend]
    refine h.setChannel fun hj => ?_
    unfold Channel.bendOn
    split_ifs
    · exact hj ▸ h
    · exact hj ▸ h
    · rw [Channel.program_bend]
      exact hj ▸ h
  | load j => exact h

end Machine

/-! ## Moves -/

namespace Replay

variable {score : Score} {rate : UInt32} {r : Replay} {i : Slot}

/-- The word that a move dispatches, and the machine it comes to. -/
def dispatched (score : Score) (r : Replay) : Move → Option (Machine × Word)
  | .machine mv => r.machine.dispatched score mv
  | .word j =>
    match (Tracks.step score j r.tracks).request with
    | some (.dispatch w) => some (r.machine, w)
    | _ => none
  | _ => none

/-- All that a move dispatches does just that. -/
theorem machine_of_dispatched {mv : Move} {m : Machine} {w : Word}
    (h : r.dispatched score mv = some (m, w)) :
    (mv.apply score rate r).machine = m.dispatch score w := by
  cases mv with
  | machine mv =>
    cases mv with
    | takeEffect j =>
      simp only [dispatched, Machine.dispatched] at h
      split at h
      · cases h
      · next hcode =>
        cases h
        exact if_neg hcode
    | word j =>
      simp only [dispatched, Machine.dispatched] at h
      split at h
      · next ht =>
        cases h
        show r.machine.runWord score j = _
        rw [Machine.runWord, ht]
      · cases h
    | countLock | countWait | wake | halt | bend | load => cases h
  | word j =>
    simp only [dispatched] at h
    split at h
    · next hrequest =>
      cases h
      show r.machine.grant? score _ = _
      rw [hrequest]
      rfl
    · cases h
  | begin | countTick | startRow | enter | stop | leave | readStep | giveUp | render | reset | select
  | enable | aim | announce | reserve | drain => cases h

/-- A move starts a macro on a channel. -/
def startsMacro (score : Score) (i : Slot) (r : Replay) (mv : Move) : Bool :=
  (r.dispatched score mv).any fun (m, w) => m.startsMacro score i w

/-- Such a move does start a macro on the channel. -/
theorem running_of_startsMacro {mv : Move} (h : r.startsMacro score i mv = true) :
    (mv.apply score rate r).machine.channels[i].program.running = -1 := by
  obtain ⟨⟨m, w⟩, hd, hstarts⟩ := (Option.any_eq_true _ _).1 h
  obtain ⟨hchannel, haccepts⟩ := Bool.and_eq_true_iff.1 hstarts
  obtain rfl := beq_iff_eq.1 hchannel
  rw [machine_of_dispatched hd]
  show ((m.channels.set _ _)[m.channelOf w.byte2]).program.running = -1
  rw [Octet.getElem_set_self]
  exact Channel.running_of_accepts haccepts

theorem startsMacro_of_dispatched {mv : Move} (h : r.startsMacro score i mv = false) {m : Machine}
    {w : Word} (hd : r.dispatched score mv = some (m, w)) : m.startsMacro score i w = false := by
  rwa [startsMacro, hd] at h

/-- A channel rests: its macro is stopped, and its voice is switched off. -/
structure Rests (i : Slot) (r : Replay) : Prop where
  stopped : r.machine.Stopped i
  mode : r.machine.voices[i].mode = 0

theorem Rests.silent (h : r.Rests i) : r.machine.voices[i].Silent := Voice.silent_of_mode h.mode

/-- No macro resumes for a voice that is silent. -/
theorem channel_render (h : r.machine.voices[i].Silent) (bank : Bank) (rate : UInt32) :
    (r.render bank rate).machine.channels[i] = r.machine.channels[i] := by
  unfold render Player.resume
  simp only [Octet.getElem_ofFn, Octet.getElem_map, Mix.rendering_of_silent h, Bool.false_eq_true,
    if_false]

theorem stopped_reset (multi : Bool) (i : Slot) : (initial multi).reset.machine.Stopped i := by
  rw [Machine.Stopped, Machine.channels_of_sounding (sounding_reset multi), Octet.getElem_replicate]
  rfl

theorem Rests.mode_apply (h : r.Rests i) {mv : Move} (hmv : mv ≠ .machine (.word i)) :
    (mv.apply score rate r).machine.voices[i].mode = 0 := by
  have hafter := voiceAfter_apply score rate r mv i
  generalize (mv.apply score rate r).machine.voices[i] = v at hafter ⊢
  cases hafter with
  | same => exact h.mode
  | word hword => exact absurd hword hmv
  | loaded master => exact h.mode
  | silenced => rfl
  | rendered n =>
    rw [Voice.render_of_silent h.silent]
    exact h.mode
  | reset => rfl

theorem Rests.stopped_apply (h : r.Rests i) {mv : Move} (hmv : mv ≠ .machine (.word i))
    (hstart : r.startsMacro score i mv = false) : (mv.apply score rate r).machine.Stopped i := by
  have hsame : ∀ {m : Machine}, m.sounding = r.machine.sounding → m.Stopped i := fun hm =>
    h.stopped.congr (Machine.channels_of_sounding hm)
  cases mv with
  | machine mv =>
    exact h.stopped.apply (fun he => hmv (congrArg Move.machine he)) fun m w hd =>
      startsMacro_of_dispatched hstart hd
  | enter j =>
    rw [Move.apply, enterTrack]
    split
    · exact h.stopped
    · exact h.stopped
    · exact h.stopped.channelOff _
  | word j =>
    have hd := fun w => startsMacro_of_dispatched (w := w) (m := r.machine) hstart
    simp only [dispatched] at hd
    show (r.machine.grant? score _).Stopped i
    cases hrequest : (Tracks.step score j r.tracks).request with
    | none => exact h.stopped
    | some request =>
      rw [hrequest] at hd
      cases request with
      | dispatch w => exact h.stopped.dispatch (hd w rfl)
      | endSong => exact hsame (sounding_reachEnd r.machine)
      | fade | cue | endPattern => exact h.stopped
  | leave => exact hsame (sounding_leave r)
  | readStep => exact h.stopped.congr (channels_readStep r score)
  | giveUp => exact hsame (sounding_reachEnd r.machine)
  | render =>
    rw [Machine.Stopped, Move.apply, channel_render h.silent]
    exact h.stopped
  | reset multi =>
    rw [Move.apply]
    exact stopped_reset multi i
  | select n => exact h.stopped.congr (Machine.channels_of_sounding (sounding_selectSong r score n))
  | aim position e => exact hsame (sounding_aim r position e)
  | reserve j code priority => exact h.stopped.onChannel j fun c hc => hc
  | begin | countTick | startRow | stop | enable | announce | drain => exact h.stopped

/-- A channel that rests goes on resting, but for the words of its macro and a
    move that starts a macro on it. -/
theorem Rests.apply (h : r.Rests i) {mv : Move} (hmv : mv ≠ .machine (.word i))
    (hstart : r.startsMacro score i mv = false) : (mv.apply score rate r).Rests i :=
  ⟨h.stopped_apply hmv hstart, h.mode_apply hmv⟩

/-- An unlocked channel that is switched off rests. -/
theorem rests_channelOff (hlock : r.machine.channels[i].reservation.lock = 0) :
    (r.onMachine (·.channelOff i.val)).Rests i := by
  have hoff : r.machine.channelOff i.val =
      r.machine.setLane i ⟨r.machine.channels[i].silenced, r.machine.voices[i].silenced⟩ := by
    have hmod : i.val % 16 = i.val := Nat.mod_eq_of_lt (by omega)
    unfold Machine.channelOff
    simp only [hmod, i.isLt, dif_pos, hlock, if_true]
  have hlane := Machine.lane_setLane_self r.machine i
    ⟨r.machine.channels[i].silenced, r.machine.voices[i].silenced⟩
  rw [← hoff] at hlane
  exact ⟨congrArg (fun l : Lane => l.channel.program.running) hlane,
    congrArg (fun l : Lane => l.voice.mode) hlane⟩

/-- A track that is no more than a number switches a channel off as it begins
    its row. -/
theorem enterTrack_of_off {j : Slot} (h : r.tracks[j].number = offNumber) :
    ∃ r' : Replay, r'.machine = r.machine ∧
      r.enterTrack j = r'.onMachine (·.channelOff r.tracks[j].transpose.toUInt8.toNat) := by
  refine ⟨{ r with tracks := r.tracks.modify j Track.stop }, rfl, ?_⟩
  rw [enterTrack, Tracks.enter, if_pos h]
  rfl

/-! ### Kinds of moves -/

/-- A move of the turn of a channel's macro. -/
def Move.runs (i : Slot) : Move → Bool
  | .machine (.wake j) | .machine (.word j) | .machine (.halt j) => j == i
  | _ => false

/-- A move of the tick of any channel. -/
def Move.ofChannel : Move → Bool
  | .machine _ => true
  | _ => false

theorem ne_word_of_runs {mv : Move} (h : mv.runs i = false) : mv ≠ .machine (.word i) := by
  rintro rfl
  rw [Move.runs, BEq.rfl] at h
  cases h

theorem runs_of_slot_ne {mv : Machine.Move} (h : mv.slot ≠ i) : Move.runs i (.machine mv) = false := by
  cases mv with
  | wake j | word j | halt j => exact beq_false_of_ne h
  | countLock | takeEffect | countWait | bend | load => rfl

theorem any_runs_of_ofChannel {ms : List Move} (h : ms.any Move.ofChannel = false) :
    ms.any (Move.runs i) = false := by
  refine List.any_eq_false.2 fun mv hmv hruns => ?_
  have hchannel := List.any_eq_false.1 h mv hmv
  cases mv with
  | machine => exact hchannel rfl
  | _ => cases hruns

theorem any_ofChannel_of_ofSong {ms : List Move} (h : ms.all Move.ofSong = true) :
    ms.any Move.ofChannel = false := by
  refine List.any_eq_false.2 fun mv hmv hchannel => ?_
  have hsong := List.all_eq_true.1 h mv hmv
  cases mv with
  | machine => cases hsong
  | _ => cases hchannel

/-- The channels have their ticks before the song has its own. -/
theorem exists_channels_song (score : Score) (rate : UInt32) (r : Replay) :
    ∃ channels song, tickMoves score rate r = channels ++ song ∧
      channels.any Move.ofSong = false ∧ song.any Move.ofChannel = false := by
  have hchannels : ∀ ms : List Machine.Move, (ms.map Move.machine).any Move.ofSong = false :=
    fun ms => by
      rw [List.any_map]
      exact List.any_eq_false.2 fun _ _ => Bool.false_ne_true
  rw [tickMoves, advanceMoves]
  split
  · refine ⟨.begin :: (Machine.tickMoves score rate r.begin.machine).map .machine,
      (if 0 ≤ r.begin.song then sequencerMoves score (r.begin.onMachine (·.tickChannels score rate))
        else []) ++ [.render], ?_, ?_, ?_⟩
    · rw [List.cons_append, List.cons_append, List.append_assoc]
    · rw [List.any_cons, hchannels]
      rfl
    · rw [List.any_append]
      split
      · rw [any_ofChannel_of_ofSong (all_ofSong_sequencerMoves _)]
        rfl
      · rfl
  · exact ⟨[.begin], [.render], rfl, rfl, rfl⟩

/-- Once a move of the song is made in a tick, no channel has its own any more. -/
theorem any_ofChannel_of_tickMoves {before rest : List Move} {mv : Move}
    (h : tickMoves score rate r = before ++ mv :: rest) (hmv : mv.ofSong = true) :
    rest.any Move.ofChannel = false := by
  obtain ⟨channels, song, hmoves, hchannels, hsong⟩ := exists_channels_song score rate r
  -- the move is not among those of the channels, so it comes after all of them
  have hnot : mv ∉ channels := fun hmem => List.any_eq_false.1 hchannels mv hmem hmv
  have hsuffix : mv :: rest <:+ song := by
    rw [hmoves] at h
    obtain ⟨between, -, hrest⟩ | ⟨between, hbefore, hrest⟩ := List.append_eq_append_iff.1 h
    · exact ⟨between, hrest.symm⟩
    · cases between with
      | nil => exact ⟨[], hrest⟩
      | cons mv' between =>
        obtain ⟨rfl, -⟩ := List.cons.inj hrest
        rw [hbefore] at hnot
        exact absurd (List.mem_append_right before List.mem_cons_self) hnot
  obtain ⟨between, rfl⟩ := hsuffix
  rw [List.any_append, List.any_cons, Bool.or_eq_false_iff, Bool.or_eq_false_iff] at hsong
  exact hsong.2.2

/-! ### Quiet channels -/

/-- A channel is quiet in a move: its macro does not run, and its voice has
    nothing to play, nor to tell the macro. -/
structure Quiet (score : Score) (i : Slot) (r : Replay) (mv : Move) : Prop where
  unrun : mv.runs i = false
  unheard : ∀ n, r.machine.voices[i].render score.bank n = ⟨r.machine.voices[i], #[], false⟩

/-- A channel is quiet in some moves, up to the first one that starts a macro on
    it. -/
def QuietUntilStarted (score : Score) (rate : UInt32) (i : Slot) : List Move → Replay → Prop
  | [], _ => True
  | mv :: ms, r => Quiet score i r mv ∧
      (r.startsMacro score i mv = true ∨ QuietUntilStarted score rate i ms (mv.apply score rate r))

/-- No macro is started on a channel in some moves. -/
abbrev Unstarted (score : Score) (rate : UInt32) (i : Slot) : List Move → Replay → Prop :=
  Along score rate fun r mv => r.startsMacro score i mv = false

theorem QuietUntilStarted.append : ∀ (ms : List Move) {ns : List Move} {r : Replay},
    QuietUntilStarted score rate i ms r →
      (Unstarted score rate i ms r → QuietUntilStarted score rate i ns (run score rate ms r)) →
      QuietUntilStarted score rate i (ms ++ ns) r
  | [], _, _, _, h => h trivial
  | mv :: ms, ns, r, ⟨hq, h⟩, hns => by
    refine ⟨hq, ?_⟩
    cases hstart : r.startsMacro score i mv with
    | true => exact .inl rfl
    | false =>
      rw [hstart] at h
      exact .inr (QuietUntilStarted.append ms (h.resolve_left Bool.false_ne_true) fun hms =>
        hns ⟨hstart, hms⟩)

/-- A channel that is quiet and on which no macro is started rests in the end. -/
theorem QuietUntilStarted.rests : ∀ (ms : List Move) {r : Replay},
    QuietUntilStarted score rate i ms r → Unstarted score rate i ms r → r.Rests i →
      (run score rate ms r).Rests i
  | [], _, _, _, h => h
  | _ :: ms, _, ⟨hq, hms⟩, ⟨hstart, hstarts⟩, h => by
    rw [hstart] at hms
    exact QuietUntilStarted.rests ms (hms.resolve_left Bool.false_ne_true) hstarts
      (h.apply (ne_word_of_runs hq.unrun) hstart)

namespace Rests

/-- What is said of the moves that come later has to be said of a channel that
    rests only. -/
theorem quiet_append (h : r.Rests i) {ms ns : List Move}
    (hms : QuietUntilStarted score rate i ms r)
    (hns : (run score rate ms r).Rests i → QuietUntilStarted score rate i ns (run score rate ms r)) :
    QuietUntilStarted score rate i (ms ++ ns) r :=
  hms.append ms fun hstart => hns (hms.rests ms hstart h)

/-- A channel that rests is quiet until a macro is started on it, unless its
    macro is in the midst of a turn. -/
theorem quiet_of_unrun : ∀ (ms : List Move) {r : Replay}, r.Rests i →
    ms.any (Move.runs i) = false → QuietUntilStarted score rate i ms r
  | [], _, _, _ => trivial
  | mv :: ms, r, h, hms => by
    rw [List.any_cons, Bool.or_eq_false_iff] at hms
    refine ⟨⟨hms.1, Voice.render_of_silent h.silent⟩, ?_⟩
    cases hstart : r.startsMacro score i mv with
    | true => exact .inl rfl
    | false => exact .inr (quiet_of_unrun ms (h.apply (ne_word_of_runs hms.1) hstart) hms.2)

/-- The macro of a channel that rests has no turn in the tick of the channel. -/
theorem quiet_channelMoves (h : r.Rests i) (j : Slot) :
    QuietUntilStarted score rate i ((Machine.channelMoves score j r.machine).map .machine) r := by
  by_cases hj : j = i
  · subst hj
    rw [Machine.channelMoves, List.append_assoc, List.map_append]
    refine h.quiet_append (h.quiet_of_unrun _ rfl) fun hrests => ?_
    -- what the turn is depends on what the sound effect has made of the channel
    rw [run_map_machine] at hrests ⊢
    have hturn : Machine.turnMoves score j
        ((r.machine.onChannel j Channel.countLock).takeEffect score j) = [.countWait j] :=
      Machine.turnMoves_of_stopped hrests.stopped
    rw [hturn]
    exact hrests.quiet_of_unrun _ rfl
  · refine h.quiet_of_unrun _ (List.any_eq_false.2 fun mv hmv => ?_)
    obtain ⟨mv, hmem, rfl⟩ := List.mem_map.1 hmv
    rw [runs_of_slot_ne fun he => hj ((Machine.slot_of_mem_channelMoves hmem).symm.trans he)]
    exact Bool.false_ne_true

theorem quiet_channelsMoves (h : r.Rests i) (is : List Slot) :
    QuietUntilStarted score rate i
      ((Machine.channelsMoves score rate is r.machine).map .machine) r := by
  induction is generalizing r with
  | nil => trivial
  | cons j is ih =>
    rw [Machine.channelsMoves, List.map_append]
    refine h.quiet_append (h.quiet_channelMoves j) fun hrests => ?_
    have hrun : (run score rate ((Machine.channelMoves score j r.machine).map .machine) r).machine =
        r.machine.tickChannel score rate j := by
      rw [run_map_machine, onMachine, Machine.run_channelMoves]
    have hnext := ih hrests
    rwa [hrun] at hnext

/-- A channel that rests is quiet in a tick, until a macro is started on it. -/
theorem quiet_advanceMoves (h : r.Rests i) :
    QuietUntilStarted score rate i (advanceMoves score rate r) r := by
  have hbegin : r.begin.Rests i := ⟨h.stopped, h.mode⟩
  refine ⟨⟨rfl, Voice.render_of_silent h.silent⟩, .inr ?_⟩
  show QuietUntilStarted score rate i _ r.begin
  split
  · refine hbegin.quiet_append (hbegin.quiet_channelsMoves _) fun hrests => ?_
    split
    · exact hrests.quiet_of_unrun _ (any_runs_of_ofChannel
        (any_ofChannel_of_ofSong (all_ofSong_sequencerMoves _)))
    · trivial
  · trivial

theorem quiet_tickMoves (h : r.Rests i) :
    QuietUntilStarted score rate i (tickMoves score rate r) r :=
  h.quiet_append h.quiet_advanceMoves fun hrests => hrests.quiet_of_unrun [.render] rfl

end Rests

end Replay

/-! ## Players -/

namespace Player

open Replay (Move QuietUntilStarted Unstarted)

variable {p q : Player} {i : Slot} {ms : List Move}

theorem quiet_ticksMoves (k : Nat) (h : p.replay.Rests i) :
    QuietUntilStarted p.tune.score p.rate i (p.ticksMoves k) p.replay := by
  induction k generalizing p with
  | zero => trivial
  | succ k ih =>
    rw [ticksMoves]
    refine h.quiet_append h.quiet_tickMoves fun hrests => ?_
    rw [← run, run_tickMoves] at hrests ⊢
    exact ih hrests

/-- Whatever a host does, a channel that rests is quiet in it until a macro is
    started on the channel. -/
theorem Makes.quiet {action : Action} (hms : p.Makes action ms) (h : p.replay.Rests i) :
    QuietUntilStarted p.tune.score p.rate i ms p.replay := by
  have hseek : ∀ r, (Replay.seekMoves p.tune.score r).any (Move.runs i) = false := fun r =>
    Replay.any_runs_of_ofChannel (Replay.any_ofChannel_of_ofSong (Replay.all_ofSong_stepMoves _ _))
  cases hms with
  | start hs =>
    refine h.quiet_of_unrun _ ?_
    rw [startMoves, List.any_cons, List.any_cons, List.any_append, hseek]
    rfl
  | tick => exact h.quiet_tickMoves
  | fill => exact quiet_ticksMoves _ h
  | seek =>
    refine h.quiet_of_unrun _ ?_
    rw [aimMoves, List.any_cons, List.any_append, hseek]
    rfl
  | playEffect => exact h.quiet_of_unrun _ rfl
  | drain => exact h.quiet_of_unrun _ rfl
  | refuseSong | refuseEffect | failToFill => trivial

/-- The moves that a host makes, one action after the other, and the player that
    it comes to. -/
inductive Course (p : Player) : List Move → Player → Prop where
  | refl : Course p [] p
  | perform {q ms action ns} : Course p ms q → q.Makes action ns →
      Course p (ms ++ ns) (q.perform action)

theorem Course.tune_rate (h : Course p ms q) : q.tune = p.tune ∧ q.rate = p.rate := by
  have hlater : Later p q := by
    induction h with
    | refl => exact .refl
    | perform _ _ ih => exact ih.perform _
  exact hlater.tune_rate

theorem course_ticks (p : Player) : ∀ k : Nat, Course p (p.ticksMoves k) (tick^[k] p)
  | 0 => .refl
  | k + 1 => by
    have hnext : Course p (p.ticksMoves k ++ (tick^[k] p).tickMoves) (tick^[k] p).tick :=
      (course_ticks p k).perform .tick
    rw [ticksMoves_add, ticksMoves, ticksMoves, List.append_nil, Function.iterate_succ_apply']
    exact hnext

theorem Course.run (h : Course p ms q) : p.run ms = q.replay := by
  induction h with
  | refl => rfl
  | @perform q ms action ns hq hns ih =>
    obtain ⟨htune, hrate⟩ := hq.tune_rate
    rw [← hns.run, Player.run, Replay.run_append, ← Player.run, ih, Player.run, htune, hrate]

theorem Course.quiet (h : Course p ms q) (hr : p.replay.Rests i) :
    QuietUntilStarted p.tune.score p.rate i ms p.replay := by
  induction h with
  | refl => trivial
  | @perform q ms action ns hq hns ih =>
    refine hr.quiet_append ih fun hrests => ?_
    obtain ⟨htune, hrate⟩ := hq.tune_rate
    rw [← Player.run, hq.run] at hrests ⊢
    rw [← htune, ← hrate]
    exact hns.quiet hrests

/-- A channel that is not locked is switched off, between two ticks or by a track
    in the midst of one, in the rest of which no channel has its turn.  From then
    on, whatever a host does, the channel is quiet in all moves up to the first
    one that starts a macro on it: its macro has no turn, its voice plays nothing,
    and no macro resumes for it.  In each tick up to that move nothing is heard of
    it. -/
theorem quiet_until_started {r : Replay} {rest : List Move}
    (hlock : r.machine.channels[i].reservation.lock = 0) (hrest : rest.any Move.ofChannel = false)
    (hp : p.replay = Replay.run p.tune.score p.rate rest (r.onMachine (·.channelOff i.val)))
    (hms : p.Course ms q) :
    let off := r.onMachine (·.channelOff i.val)
    QuietUntilStarted p.tune.score p.rate i (rest ++ ms ++ q.tickMoves) off ∧
      (Unstarted p.tune.score p.rate i (rest ++ ms ++ q.tickMoves) off → q.Mute i) := by
  intro off
  have hoff : off.Rests i := Replay.rests_channelOff hlock
  have hleft : QuietUntilStarted p.tune.score p.rate i rest off :=
    hoff.quiet_of_unrun rest (Replay.any_runs_of_ofChannel hrest)
  have hcourse : QuietUntilStarted p.tune.score p.rate i (rest ++ ms) off := by
    refine hoff.quiet_append hleft fun hrests => ?_
    rw [← hp] at hrests ⊢
    exact hms.quiet hrests
  have hend : Replay.run p.tune.score p.rate (rest ++ ms) off = q.replay := by
    rw [Replay.run_append, ← hp, ← hms.run]
    rfl
  obtain ⟨htune, hrate⟩ := hms.tune_rate
  refine ⟨hoff.quiet_append hcourse fun hrests => ?_, fun hstart => ?_⟩
  · rw [hend] at hrests ⊢
    rw [← htune, ← hrate]
    exact hrests.quiet_tickMoves
  · obtain ⟨hbefore, htick⟩ := Replay.Along.of_append _ hstart
    have hrests := hcourse.rests _ hbefore hoff
    rw [hend] at htick hrests
    rw [← htune, ← hrate] at htick
    have hadvance := hrests.quiet_advanceMoves.rests _ (Replay.Along.of_append _ htick).1 hrests
    rw [Replay.run_advanceMoves] at hadvance
    exact mute_of_silent hadvance.silent

/-- A track that switches a channel off in the midst of a tick leaves moves to be
    made in the tick, but none of a channel. -/
theorem exists_channelOff {before rest : List Move} {j : Slot}
    (hmoves : p.tickMoves = before ++ .enter j :: rest)
    (hnumber : (p.run before).tracks[j].number = offNumber)
    (hchannel : (p.run before).tracks[j].transpose.toUInt8.toNat = i.val) :
    ∃ r : Replay, r.machine = (p.run before).machine ∧ rest.any Move.ofChannel = false ∧
      p.run (before ++ [.enter j]) = r.onMachine (·.channelOff i.val) ∧
      p.tick.replay = Replay.run p.tune.score p.rate rest (r.onMachine (·.channelOff i.val)) := by
  obtain ⟨r, hmachine, henter⟩ := Replay.enterTrack_of_off hnumber
  rw [hchannel] at henter
  have hoff : p.run (before ++ [.enter j]) = (p.run before).enterTrack j := by
    rw [run, Replay.run_append]
    rfl
  refine ⟨r, hmachine, Replay.any_ofChannel_of_tickMoves hmoves rfl, hoff.trans henter, ?_⟩
  rw [← henter, ← hoff, ← run_tickMoves, hmoves, run, run, ← Replay.run_append, List.append_assoc]
  rfl

/-- A tune of one note, and of a second one later.  In the row of the first note
    another track switches its channel off. -/
def hushTune : ByteArray :=
  songTune 0 0 [0 :: 0xfe00 :: List.replicate 6 0xff00]
    [[0x0c001000, 0xf3020000, 0x0c001000, 0xf3ff0000]]
    [[0x03000008, 0x0e000040, 0x01000000, 0x08000000, 0x07000000]]

/-- In its first tick the macro of the note is about to run when the channel is
    switched off, and two ticks later nothing has been started on it yet. -/
theorem quiet_hushTune : ∃ tune p, load hushTune (some shortNote) = .ok tune ∧
    Player.new tune minRate = .ok p ∧
      ∃ (r : Replay) (before rest : List Move), p.tickMoves = before ++ .enter 1 :: rest ∧
        p.run (before ++ [.enter 1]) = r.onMachine (·.channelOff (0 : Slot).val) ∧
        r.machine.channels[(0 : Slot)].program.running = -1 ∧
        r.machine.channels[(0 : Slot)].reservation.lock = 0 ∧
        Unstarted p.tune.score p.rate 0 (rest ++ p.tick.ticksMoves 1 ++ p.tick.tick.tickMoves)
          (r.onMachine (·.channelOff (0 : Slot).val)) ∧ p.tick.tick.Mute 0 := by
  have h : ((load hushTune (some shortNote)).toOption.bind fun tune =>
      (Player.new tune minRate).toOption.map fun p =>
        let r := p.run (p.tickMoves.take 26)
        (p.tickMoves[26]?.bind fun | .enter j => some j | _ => none,
          decide (r.tracks[(1 : Slot)].number = offNumber ∧
            r.tracks[(1 : Slot)].transpose.toUInt8.toNat = (0 : Slot).val ∧
            r.machine.channels[(0 : Slot)].program.running = -1 ∧
            r.machine.channels[(0 : Slot)].reservation.lock = 0),
          decide (Unstarted p.tune.score p.rate 0
            (p.tickMoves.drop 27 ++ p.tick.ticksMoves 1 ++ p.tick.tick.tickMoves)
            (p.run (p.tickMoves.take 26 ++ [.enter 1]))))) =
        some (some (1 : Slot), true, true) := by decide +kernel
  obtain ⟨tune, p, hload, hnew, h⟩ := exists_new h
  simp only [Prod.mk.injEq, decide_eq_true_eq] at h
  obtain ⟨hmove, ⟨hnumber, hchannel, hstate⟩, hstart⟩ := h
  have hmoves : p.tickMoves = p.tickMoves.take 26 ++ .enter 1 :: p.tickMoves.drop 27 := by
    obtain ⟨mv, hmv, he⟩ := Option.bind_eq_some_iff.1 hmove
    obtain ⟨hlt, hget⟩ := List.getElem?_eq_some_iff.1 hmv
    have henter : mv = .enter 1 := by
      cases mv with
      | enter j => rw [Option.some.inj he]
      | _ => cases he
    rw [← henter, ← hget, ← List.drop_eq_getElem_cons hlt, List.take_append_drop]
  obtain ⟨r, hmachine, hrest, hoff, hp⟩ := exists_channelOff hmoves hnumber hchannel
  rw [hoff] at hstart
  rw [← hmachine] at hstate
  obtain ⟨hruns, hlock⟩ := hstate
  exact ⟨tune, p, hload, hnew, r, _, _, hmoves, hoff, hruns, hlock, hstart,
    (quiet_until_started hlock hrest hp (course_ticks p.tick 1)).2 hstart⟩

end Player

end PaulaReplay
