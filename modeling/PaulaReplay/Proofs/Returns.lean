/-
  Returns: a macro or a pattern that goes back comes to the word behind its
  last call.

  The place to go back to is remembered in fewer bits than the place itself.
  To say that nothing is lost, the calls are followed beside the replay.

  * `Program.next`, `Program.resumes` and those of a track: where the next word
    is, and the one to go back to;
  * `Calls`: where the last calls are to go back to, `Calls.after` a move and
    `Calls.run` after some;
  * `Lane.turn_of_back`, `Tracks.next_step`: a return comes to the word to go
    back to;
  * `Replay.resumes_apply`: that word is the one its calls say, after each move.
-/
import PaulaReplay.Proofs.Pointers

namespace PaulaReplay

variable {score : Score} {rate : UInt32}

/-! ## Words -/

/-- Where the next word of a macro is. -/
def Program.next (p : Program) : Nat := p.base.toNat + p.step.toNat * 4

/-- Where the word is that a macro goes back to. -/
def Program.resumes (p : Program) : Nat := p.returnBase.toNat + p.returnStep.toNat * 4

/-- The operation of the next word of a macro. -/
def Program.operation? (score : Score) (p : Program) : Option Operation :=
  (score.word? p.base p.step).map fun w => Operation.ofByte w.byte0

/-- Where the next word of a track is. -/
def Track.next (t : Track) : Nat := t.base.toNat + t.step.toNat * 4

/-- Where the word is that a track goes back to. -/
def Track.resumes (t : Track) : Nat := t.returnBase.toNat + t.returnStep.toNat * 4

/-- The instruction of the next word of a track. -/
def Track.instruction? (score : Score) (t : Track) : Option Pattern.Instruction :=
  (score.word? t.base t.step).map fun w => Pattern.Instruction.ofByte w.byte0

/-- The word behind one of the music data is counted in 16 bits. -/
theorem toNat_step_add_one {base : UInt32} {step : UInt16} {w : Word} (hs : score.LaidOut)
    (h : score.word? base step = some w) : (step + 1).toNat = step.toNat + 1 := by
  have hmusic := hs.music
  have hmax : maxMusicSize = 65532 := rfl
  have hread : Bytes.u32? score.music (base.toNat + step.toNat * 4) ≠ none := by
    intro hnone
    rw [Score.word?, hnone] at h
    cases h
  rw [ne_eq, Bytes.u32?_eq_none_iff] at hread
  have hadd : (step + 1).toNat = (step.toNat + 1) % 65536 := UInt16.toNat_add _ _
  omega

/-! ## Calls -/

/-- Where the last call of each macro and of each pattern goes back to, zero
    where there was none. -/
structure Calls where
  macros : Octet Nat := Octet.replicate 0
  patterns : Octet Nat := Octet.replicate 0
deriving DecidableEq, Repr

/-- The calls after a move: a call goes back to the word behind it. -/
def Calls.after (score : Score) (r : Replay) (calls : Calls) : Replay.Move → Calls
  | .machine (.word i) =>
    let p := r.machine.channels[i].program
    if p.operation? score = some .call then
      { calls with macros := calls.macros.set i (p.next + 4) }
    else calls
  | .word i =>
    let t := r.tracks[i]
    if t.instruction? score = some (.command .call) then
      { calls with patterns := calls.patterns.set i (t.next + 4) }
    else calls
  | .reset _ => {}
  | _ => calls

/-- The calls after some moves. -/
def Calls.run (score : Score) (rate : UInt32) : List Replay.Move → Replay → Calls → Calls
  | [], _, calls => calls
  | mv :: ms, r, calls => run score rate ms (mv.apply score rate r) (calls.after score r mv)

theorem Calls.run_of_forall : ∀ {ms : List Replay.Move},
    (∀ mv ∈ ms, ∀ r (calls : Calls), calls.after score r mv = calls) →
      ∀ r (calls : Calls), calls.run score rate ms r = calls
  | [], _, _, _ => rfl
  | mv :: ms, h, r, calls => by
    rw [run, h mv List.mem_cons_self]
    exact run_of_forall (fun mv hmv => h mv (List.mem_cons_of_mem _ hmv)) _ _

/-! ## Macros -/

namespace Lane

variable {l : Lane}

/-- A word leaves where a macro goes back to, unless it is a call: then it is
    the word behind it. -/
theorem resumes_turn (hs : score.LaidOut) (h : l.channel.Anchored score) :
    (l.turn score).lane.channel.program.resumes =
      if l.channel.program.operation? score = some .call then l.channel.program.next + 4
      else l.channel.program.resumes := by
  unfold turn Program.operation?
  simp only
  cases hw : score.word? l.channel.program.base l.channel.program.step with
  | none => rfl
  | some w =>
    have hresumes : ∀ {c c' : Channel}, c'.places.2 = c.places.2 →
        c'.program.resumes = c.program.resumes := by
      intro c c' he
      simp only [Channel.places, Prod.mk.injEq] at he
      rw [Program.resumes, Program.resumes, he.1, he.2]
    simp only [Option.map_some, Option.some.injEq]
    split
    · next hop =>
      rw [hop, execute, hresumes (places_jump _ score _)]
      show l.channel.program.base.toUInt16.toNat + (l.channel.program.step + 1).toNat * 4 = _
      rw [(h.base.onWord hs.macros).toNat_toUInt16, toNat_step_add_one hs hw, Program.next]
      omega
    · next hop =>
      cases hleads : Operation.ofByte w.byte0 with
      | call => exact absurd hleads hop
      | jump => exact hresumes (places_jump _ score _)
      | back => rfl
      | _ => exact hresumes (congrArg Prod.snd (places_execute rfl))

/-- A return comes to the word that the macro goes back to. -/
theorem turn_of_back (h : l.channel.program.operation? score = some .back) :
    ∃ l', l.turn score = .goesOn l' ∧ l'.channel.program.next = l.channel.program.resumes := by
  obtain ⟨w, hw, hop⟩ := Option.map_eq_some_iff.1 h
  have hturn : l.turn score = execute score .back (w.withByte0 0)
      (l.jumpTo (l.channel.program.step + 1)) := by
    unfold turn
    simp only [hw, hop]
  rw [execute] at hturn
  exact ⟨_, hturn, congrArg (· + _) (UInt16.toNat_toUInt32 _)⟩

end Lane

namespace Machine

variable {m : Machine}

/-- Where the macros go back to. -/
def resumes (m : Machine) : Octet Nat := m.channels.map fun c => c.program.resumes

theorem getElem_resumes (m : Machine) (i : Slot) :
    m.resumes[i] = m.channels[i].program.resumes := Octet.getElem_map _ _ _

theorem resumes_setChannel (m : Machine) (i : Slot) (c : Channel) :
    (m.setChannel i c).resumes = m.resumes.set i c.program.resumes := by
  ext j
  rw [getElem_resumes, Octet.getElem_set, getElem_resumes]
  show (m.channels.set i c)[j].program.resumes = _
  rw [Octet.getElem_set]
  split <;> rfl

/-- A channel may change where it does not hold the place to go back to. -/
theorem resumes_setChannel_of_places {i : Slot} {c : Channel}
    (h : c.places.2 = m.channels[i].places.2) : (m.setChannel i c).resumes = m.resumes := by
  have hself : m.resumes[i] = c.program.resumes := by
    simp only [Channel.places, Prod.mk.injEq] at h
    rw [getElem_resumes, Program.resumes, Program.resumes, h.1, h.2]
  rw [resumes_setChannel, ← hself, Octet.set_getElem_self]

theorem resumes_dispatch (score : Score) (w : Word) (m : Machine) :
    (m.dispatch score w).resumes = m.resumes :=
  resumes_setChannel_of_places (Channel.places_receive score w _)

theorem resumes_channelOff (n : Nat) (m : Machine) : (m.channelOff n).resumes = m.resumes := by
  unfold channelOff
  split
  · simp only
    split
    · exact resumes_setChannel_of_places rfl
    · rfl
  · rfl

theorem resumes_congr {m' : Machine} (h : m'.channels = m.channels) : m'.resumes = m.resumes := by
  rw [resumes, resumes, h]

theorem resumes_grant? (score : Score) (m : Machine) (request : Option Request) :
    (m.grant? score request).resumes = m.resumes := by
  cases request with
  | none => rfl
  | some request =>
    cases request with
    | dispatch w => exact resumes_dispatch score w m
    | endSong => exact resumes_congr (congrArg Prod.fst (Replay.sounding_reachEnd m))
    | fade | cue | endPattern => rfl

theorem resumes_runWord (m : Machine) (i : Slot) : (m.runWord score i).resumes =
    m.resumes.set i ((m.lane i).turn score).lane.channel.program.resumes := by
  unfold runWord
  cases (m.lane i).turn score with
  | starts l w => exact (resumes_dispatch score w _).trans (resumes_setChannel m i l.channel)
  | goesOn l => exact resumes_setChannel m i l.channel
  | rests l => exact resumes_setChannel m i l.channel
  | cues l slot value => exact resumes_setChannel m i l.channel

/-- A move of a channel leaves where macros go back to, unless it runs a word. -/
theorem resumes_apply {mv : Move} (hmv : ∀ i, mv ≠ .word i) :
    (mv.apply score rate m).resumes = m.resumes := by
  cases mv with
  | word i => exact absurd rfl (hmv i)
  | countLock i =>
    exact resumes_setChannel_of_places (congrArg Prod.snd (Channel.places_countLock _))
  | takeEffect i =>
    unfold Move.apply takeEffect
    simp only
    split
    · rfl
    · exact (resumes_dispatch score _ _).trans (resumes_setChannel_of_places rfl)
  | countWait i =>
    exact resumes_setChannel_of_places (congrArg Prod.snd (Channel.places_countWait _))
  | bend i =>
    unfold Move.apply bend
    simp only
    split_ifs
    · rfl
    · exact resumes_setChannel_of_places rfl
    · exact resumes_setChannel_of_places (congrArg Prod.snd (Channel.places_bend _))
  | wake | halt => exact resumes_setChannel_of_places rfl
  | load => rfl

/-- A return comes to the word that the macro goes back to. -/
theorem next_runWord {i : Slot} (h : m.channels[i].program.operation? score = some .back) :
    (m.runWord score i).channels[i].program.next = m.resumes[i] := by
  obtain ⟨l, hl, hnext⟩ := Lane.turn_of_back (l := m.lane i) h
  unfold runWord
  rw [hl, getElem_resumes]
  show (m.channels.set i l.channel)[i].program.next = _
  rw [Octet.getElem_set_self]
  exact hnext

end Machine

/-! ## Patterns -/

namespace Tracks

variable {ts : Tracks}

/-- Where the patterns go back to. -/
def resumes (ts : Tracks) : Octet Nat := ts.map Track.resumes

theorem getElem_resumes (ts : Tracks) (i : Slot) : (resumes ts)[i] = ts[i].resumes :=
  Octet.getElem_map _ _ _

theorem resumes_set (ts : Tracks) (i : Slot) (t : Track) :
    resumes (ts.set i t) = (resumes ts).set i t.resumes := by
  ext j
  rw [getElem_resumes, Octet.getElem_set, Octet.getElem_set, getElem_resumes]
  split <;> rfl

theorem resumes_set_of_eq {i : Slot} {t : Track} (h : t.resumes = ts[i].resumes) :
    resumes (ts.set i t) = resumes ts := by
  have hself : (resumes ts)[i] = t.resumes := by rw [getElem_resumes, h]
  rw [resumes_set, ← hself, Octet.set_getElem_self]

theorem resumes_modify (i : Slot) (ts : Tracks) {f : Track → Track}
    (h : ∀ t, (f t).resumes = t.resumes) : resumes (ts.modify i f) = resumes ts :=
  resumes_set_of_eq (h _)

theorem resumes_jump (t : Track) (base? : Option UInt32) (step : UInt16) :
    (t.jump base? step).resumes = t.resumes := by
  unfold Track.jump; split <;> rfl

theorem resumes_play (t : Track) (number : UInt8) (base? : Option UInt32) (transpose : Int8) :
    (t.play number base? transpose).resumes = t.resumes := by
  unfold Track.play; split <;> rfl

theorem resumes_loop (t : Track) (count : UInt8) (target : UInt16) :
    (t.loop count target).1.resumes = t.resumes := by
  unfold Track.loop
  simp only
  split_ifs <;> rfl

theorem resumes_playNote (i : Slot) (kind : Pattern.NoteKind) (w : Word) (ts : Tracks) :
    resumes (playNote i kind w ts).tracks = resumes ts := by
  cases kind with
  | hold => exact resumes_set_of_eq rfl
  | plain => rfl
  | slide => rfl

/-- Of the commands only a call changes where a track goes back to. -/
theorem resumes_obey {c : Pattern.Command} (hc : c ≠ .call) (i : Slot) (w : Word) (ts : Tracks) :
    resumes (obey score i c w ts).tracks = resumes ts := by
  cases c with
  | call => exact absurd rfl hc
  | loop => exact resumes_set_of_eq (resumes_loop _ _ _)
  | jump => exact resumes_modify i ts fun t => resumes_jump t _ _
  | play => exact resumes_modify _ ts fun t => resumes_play t _ _ _
  | finish | wait | stop | stopCustom | back => exact resumes_modify i ts fun _ => rfl
  | _ => rfl

/-- A word leaves where a track goes back to, unless it is a call: then it is
    the word behind it. -/
theorem resumes_step (hs : score.LaidOut) (i : Slot) (ts : Tracks) :
    resumes (step score i ts).tracks =
      if ts[i].instruction? score = some (.command .call) then
        (resumes ts).set i (ts[i].next + 4)
      else resumes ts := by
  unfold step Track.instruction?
  cases hw : score.word? ts[i].base ts[i].step with
  | none => exact resumes_modify i ts fun _ => rfl
  | some w =>
    have hnext : resumes (ts.modify i fun t => { t with step := t.step + 1 }) = resumes ts :=
      resumes_modify i ts fun _ => rfl
    simp only [Option.map_some, Option.some.injEq, execute]
    generalize hi : Pattern.Instruction.ofByte w.byte0 = instruction
    cases instruction with
    | note kind =>
      rw [if_neg (by rintro ⟨⟩)]
      exact (resumes_playNote i kind w _).trans hnext
    | command c =>
      by_cases hc : c = .call
      · subst hc
        rw [if_pos rfl]
        simp only [obey]
        rw [Octet.modify, resumes_set, resumes_jump, hnext, Octet.modify, Octet.getElem_set_self]
        show (resumes ts).set i (ts[i].base.toNat + (ts[i].step + 1).toNat * 4) = _
        rw [toNat_step_add_one hs hw, Track.next]
        congr 1
        omega
      · rw [if_neg fun he => hc (Pattern.Instruction.command.inj he)]
        exact (resumes_obey hc i w _).trans hnext

/-- A return comes to the word that the track goes back to. -/
theorem next_step {i : Slot} (h : ts[i].instruction? score = some (.command .back)) :
    (step score i ts).tracks[i].next = (resumes ts)[i] := by
  obtain ⟨w, hw, hc⟩ := Option.map_eq_some_iff.1 h
  unfold step
  simp only [hw, execute, hc, obey, Octet.getElem_modify, if_true]
  rw [getElem_resumes]
  rfl

theorem resumes_enter (i : Slot) (ts : Tracks) : resumes (enter i ts).tracks = resumes ts := by
  unfold enter
  simp only
  split_ifs
  · exact resumes_modify i ts fun _ => rfl
  · rfl
  · exact resumes_set_of_eq rfl
  · exact resumes_set_of_eq rfl

end Tracks

/-! ## Replays -/

namespace Replay

variable {r : Replay}

/-- Where the macros and the patterns go back to. -/
def resumes (r : Replay) : Calls := ⟨r.machine.resumes, Tracks.resumes r.tracks⟩

theorem resumes_congr {s : Replay} (hc : s.machine.channels = r.machine.channels)
    (ht : Tracks.resumes s.tracks = Tracks.resumes r.tracks) : s.resumes = r.resumes := by
  rw [resumes, resumes, Machine.resumes_congr hc, ht]

theorem resumes_assignAll (score : Score) (s : TrackStep) (ts : Tracks) :
    Tracks.resumes (assignAll score s ts) = Tracks.resumes ts := by
  ext i
  rw [Tracks.getElem_resumes, Tracks.getElem_resumes, assignAll, Octet.getElem_ofFn]
  unfold assign
  simp only
  split
  · split <;> rfl
  · rfl

theorem resumes_readStep (r : Replay) (score : Score) :
    (r.readStep score).1.resumes = r.resumes := by
  refine resumes_congr (channels_readStep r score) ?_
  rcases tracks_readStep r score with he | ⟨s, he⟩ <;> rw [he]
  exact resumes_assignAll score s r.tracks

theorem resumes_selectSong (r : Replay) (score : Score) (n : Nat) :
    (r.selectSong score n).resumes = r.resumes := by
  refine resumes_congr (congrArg Prod.fst (sounding_selectSong r score n)) ?_
  rw [tracks_selectSong]
  ext i
  rw [Tracks.getElem_resumes, Tracks.getElem_resumes, Octet.getElem_map]
  rfl

theorem resumes_enterTrack (i : Slot) (r : Replay) : (r.enterTrack i).resumes = r.resumes := by
  rw [resumes, tracks_enterTrack, Tracks.resumes_enter, enterTrack]
  split
  · rfl
  · rfl
  · rw [Machine.resumes_channelOff]
    rfl

theorem resumes_render (r : Replay) (bank : Bank) (rate : UInt32) :
    (r.render bank rate).resumes = r.resumes := by
  refine congrArg (Calls.mk · _) (Octet.ext fun i => ?_)
  unfold render Player.resume
  simp only [Machine.getElem_resumes, Octet.getElem_ofFn]
  split <;> rfl

theorem resumes_reset (multi : Bool) : (initial multi).reset.resumes = {} := by
  have hreset : ∀ multi, (initial multi).reset.resumes = {} := by decide +kernel
  exact hreset multi

/-- Where a replay goes back to is what its calls say, after each move. -/
theorem resumes_apply (hs : score.LaidOut) (h : r.Anchored score) (mv : Move) :
    (mv.apply score rate r).resumes = r.resumes.after score r mv := by
  cases mv with
  | machine mv =>
    cases mv with
    | word i =>
      show Calls.mk (r.machine.runWord score i).resumes _ = _
      rw [Machine.resumes_runWord, Lane.resumes_turn hs (h.channels i), Calls.after]
      show Calls.mk (r.machine.resumes.set i (if r.machine.channels[i].program.operation? score =
        some .call then _ else r.machine.channels[i].program.resumes)) _ = _
      split
      · rfl
      · rw [← Machine.getElem_resumes, Octet.set_getElem_self]
        rfl
    | _ => exact congrArg (Calls.mk · _) (Machine.resumes_apply (by rintro _ ⟨⟩))
  | word i =>
    show Calls.mk (r.machine.grant? score _).resumes (Tracks.resumes (Tracks.step score i _).tracks) = _
    rw [Machine.resumes_grant?, Tracks.resumes_step hs, Calls.after]
    split <;> rfl
  | enter i => exact resumes_enterTrack i r
  | stop i => exact resumes_congr rfl (Tracks.resumes_modify i _ fun _ => rfl)
  | leave =>
    exact resumes_congr (congrArg Prod.fst (sounding_leave r))
      (congrArg Tracks.resumes (tracks_leave r))
  | readStep => exact resumes_readStep r score
  | giveUp => exact resumes_congr (congrArg Prod.fst (sounding_reachEnd r.machine)) rfl
  | render => exact resumes_render r score.bank rate
  | reset multi => exact resumes_reset multi
  | select n => exact resumes_selectSong r score n
  | aim position e =>
    exact resumes_congr (congrArg Prod.fst (sounding_aim r position e))
      (congrArg Tracks.resumes (tracks_aim r position e))
  | reserve i code priority =>
    exact congrArg (Calls.mk · _) (Machine.resumes_setChannel_of_places rfl)
  | begin | countTick | startRow | enable | announce | drain => rfl

end Replay

end PaulaReplay
