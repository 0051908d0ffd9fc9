/-
  Pointers: where the macros and the patterns in hand begin.

  A channel and a track hold the place of their words and another one to go
  back to.  All of these begin where the tables of the tune say, which is what
  keeps them in 16 bits.

  * `Among`: an offset is none, or one of a table;
  * `Channel.places`: the places of a channel, and `Lane.places_execute` which
    words leave them as they are;
  * `Channel.Anchored`, `Track.Anchored` and `Replay.Anchored`: all places are
    those of the tune, and the mode of a voice has three bits;
  * `Replay.Anchored.apply`: all moves keep this.
-/
import PaulaReplay.Proofs.Positions
import PaulaReplay.Proofs.Volume

namespace PaulaReplay

/-! ## Offsets -/

/-- An offset is none, or one of a table. -/
def Among (table : Array UInt32) (o : UInt32) : Prop := o = 0 ∨ o ∈ table

variable {table : Array UInt32} {o : UInt32} {score : Score} {rate : UInt32}

theorem among_zero : Among table 0 := .inl rfl

theorem among_of_getElem? {n : Nat} (h : table[n]? = some o) : Among table o :=
  .inr (Array.mem_of_getElem? h)

theorem Among.onWord (h : Among table o) (htable : ∀ o ∈ table, OnWord o) : OnWord o := by
  rcases h with rfl | h
  · exact ⟨rfl, Nat.zero_le _⟩
  · exact htable o h

theorem OnWord.lt (h : OnWord o) : o.toNat < 2 ^ 16 := Nat.lt_of_le_of_lt h.2 (by decide)

/-- What begins on a word of the music data fits in 16 bits. -/
theorem OnWord.toNat_toUInt16 (h : OnWord o) : o.toUInt16.toNat = o.toNat := by
  rw [UInt32.toNat_toUInt16]
  exact Nat.mod_eq_of_lt h.lt

theorem OnWord.toUInt32_toUInt16 (h : OnWord o) : o.toUInt16.toUInt32 = o := by
  rw [← UInt32.toNat_inj, UInt16.toNat_toUInt32]
  exact h.toNat_toUInt16

theorem OnWord.and_mask (h : OnWord o) : o &&& 0xffff = o := by
  rw [← UInt32.toNat_inj, UInt32.toNat_and]
  exact (Nat.and_two_pow_sub_one_eq_mod o.toNat 16).trans (Nat.mod_eq_of_lt h.lt)

/-! ## Channels -/

/-- Where the words of a channel begin, and where it goes back to. -/
def Channel.places (c : Channel) : UInt32 × UInt16 × UInt16 :=
  (c.program.base, c.program.returnBase, c.program.returnStep)

/-- The macros in hand are those of the tune. -/
structure Channel.Anchored (score : Score) (c : Channel) : Prop where
  base : Among score.macros c.program.base
  returnBase : Among score.macros c.program.returnBase.toUInt32

namespace Channel

variable {c c' : Channel}

theorem Anchored.congr (h : c.Anchored score) (hp : c'.places = c.places) :
    c'.Anchored score := by
  simp only [places, Prod.mk.injEq] at hp
  exact ⟨by rw [hp.1]; exact h.base, by rw [hp.2.1]; exact h.returnBase⟩

theorem anchored_default : Anchored score {} := ⟨among_zero, among_zero⟩

theorem program_countLock (c : Channel) : c.countLock.program = c.program := by
  unfold countLock; split <;> rfl

theorem places_countLock (c : Channel) : c.countLock.places = c.places := by
  rw [places, places, program_countLock]

theorem places_countWait (c : Channel) : c.countWait.1.places = c.places := by
  unfold countWait; split <;> rfl

theorem program_sweepOn (c : Channel) : c.sweepOn.program = c.program := by
  unfold sweepOn; split <;> rfl

theorem program_groundSweep (c : Channel) : c.groundSweep.program = c.program := by
  unfold groundSweep; split <;> rfl

theorem program_sway (c : Channel) : c.sway.program = c.program := by
  unfold sway; split <;> rfl

theorem program_slideOn (c : Channel) : c.slideOn.program = c.program := by
  unfold slideOn
  split
  · rfl
  · simp only; split <;> rfl

theorem program_swell (c : Channel) : c.swell.program = c.program := by
  unfold swell
  split
  · rfl
  · split
    · rfl
    · simp only; split <;> rfl

/-- Changes of the sound are not for the macro to notice. -/
theorem program_bend (c : Channel) : c.bend.program = c.program := by
  rw [bend, program_swell, program_slideOn, program_sway, program_groundSweep, program_sweepOn]

theorem places_bend (c : Channel) : c.bend.places = c.places := by
  rw [places, places, program_bend]

/-- A word that comes to a channel leaves where it goes back to. -/
theorem places_receive (score : Score) (w : Word) (c : Channel) :
    (c.receive score w).places.2 = c.places.2 := by
  unfold receive
  split
  · rfl
  · split
    · rfl
    · split
      · split <;> rfl
      · split
        · rfl
        · unfold setEffect
          split_ifs <;> rfl

theorem Anchored.receive (h : c.Anchored score) (w : Word) : (c.receive score w).Anchored score := by
  have hback := places_receive score w c
  simp only [places, Prod.mk.injEq] at hback
  refine ⟨?_, by rw [hback.1]; exact h.returnBase⟩
  unfold Channel.receive
  split
  · exact h.base
  · split
    · exact h.base
    · split
      · split
        · next base hbase => exact among_of_getElem? hbase
        · exact h.base
      · split
        · exact h.base
        · unfold setEffect
          split_ifs <;> exact h.base

end Channel

/-! ## Words of macros -/

namespace Lane

variable {l : Lane} {w : Word}

theorem places_yield (l : Lane) : l.yield.lane.channel.places = l.channel.places := by
  unfold yield; split <;> rfl

theorem places_switchOff (l : Lane) (w : Word) :
    (l.switchOff w).lane.channel.places = l.channel.places := by
  unfold switchOff; simp only; split <;> rfl

theorem places_switchOn (l : Lane) (dialect : Dialect) (w : Word) :
    (l.switchOn dialect w).channel.places = l.channel.places := by
  unfold switchOn; simp only; split <;> rfl

theorem places_reset (l : Lane) (dialect : Dialect) (w : Word) :
    (l.reset dialect w).channel.places = l.channel.places := by
  unfold reset; simp only; split <;> rfl

theorem places_wait (l : Lane) (w : Word) : (l.wait w).lane.channel.places = l.channel.places := by
  unfold wait
  simp only
  split
  · split
    · rfl
    · exact places_yield _
  · exact places_yield _

theorem places_loop (l : Lane) (w : Word) : (l.loop w).channel.places = l.channel.places := by
  unfold loop; simp only; split <;> rfl

theorem places_waitKeyUp (l : Lane) (w : Word) :
    (l.waitKeyUp w).lane.channel.places = l.channel.places := by
  unfold waitKeyUp; simp only; split_ifs <;> rfl

/-- The operations that go on in another macro, or back in one. -/
def leads : Operation → Bool
  | .call | .jump | .back => true
  | _ => false

theorem places_execute {op : Operation} (hop : leads op = false) :
    (execute score op w l).lane.channel.places = l.channel.places := by
  cases op with
  | call | jump | back => cases hop
  | offReset => exact (places_switchOff _ w).trans (places_reset l score.dialect w)
  | off => exact places_switchOff l w
  | on => exact places_switchOn l score.dialect w
  | wait => exact places_wait l w
  | waitVoice => exact places_yield _
  | previousNote | addNote | setNote => exact places_yield _
  | loop => exact places_loop l w
  | loopKeyDown =>
    rw [execute]
    split
    · exact places_loop l w
    · rfl
  | waitKeyUp => exact places_waitKeyUp l w
  | splitNote | splitVolume | addVolume | setVolume =>
    rw [execute]
    split <;> rfl
  | _ => rfl

/-- Another macro leaves where the channel goes back to. -/
theorem places_jump (l : Lane) (score : Score) (w : Word) :
    (jump l score w).lane.channel.places.2 = l.channel.places.2 := by
  unfold jump; split <;> rfl

theorem anchored_jump (hs : score.LaidOut) (h : l.channel.Anchored score) (w : Word) :
    (jump l score w).lane.channel.Anchored score := by
  unfold jump
  split
  · next base hbase =>
    have hmem := Array.mem_of_getElem? hbase
    refine ⟨?_, h.returnBase⟩
    show Among score.macros (base &&& 0xffff)
    rw [(hs.macros base hmem).and_mask]
    exact .inr hmem
  · exact h.congr rfl

theorem anchored_execute (hs : score.LaidOut) (h : l.channel.Anchored score) (op : Operation) :
    (execute score op w l).lane.channel.Anchored score := by
  cases op with
  | call =>
    -- the place that is remembered fits in its 16 bits
    have hplace := (h.base.onWord hs.macros).toUInt32_toUInt16
    have hmarked : ({ l.channel with
        program.returnBase := l.channel.program.base.toUInt16
        program.returnStep := l.channel.program.step } : Channel).Anchored score :=
      ⟨h.base, hplace.symm ▸ h.base⟩
    exact anchored_jump (l := ⟨_, l.voice⟩) hs hmarked w
  | jump => exact anchored_jump hs h w
  | back => exact ⟨h.returnBase, h.returnBase⟩
  | _ => exact h.congr (places_execute rfl)

theorem anchored_turn (hs : score.LaidOut) (h : l.channel.Anchored score) :
    (l.turn score).lane.channel.Anchored score := by
  unfold turn
  simp only
  split
  · exact h.congr rfl
  · exact anchored_execute hs (by exact h.congr rfl) _

end Lane

/-! ## Voices -/

/-- The mode of a voice has three bits. -/
theorem or_le_seven {a b : UInt8} (ha : a ≤ 7) (hb : b ≤ 7) : a ||| b ≤ 7 := by
  rw [UInt8.le_iff_toNat_le] at ha hb ⊢
  rw [UInt8.toNat_or]
  exact Nat.le_of_lt_succ (Nat.or_lt_two_pow (n := 3) (Nat.lt_succ_of_le ha) (Nat.lt_succ_of_le hb))

namespace Lane

variable {l : Lane} {w : Word}

theorem mode_switchOff (h : l.voice.mode ≤ 7) : (l.switchOff w).lane.voice.mode ≤ 7 := by
  unfold switchOff
  simp only
  split
  · exact or_le_seven h (by decide)
  · exact UInt8.zero_le

theorem mode_execute (h : l.voice.mode ≤ 7) (op : Operation) :
    (execute score op w l).lane.voice.mode ≤ 7 := by
  cases op with
  | off => exact mode_switchOff h
  | offReset => exact mode_switchOff h
  | on =>
    rw [execute, switchOn]
    simp only
    split
    · exact (by decide : (3 : UInt8) ≤ 7)
    · exact (by decide : (1 : UInt8) ≤ 7)
  | waitVoice => exact (congrArg Voice.mode (voice_yield _)).trans_le h
  | _ => exact (congrArg Voice.mode (voice_execute rfl)).trans_le h

theorem mode_turn (h : l.voice.mode ≤ 7) (score : Score) : (l.turn score).lane.voice.mode ≤ 7 := by
  unfold turn
  simp only
  split
  · exact h
  · exact mode_execute (by exact h) _

end Lane

namespace Voice

variable {bank : Bank}

/-- A voice that plays switches itself on and off, and sets no other bit. -/
theorem mode_render {v : Voice} (h : v.mode ≤ 7) (n : Nat) : (v.render bank n).voice.mode ≤ 7 := by
  unfold render
  split
  · have hlatch : v.latch.mode ≤ 7 := by
      unfold latch
      split
      · exact or_le_seven h (by decide)
      · exact h
    have hplay : ∀ r : Rendering, (play bank n r).voice.mode = r.voice.mode := fun r =>
      mode_of_settings (settings_play n r)
    simp only [release]
    split
    · exact UInt8.zero_le
    · rw [hplay]
      exact hlatch
  · exact h

end Voice

/-! ## Machines -/

namespace Machine

variable {m : Machine}

theorem every_anchored_apply (hs : score.LaidOut) (h : m.Every (Channel.Anchored score))
    (mv : Move) : (mv.apply score rate m).Every (Channel.Anchored score) := by
  cases mv with
  | countLock i => exact h.setChannel i ((h i).congr (Channel.places_countLock _))
  | takeEffect i =>
    unfold Move.apply takeEffect
    simp only
    split
    · exact h
    · have htake : (m.onChannel i Channel.takeCode).Every (Channel.Anchored score) :=
        h.setChannel i ((h i).congr rfl)
      exact htake.dispatch _ fun j => (htake j).receive _
  | countWait i => exact h.setChannel i ((h i).congr (Channel.places_countWait _))
  | wake i => exact h.setChannel i ((h i).congr rfl)
  | word i =>
    have hturn := Lane.anchored_turn (l := m.lane i) hs (h i)
    refine h.runWord i hturn fun l w ht j => ?_
    rw [ht] at hturn
    exact (h.setChannel i hturn j).receive w
  | halt i => exact h.setChannel i ((h i).congr rfl)
  | bend i => exact h.bend i (fun _ hc => hc.congr rfl) fun c hc => hc.congr (c.places_bend)
  | load i => exact h

/-- The modes of all voices have three bits. -/
def Modest (m : Machine) : Prop := ∀ i : Slot, m.voices[i].mode ≤ 7

theorem Modest.congr {m' : Machine} (h : m.Modest) (hv : m'.voices = m.voices) : m'.Modest := by
  intro i
  rw [hv]
  exact h i

end Machine

/-! ## Tracks -/

/-- The patterns in hand are those of the tune. -/
structure Track.Anchored (score : Score) (t : Track) : Prop where
  base : Among score.patterns t.base
  returnBase : Among score.patterns t.returnBase

namespace Track

variable {t : Track}

theorem Anchored.loop (h : t.Anchored score) (count : UInt8) (target : UInt16) :
    (t.loop count target).1.Anchored score := by
  unfold Track.loop
  simp only
  split_ifs <;> exact ⟨h.base, h.returnBase⟩

theorem Anchored.jump (h : t.Anchored score) (n : UInt8) (step : UInt16) :
    (t.jump (score.pattern? n) step).Anchored score := by
  unfold Track.jump
  split
  · next base hbase => exact ⟨among_of_getElem? hbase, h.returnBase⟩
  · exact ⟨h.base, h.returnBase⟩

theorem Anchored.play (h : t.Anchored score) (n : UInt8) (transpose : Int8) :
    (t.play n (score.pattern? n) transpose).Anchored score := by
  unfold Track.play
  split
  · next base hbase => exact ⟨among_of_getElem? hbase, h.returnBase⟩
  · exact ⟨h.base, h.returnBase⟩

end Track

namespace Tracks

variable {ts : Tracks} {i : Slot}

/-- Something holds of all tracks. -/
def Every (P : Track → Prop) (ts : Tracks) : Prop := ∀ i : Slot, P ts[i]

variable {P : Track → Prop}

theorem Every.set (h : Every P ts) (i : Slot) {t : Track} (ht : P t) : Every P (ts.set i t) := by
  intro j
  rw [Octet.getElem_set]
  split
  · exact ht
  · exact h j

theorem Every.modify (h : Every P ts) (i : Slot) {f : Track → Track} (hf : ∀ t, P t → P (f t)) :
    Every P (ts.modify i f) := h.set i (hf _ (h i))

/-- What keeps the places of a track keeps it anchored. -/
theorem Every.modify_places (h : Every (Track.Anchored score) ts) (i : Slot) {f : Track → Track}
    (hbase : ∀ t, (f t).base = t.base) (hreturn : ∀ t, (f t).returnBase = t.returnBase) :
    Every (Track.Anchored score) (ts.modify i f) :=
  h.modify i fun t ht => ⟨by rw [hbase]; exact ht.base, by rw [hreturn]; exact ht.returnBase⟩

theorem anchored_obey (h : Every (Track.Anchored score) ts) (c : Pattern.Command) (w : Word) :
    Every (Track.Anchored score) (obey score i c w ts).tracks := by
  cases c with
  | loop => exact h.set i ((h i).loop _ _)
  | jump => exact h.modify i fun t ht => ht.jump _ _
  | call =>
    exact h.modify i fun t ht => Track.Anchored.jump (t := t.mark) ⟨ht.base, ht.base⟩ _ _
  | back => exact h.modify i fun t ht => ⟨ht.returnBase, ht.returnBase⟩
  | play => exact h.modify _ fun t ht => ht.play _ _
  | finish | wait | stop | stopCustom => exact h.modify_places i (fun _ => rfl) fun _ => rfl
  | _ => exact h

theorem anchored_step (h : Every (Track.Anchored score) ts) (i : Slot) :
    Every (Track.Anchored score) (step score i ts).tracks := by
  unfold step
  split
  · exact h.modify_places i (fun _ => rfl) fun _ => rfl
  · have hnext : Every (Track.Anchored score)
        (ts.modify i fun t => { t with step := t.step + 1 }) :=
      h.modify_places i (fun _ => rfl) fun _ => rfl
    unfold execute
    split
    · next kind _ =>
      cases kind with
      | hold => exact hnext.modify_places i (fun _ => rfl) fun _ => rfl
      | plain => exact hnext
      | slide => exact hnext
    · exact anchored_obey hnext _ _

/-- The tracks as a track begins its row. -/
def Entry.tracks : Entry → Tracks
  | .idle ts | .switchesOff ts _ | .runs ts => ts

theorem anchored_enter (h : Every (Track.Anchored score) ts) (i : Slot) :
    Every (Track.Anchored score) (enter i ts).tracks := by
  have hwait : Every (Track.Anchored score) (ts.modify i ({ · with wait := ts[i].wait - 1 })) :=
    h.modify_places i (fun _ => rfl) fun _ => rfl
  unfold enter
  simp only
  split_ifs
  · exact h.modify_places i (fun _ => rfl) fun _ => rfl
  · exact h
  · exact hwait
  · exact hwait

end Tracks

/-! ## Replays -/

namespace Replay

variable {r : Replay}

/-- The macros and the patterns in hand are those of the tune, and the modes of
    the voices have three bits. -/
structure Anchored (score : Score) (r : Replay) : Prop where
  channels : r.machine.Every (Channel.Anchored score)
  modes : r.machine.Modest
  tracks : Tracks.Every (Track.Anchored score) r.tracks

theorem tracks_obey (r : Replay) (c : StepCommand) : (r.obey c).1.tracks = r.tracks :=
  congrArg (·.tracks) (hushed_obey r c)

/-- A track step leaves the tracks, or gives them its patterns. -/
theorem tracks_readStep (r : Replay) (score : Score) :
    (r.readStep score).1.tracks = r.tracks ∨
      ∃ t, (r.readStep score).1.tracks = assignAll score t r.tracks := by
  rw [readStep_eq]
  split
  · exact .inl (tracks_greeted r)
  · next t _ =>
    split
    · exact .inl ((tracks_obey _ _).trans (tracks_greeted r))
    · exact .inr ⟨t, congrArg (assignAll score t) (tracks_greeted r)⟩

theorem anchored_assignAll {ts : Tracks} (h : Tracks.Every (Track.Anchored score) ts)
    (t : TrackStep) : Tracks.Every (Track.Anchored score) (assignAll score t ts) := by
  intro i
  rw [assignAll, Octet.getElem_ofFn]
  unfold assign
  simp only
  split
  · split
    · next base hbase => exact ⟨among_of_getElem? hbase, (h i).returnBase⟩
    · exact ⟨among_zero, (h i).returnBase⟩
  · exact ⟨(h i).base, (h i).returnBase⟩

/-- No track has a pattern before a song starts. -/
theorem tracks_reset (multi : Bool) :
    (initial multi).reset.tracks = Octet.replicate ({} : Track).stop := by
  have hreset : ∀ multi, (initial multi).reset.tracks = Octet.replicate ({} : Track).stop := by
    decide +kernel
  exact hreset multi

theorem anchored_reset (score : Score) (multi : Bool) : (initial multi).reset.Anchored score := by
  have hreset : ∀ multi, ((initial multi).reset.machine.channels,
      (initial multi).reset.machine.voices) = (Octet.replicate (Channel.cleared {}).silenced,
        Octet.replicate (Voice.cleared {}).silenced) := by
    decide +kernel
  have h := hreset multi
  simp only [Prod.mk.injEq] at h
  obtain ⟨hchannels, hvoices⟩ := h
  refine ⟨fun i => ?_, fun i => ?_, fun i => ?_⟩
  · rw [hchannels, Octet.getElem_replicate]
    exact Channel.anchored_default.congr rfl
  · rw [hvoices, Octet.getElem_replicate]
    exact UInt8.zero_le
  · rw [tracks_reset, Octet.getElem_replicate]
    exact ⟨among_zero, among_zero⟩

/-- Where a sub-song is entered, nothing but the song itself changes. -/
theorem tracks_selectSong (r : Replay) (score : Score) (n : Nat) :
    (r.selectSong score n).tracks =
      r.tracks.map fun (t : Track) => { t.stop with base := 0, transpose := 0, step := 0 } := by
  unfold selectSong enterSong
  simp only
  split <;> rfl

theorem tracks_leave (r : Replay) : r.leave.tracks = r.tracks :=
  congrArg (·.tracks) (hushed_leave r)

theorem tracks_aim (r : Replay) (position : Nat) (e : Timeline.Entry) :
    (r.aim position e).tracks = r.tracks := by
  unfold aim
  simp only
  split <;> rfl

theorem tracks_enterTrack (r : Replay) (i : Slot) :
    (r.enterTrack i).tracks = (Tracks.enter i r.tracks).tracks := by
  unfold enterTrack
  cases Tracks.enter i r.tracks <;> rfl

/-- No move sets any other bit of a mode. -/
theorem modest_apply (h : r.machine.Modest) (mv : Move) :
    (mv.apply score rate r).machine.Modest := by
  intro i
  have hafter := voiceAfter_apply score rate r mv i
  generalize (mv.apply score rate r).machine.voices[i] = v at hafter ⊢
  cases hafter with
  | same => exact h i
  | word => exact Lane.mode_turn (h i) score
  | loaded master => exact h i
  | silenced => exact UInt8.zero_le
  | rendered n => exact Voice.mode_render (h i) n
  | reset => exact UInt8.zero_le

/-- What sounds alike, with the same tracks, has the same places. -/
theorem Anchored.of_sounding {s : Replay} (h : r.Anchored score)
    (hm : s.machine.sounding = r.machine.sounding) (ht : s.tracks = r.tracks) :
    s.Anchored score :=
  ⟨h.channels.congr (congrArg Prod.fst hm), h.modes.congr (congrArg (fun s => s.2.1) hm),
    by rw [ht]; exact h.tracks⟩

theorem Anchored.enterTrack (h : r.Anchored score) (i : Slot) :
    (r.enterTrack i).Anchored score := by
  refine ⟨every_enterTrack h.channels (fun _ hc => hc.congr rfl) i, ?_, ?_⟩
  · show ((Move.enter i).apply score 0 r).machine.Modest
    exact modest_apply h.modes _
  · rw [tracks_enterTrack]
    exact Tracks.anchored_enter h.tracks i

theorem Anchored.readStep (h : r.Anchored score) : (r.readStep score).1.Anchored score := by
  refine ⟨h.channels.congr (channels_readStep r score), ?_, ?_⟩
  · rcases sounding_readStep r score with he | ⟨_, _, _, -, -, he⟩ <;>
      exact h.modes.congr (congrArg (fun s => s.2.1) he)
  · rcases tracks_readStep r score with he | ⟨t, he⟩ <;> rw [he]
    · exact h.tracks
    · exact anchored_assignAll h.tracks t

theorem Anchored.selectSong (h : r.Anchored score) (n : Nat) :
    (r.selectSong score n).Anchored score := by
  have hm := sounding_selectSong r score n
  refine ⟨h.channels.congr (congrArg Prod.fst hm), h.modes.congr (congrArg (fun s => s.2.1) hm),
    fun i => ?_⟩
  rw [tracks_selectSong, Octet.getElem_map]
  exact ⟨among_zero, (h.tracks i).returnBase⟩

/-- All moves keep the macros and the patterns in hand those of the tune. -/
theorem Anchored.apply (hs : score.LaidOut) (h : r.Anchored score) (mv : Move) :
    (mv.apply score rate r).Anchored score := by
  cases mv with
  | machine mv => exact ⟨Machine.every_anchored_apply hs h.channels mv, modest_apply h.modes (.machine mv), h.tracks⟩
  | enter i => exact h.enterTrack i
  | word i =>
    exact ⟨every_runWord h.channels i fun w _ _ hc => hc.receive w, modest_apply h.modes (.word i),
      Tracks.anchored_step h.tracks i⟩
  | stop i => exact ⟨h.channels, h.modes, h.tracks.modify_places i (fun _ => rfl) fun _ => rfl⟩
  | leave => exact h.of_sounding (sounding_leave r) (tracks_leave r)
  | readStep => exact h.readStep
  | giveUp => exact h.of_sounding (sounding_reachEnd r.machine) rfl
  | render =>
    exact ⟨every_render h.channels (fun _ hc => hc.congr rfl) _ _,
      modest_apply h.modes .render, h.tracks⟩
  | reset multi => exact anchored_reset score multi
  | select n => exact h.selectSong n
  | aim position e => exact h.of_sounding (sounding_aim r position e) (tracks_aim r position e)
  | reserve i code priority =>
    exact ⟨h.channels.setChannel i ((h.channels i).congr rfl), h.modes, h.tracks⟩
  | begin | countTick | startRow | enable | announce | drain => exact ⟨h.channels, h.modes, h.tracks⟩

end Replay

end PaulaReplay
