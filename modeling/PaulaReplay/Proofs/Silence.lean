/-
  Silence: a voice that is silent stays so until it is switched on.

  * `Voice.Silent`: the voice is switched off, or has run out;
    `Voice.render_of_silent`: it plays nothing;
  * `Lane.switchesOn`, `Replay.switchesOn`: the word that switches a voice on is
    run;
  * `Replay.silent_apply`: no other move ends the silence;
  * `Player.Mute`: what is heard of a silent voice in a tick, and
    `Player.mute_until_switched_on`: that is so for all ticks up to that word.
-/
import PaulaReplay.Proofs.Exactness
import PaulaReplay.Proofs.Positions
import PaulaReplay.Proofs.Voices

namespace PaulaReplay

/-! ## Voices -/

namespace Voice

variable {bank : Bank} {v : Voice}

/-- A voice that is switched off, or that plays and has no region left. -/
def Silent (v : Voice) : Prop := v.mode &&& 1 = 0 ∨ v.mode &&& 3 = 3 ∧ v.length < 4

instance : Decidable v.Silent := inferInstanceAs (Decidable (_ ∨ _))

theorem Silent.not_audible (h : v.Silent) : v.audible bank ≠ true := by
  rw [ne_eq, audible_iff]
  rintro ⟨-, hon, hlimit⟩
  rcases h with hoff | ⟨-, hlength⟩
  · exact hon hoff
  · exact UInt16.not_le.2 hlength (leastLimit_le_limit_iff.1 hlimit)

/-- A silent voice plays nothing, and stays as it is. -/
theorem render_of_silent (h : v.Silent) (n : Nat) : v.render bank n = ⟨v, #[], false⟩ :=
  render_of_not_audible h.not_audible n

theorem Rendering.over_of_empty {r : Rendering} (h : r.frames = #[]) (buffer : Array Int) :
    r.over buffer = buffer := by
  simp only [Rendering.over, h, Array.size_empty, Array.extract_empty, Array.empty_append,
    Array.extract_size]

theorem silent_of_mode (h : v.mode = 0) : v.Silent := .inl (by rw [h]; decide)

end Voice

theorem Mix.rendering_of_silent {bank : Bank} {multi : Bool} {n : Nat} {voices : Octet Voice}
    {i : Slot} (h : voices[i].Silent) :
    (Mix.renderings bank multi n voices)[i] = ⟨voices[i], #[], false⟩ := by
  rw [Mix.renderings, Octet.getElem_ofFn, Voice.render_of_silent h]
  split <;> rfl

/-! ## Words -/

namespace Lane

variable {score : Score} {l : Lane}

/-- The next word of the macro switches the voice on. -/
def switchesOn (score : Score) (l : Lane) : Bool :=
  match score.word? l.channel.program.base l.channel.program.step with
  | some w => w.byte0 == 0x01
  | none => false

theorem ofByte_eq_on {b : UInt8} (h : Operation.ofByte b = .on) : b = 1 := by
  have hbytes : ∀ n < 256, Operation.ofByte (UInt8.ofNat n) = .on → UInt8.ofNat n = 1 := by
    decide +kernel
  rw [← UInt8.ofNat_toNat (x := b)] at h ⊢
  exact hbytes b.toNat b.toNat_lt h

/-- That a voice is to be switched off later says nothing of it now. -/
theorem or_ending (a : UInt8) : (a ||| 4) &&& 1 = a &&& 1 ∧ (a ||| 4) &&& 3 = a &&& 3 := by
  have hbits : ∀ b : BitVec 8, (b ||| 4) &&& 1 = b &&& 1 ∧ (b ||| 4) &&& 3 = b &&& 3 := by
    decide +kernel
  exact (hbits a.toBitVec).imp UInt8.toBitVec_inj.1 UInt8.toBitVec_inj.1

theorem silent_switchOff (h : l.voice.Silent) (w : Word) : (l.switchOff w).lane.voice.Silent := by
  unfold switchOff
  simp only
  split
  · show (l.voice.mode ||| 4) &&& 1 = 0 ∨ (l.voice.mode ||| 4) &&& 3 = 3 ∧ l.voice.length < 4
    rw [(or_ending _).1, (or_ending _).2]
    exact h
  · exact Voice.silent_of_mode rfl

theorem silent_execute (h : l.voice.Silent) {op : Operation} (hop : op ≠ .on) (w : Word) :
    (execute score op w l).lane.voice.Silent := by
  cases op with
  | on => exact absurd rfl hop
  | off => exact silent_switchOff h w
  | offReset =>
    have hreset : (l.reset score.dialect w).voice.Silent := h
    exact silent_switchOff hreset w
  | waitVoice => rw [execute, voice_yield]; exact h
  | _ => rw [voice_execute rfl]; exact h

theorem silent_turn (h : l.voice.Silent) (hon : l.switchesOn score = false) :
    (l.turn score).lane.voice.Silent := by
  unfold switchesOn at hon
  unfold turn
  simp only
  cases hw : score.word? l.channel.program.base l.channel.program.step with
  | none => exact h
  | some w =>
    have hbyte : (w.byte0 == 0x01) = false := by rwa [hw] at hon
    have hl : (l.jumpTo (l.channel.program.step + 1)).voice.Silent := h
    refine silent_execute hl (fun hop => ?_) _
    rw [ofByte_eq_on hop] at hbyte
    cases hbyte

/-- Setting a voice up gives it another region only where it was just switched
    on. -/
theorem silent_load (h : l.voice.Silent) (master : Int8) (rate : UInt32) :
    (l.load master rate).Silent := by
  rcases h with hoff | ⟨hplaying, hlength⟩
  · exact .inl hoff
  · refine .inr ⟨hplaying, ?_⟩
    have hfresh : ¬ l.voice.mode &&& 3 = 1 := by rw [hplaying]; decide
    show (if l.voice.mode &&& 3 = 1 then _ else l.voice.length) < 4
    rw [if_neg hfresh]
    exact hlength

end Lane

/-! ## Moves -/

namespace Replay

variable {score : Score} {rate : UInt32} {r : Replay} {i : Slot}

/-- A move runs the word that switches a voice on. -/
def switchesOn (score : Score) (i : Slot) (r : Replay) : Move → Bool
  | .machine (.word j) => j == i && (r.machine.lane i).switchesOn score
  | _ => false

/-- But for that word, no move ends the silence of a voice. -/
theorem silent_apply (h : r.machine.voices[i].Silent) {mv : Move}
    (hon : r.switchesOn score i mv = false) :
    (mv.apply score rate r).machine.voices[i].Silent := by
  have hafter := voiceAfter_apply score rate r mv i
  generalize (mv.apply score rate r).machine.voices[i] = v at hafter ⊢
  have hlane : (r.machine.lane i).voice.Silent := h
  cases hafter with
  | same => exact h
  | word hmv =>
    subst hmv
    have hword : (r.machine.lane i).switchesOn score = false := by
      simpa only [switchesOn, BEq.rfl, Bool.true_and] using hon
    exact Lane.silent_turn hlane hword
  | loaded master => exact Lane.silent_load hlane master rate
  | silenced => exact Voice.silent_of_mode rfl
  | rendered n =>
    rw [Voice.render_of_silent h]
    exact h
  | reset => exact Voice.silent_of_mode rfl

/-- A voice is not switched on in some moves. -/
abbrev KeepsOff (score : Score) (rate : UInt32) (i : Slot) : List Move → Replay → Prop :=
  Along score rate fun r mv => r.switchesOn score i mv = false

theorem silent_run {ms : List Move} (hms : KeepsOff score rate i ms r)
    (h : r.machine.voices[i].Silent) : (run score rate ms r).machine.voices[i].Silent :=
  hms.run (P := fun r => r.machine.voices[i].Silent) (fun _ _ hr hon => silent_apply hr hon) ms h

end Replay

/-! ## Ticks -/

namespace Player

variable {p q : Player} {i : Slot}

/-- What the mixer makes of the next tick: the sound, the voices after it, and
    which of them have fired. -/
def mixed (q : Player) : Mixer × Octet Voice × Octet Bool :=
  q.mixer.play q.tune.score.bank q.advanced.machine.multi (q.advanced.clock.tick q.rate).1
    q.advanced.machine.voices

theorem tick_mixed (q : Player) : q.tick.mixer = q.mixed.1 ∧ q.tick.replay.machine =
    resume q.mixed.2.2 { q.advanced.machine with voices := q.mixed.2.1 } := ⟨rfl, rfl⟩

/-- What is heard of a voice in a tick, which is nothing. -/
structure Mute (q : Player) (i : Slot) : Prop where
  /-- The voice is silent as the sound is made, and stays as it is. -/
  silent : q.advanced.machine.voices[i].Silent
  same : q.tick.replay.machine.voices[i] = q.advanced.machine.voices[i]
  /-- It leaves all frames that it is given as they are. -/
  untouched : ∀ buffer : Array Int,
    (q.advanced.machine.voices[i].render q.tune.score.bank buffer.size).over buffer = buffer
  /-- Its macro is not told to resume. -/
  unfired : q.mixed.2.2[i] = false
  waits : q.tick.replay.machine.channels[i] = q.advanced.machine.channels[i]
  /-- The output channel that it feeds holds silence. -/
  zeros : ∀ c : Fin 7, source? q.tick.mix.multi c = some i →
    q.tick.mix.channel c = Array.replicate q.tick.mix.size 0

/-- A voice that is silent as the sound of a tick is made is not heard in it. -/
theorem mute_of_silent (h : q.advanced.machine.voices[i].Silent) : q.Mute i := by
  obtain ⟨hmixer, hmachine⟩ := q.tick_mixed
  have hvoice : q.mixed.2.1[i] = q.advanced.machine.voices[i] := by
    rw [mixed, Mixer.play, Octet.getElem_map, Mix.rendering_of_silent h]
  have hunfired : q.mixed.2.2[i] = false := by
    rw [mixed, Mixer.play, Octet.getElem_map, Mix.rendering_of_silent h]
  have hmix : q.tick.mix = (Mix.ofVoices q.tune.score.bank q.advanced.machine.multi
      (q.advanced.clock.tick q.rate).1 q.advanced.machine.voices).1 := by
    rw [mix, hmixer, mixed, Mixer.play_eq]
  refine ⟨h, ?_, fun buffer => ?_, hunfired, ?_, fun c hc => ?_⟩
  · rw [hmachine]
    exact hvoice
  · rw [Voice.render_of_silent h]
    exact Voice.Rendering.over_of_empty rfl buffer
  · rw [hmachine, resume]
    simp only [Octet.getElem_ofFn, hunfired, Bool.false_eq_true, if_false]
  · rw [hmix] at hc ⊢
    have hsource : source? q.advanced.machine.multi c = some i := hc
    rw [Mix.channel_of_source hsource, Mix.channelOf, Voice.render_of_silent h,
      Voice.Rendering.over_of_empty rfl, Array.map_replicate]
    rfl

/-- The last move of some ticks makes the sound of the last tick, and the moves
    before it lead up to that. -/
theorem exists_ticksMoves (p : Player) (n : Nat) : ∃ ms,
    p.ticksMoves (n + 1) = ms ++ [.render] ∧ p.run ms = (tick^[n] p).advanced := by
  have htune : (tick^[n] p).tune = p.tune := iterate_tune p n
  have hrate : (tick^[n] p).rate = p.rate := iterate_rate p n
  refine ⟨p.ticksMoves n ++
    Replay.advanceMoves p.tune.score p.rate (tick^[n] p).replay, ?_, ?_⟩
  · rw [ticksMoves_add, ticksMoves, ticksMoves, List.append_nil, tickMoves, Replay.tickMoves, htune,
      hrate, List.append_assoc]
  · rw [run, Replay.run_append, ← run, run_ticksMoves, Replay.run_advanceMoves, advanced, htune,
      hrate]

/-- Once a voice is silent, wherever in a tick that is, it stays silent for as
    long as no word of its macro switches it on: in each tick that ends without
    such a word nothing is heard of it. -/
theorem mute_until_switched_on (n : Nat) {before after : List Replay.Move}
    (hmoves : p.ticksMoves (n + 1) = before ++ after) (hafter : after ≠ [])
    (hsilent : (p.run before).machine.voices[i].Silent)
    (hoff : Replay.KeepsOff p.tune.score p.rate i after (p.run before)) : (tick^[n] p).Mute i := by
  obtain ⟨ms, hms, hadvanced⟩ := exists_ticksMoves p n
  obtain ⟨rest, mv, rfl⟩ := (List.eq_nil_or_concat' after).resolve_left hafter
  -- the sound of the last tick is made after all other moves
  have hrest : ms = before ++ rest := by
    rw [hms, ← List.append_assoc] at hmoves
    exact (List.append_inj' hmoves rfl).1
  obtain ⟨hoff, -⟩ := Replay.Along.of_append rest hoff
  have hend : (p.run (before ++ rest)).machine.voices[i].Silent := by
    rw [run, Replay.run_append]
    exact Replay.silent_run hoff hsilent
  rw [← hrest, hadvanced] at hend
  exact mute_of_silent hend

/-- A tune of one note, whose voice is switched off in the tick after.  Then
    its volume and its region are set and it is waited for, in that same tick,
    and only what comes after that would switch it on again. -/
def shortNoteTune : ByteArray :=
  songTune 0 1 [0 :: List.replicate 7 0xff00] [[0x0c001000, 0xf3ff0000]]
    [[0x03000008, 0x0e000040, 0x01000000, 0x08000000, 0x13000000, 0x0e000020, 0x03000010,
      0x1a000001, 0x01000000, 0x07000000]]

/-- The samples of its note. -/
def shortNote : ByteArray := ⟨Array.replicate 32 0x40⟩

theorem mute_shortNoteTune : ∃ tune p, load shortNoteTune (some shortNote) = .ok tune ∧
    Player.new tune minRate = .ok p ∧
      let before := (p.ticksMoves 4).take 68
      let after := (p.ticksMoves 4).drop 68
      ¬(tick^[2] p).replay.machine.voices[(0 : Slot)].Silent ∧
      (p.run before).machine.voices[(0 : Slot)].Silent ∧
      Replay.KeepsOff p.tune.score p.rate 0 after (p.run before) ∧ (tick^[3] p).Mute 0 := by
  have h : ((load shortNoteTune (some shortNote)).toOption.bind fun tune =>
      (Player.new tune minRate).toOption.map fun p =>
        let before := (p.ticksMoves 4).take 68
        let after := (p.ticksMoves 4).drop 68
        (decide (after = []), decide (tick^[2] p).replay.machine.voices[(0 : Slot)].Silent,
          decide (p.run before).machine.voices[(0 : Slot)].Silent,
          decide (Replay.KeepsOff p.tune.score p.rate 0 after (p.run before)))) =
        some (false, false, true, true) := by decide +kernel
  obtain ⟨tune, p, hload, hnew, h⟩ := exists_new h
  simp only [Prod.mk.injEq, decide_eq_true_eq, decide_eq_false_iff_not] at h
  obtain ⟨hafter, hsounds, hsilent, hoff⟩ := h
  have hmoves : p.ticksMoves (3 + 1) = (p.ticksMoves 4).take 68 ++ (p.ticksMoves 4).drop 68 :=
    (List.take_append_drop 68 _).symm
  exact ⟨tune, p, hload, hnew, hsounds, hsilent, hoff,
    mute_until_switched_on 3 hmoves hafter hsilent hoff⟩

end Player

end PaulaReplay
