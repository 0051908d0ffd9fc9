/-
  Volume: what keeps the volumes of channels and voices within 0 and 0x40.

  Words set volumes to any byte, and envelopes and fades go on to any target,
  so volumes are not bounded by themselves.  They are where the words that are
  met ask for nothing above the full volume.

  * `Replay.moderate`: a move asks for nothing above the full volume;
  * `Channel.Tame`, `Fade.Tame`, `Machine.Tame`: volumes that are bounded, and
    that no envelope and no fade in hand takes further;
  * `Machine.Tame.apply`, `Replay.Tame.apply`: moderate moves keep them;
  * `Player.start_volumes_bounded`: so volumes are bounded from the start of a
    song on, for as long as all moves are moderate.
-/
import PaulaReplay.Proofs.Playback
import PaulaReplay.Proofs.Ranges
import PaulaReplay.Proofs.Rendering
import PaulaReplay.Proofs.Voices

namespace PaulaReplay

/-! ## Moderate words -/

/-- An envelope that keeps a volume within 0 and 0x40: on its way up a step
    does not pass the greatest number that a volume can hold. -/
def moderateEnvelope (rate target : UInt8) : Bool :=
  target ≤ 0x40 && (target == 0 || target.toNat + rate.toNat ≤ 128)

/-- A fade to a volume within 0 and 0x40.  One to the volume that there is
    would run away from it, unless it is set at once. -/
def Fade.moderate (f : Fade) (speed target : Int8) : Bool :=
  0 ≤ target && target ≤ 0x40 && (speed == 0 || f.volume == speed || target != f.volume)

/-- A word that comes to a channel asks for no volume above the full one. -/
def Word.moderate (w : Word) : Bool := w.byte0 != 0xf7 || moderateEnvelope w.byte1 w.byte3

/-- A word of a macro asks for no volume above the full one. -/
def Lane.moderateWord (dialect : Dialect) (op : Operation) (w : Word) (l : Lane) : Bool :=
  match op with
  | .offReset =>
    !dialect.offSetsVolume ||
      (if w.byte2 ≠ 0 then w.byte3 else w.byte3 + l.channel.pitch.velocity * 3) ≤ 0x40
  | .addVolume =>
    w.byte2 == 0xfe || (l.channel.pitch.velocity.toNat * 3 + w.byte3.toNat) % 256 ≤ 127
  | .setVolume => w.byte2 == 0xfe || w.byte3 ≤ 0x40
  | .envelope => moderateEnvelope w.byte1 w.byte3
  | _ => true

/-- The next word of a macro asks for no volume above the full one. -/
def Lane.moderate (score : Score) (l : Lane) : Bool :=
  match score.word? l.channel.program.base l.channel.program.step with
  | none => true
  | some w => l.moderateWord score.dialect (Operation.ofByte w.byte0) (w.withByte0 0)

/-- A move asks for no volume above the full one. -/
def Replay.moderate (score : Score) (r : Replay) : Replay.Move → Bool
  | .machine (.takeEffect i) => Word.moderate ⟨r.machine.channels[i].reservation.code⟩
  | .machine (.word i) => (r.machine.lane i).moderate score
  | .word i =>
    match (Tracks.step score i r.tracks).request with
    | some (.dispatch w) => w.moderate
    | some (.fade speed target) => r.machine.master.fade.moderate speed target
    | _ => true
  | .readStep =>
    match (score.trackStep? r.place.current).bind TrackStep.command? with
    | some (.fade speed target) =>
      r.machine.master.fade.moderate speed.toUInt8.toInt8 target.toUInt8.toInt8
    | _ => true
  | _ => true

/-! ## Volumes -/

/-- A volume within 0 and 0x40. -/
def Level (v : Int8) : Prop := 0 ≤ v.toInt ∧ v.toInt ≤ 64

theorem toInt_of_le {b : UInt8} (h : b.toNat ≤ 127) : b.toInt8.toInt = b.toNat := by
  show b.toBitVec.toInt = _
  rw [BitVec.toInt_eq_toNat_of_lt]
  · rfl
  · rw [UInt8.toNat_toBitVec]
    omega

theorem level_toInt8_iff (b : UInt8) : Level b.toInt8 ↔ b ≤ 0x40 := by
  rw [UInt8.le_iff_toNat_le]
  show Level b.toInt8 ↔ b.toNat ≤ 64
  rcases Nat.lt_or_ge b.toNat 128 with hlt | hge
  · rw [Level, toInt_of_le (by omega)]
    omega
  · have hneg : b.toInt8.toInt < 0 := by
      show b.toBitVec.toInt < 0
      rw [BitVec.toInt_neg_iff, UInt8.toNat_toBitVec]
      omega
    exact iff_of_false (fun h => by have := h.1; omega) (by omega)

theorem level_of_le {b : UInt8} (h : b ≤ 0x40) : Level b.toInt8 := (level_toInt8_iff b).2 h

theorem level_zero : Level 0 := ⟨by decide, by decide⟩

theorem level_full : Level 0x40 := ⟨by decide, by decide⟩

theorem toInt_add_of_le {a b : Int8} (hlo : -128 ≤ a.toInt + b.toInt)
    (hhi : a.toInt + b.toInt ≤ 127) : (a + b).toInt = a.toInt + b.toInt := by
  rw [Int8.toInt_add]
  exact Int.bmod_eq_of_le (by omega) (by omega)

theorem toInt_sub_of_le {a b : Int8} (hlo : -128 ≤ a.toInt - b.toInt)
    (hhi : a.toInt - b.toInt ≤ 127) : (a - b).toInt = a.toInt - b.toInt := by
  rw [Int8.toInt_sub]
  exact Int.bmod_eq_of_le (by omega) (by omega)

/-- The volume of a velocity is bounded just where it is not negative. -/
theorem level_velocityVolume_iff (velocity add : UInt8) :
    Level (Lane.velocityVolume velocity add) ↔ (velocity.toNat * 3 + add.toNat) % 256 ≤ 127 := by
  have hv : (Int8.ofInt (velocity.toNat * 3 + add.toNat)).toInt =
      ((velocity.toNat * 3 + add.toNat : Nat) : Int).bmod 256 := by
    rw [Int8.toInt_ofInt]
    rfl
  unfold Lane.velocityVolume
  simp only
  split
  · next hlt =>
    have hlt : (64 : Int) < (Int8.ofInt (velocity.toNat * 3 + add.toNat)).toInt :=
      Int8.lt_iff_toInt_lt.1 hlt
    rw [hv, Int.bmod_def] at hlt
    refine iff_of_true level_full ?_
    split_ifs at hlt <;> omega
  · next hlt =>
    have hlt : ¬ (64 : Int) < (Int8.ofInt (velocity.toNat * 3 + add.toNat)).toInt :=
      fun h => hlt (Int8.lt_iff_toInt_lt.2 h)
    rw [Level, hv]
    rw [hv] at hlt
    rw [Int.bmod_def] at hlt ⊢
    split_ifs at hlt ⊢ <;> omega

/-- The volume of a voice is bounded where those that it is made of are. -/
theorem voiceVolume_le {volume master : Int8} (hv : Level volume) (hm : Level master) :
    voiceVolume volume master ≤ 0x40 := by
  have hp : volume.toInt * master.toInt ≤ 64 * 64 := Int.mul_le_mul hv.2 hm.2 hm.1 (by decide)
  have h0 : 0 ≤ volume.toInt * master.toInt := Int.mul_nonneg hv.1 hm.1
  rw [UInt8.le_iff_toNat_le, voiceVolume, Int.shiftRight_eq_div_pow, UInt8.ofInt,
    UInt8.toNat_ofNat']
  show _ ≤ 64
  omega

/-! ## The master volume -/

/-- A master volume that is bounded, and that a slide in hand takes no further
    than its target. -/
structure Fade.Tame (f : Fade) : Prop where
  volume : Level f.volume
  slope : f.slope = 0 ∨ f.slope = -1 ∧ 0 ≤ f.target.toInt ∧ f.target.toInt < f.volume.toInt ∨
    f.slope = 1 ∧ f.target.toInt ≤ 64 ∧ f.volume.toInt < f.target.toInt

namespace Fade

variable {f : Fade}

theorem tame_still {f : Fade} (h : Level f.volume) (h0 : f.slope = 0) : f.Tame := ⟨h, .inl h0⟩

theorem Tame.start (h : f.Tame) {speed target : Int8} (hm : f.moderate speed target = true) :
    (f.start speed target).Tame := by
  simp only [moderate, Bool.and_eq_true, Bool.or_eq_true, decide_eq_true_eq, beq_iff_eq,
    bne_iff_ne] at hm
  obtain ⟨⟨h0, h64⟩, hspeed⟩ := hm
  have htarget : Level target := ⟨Int8.le_iff_toInt_le.1 h0, Int8.le_iff_toInt_le.1 h64⟩
  unfold Fade.start
  simp only
  split
  · exact tame_still htarget rfl
  · next hslow =>
    have hne : target.toInt ≠ f.volume.toInt := fun he =>
      (hspeed.resolve_left hslow) (Int8.toInt_inj.1 he)
    refine ⟨h.volume, .inr ?_⟩
    split
    · next hgt => exact .inl ⟨rfl, htarget.1, Int8.lt_iff_toInt_lt.1 hgt⟩
    · next hgt =>
      have hgt : ¬ target.toInt < f.volume.toInt := fun hlt => hgt (Int8.lt_iff_toInt_lt.2 hlt)
      exact .inr ⟨rfl, htarget.2, by simp only; omega⟩

/-- A step of a slide brings the volume nearer to its target. -/
theorem Tame.advance (h : f.Tame) : f.advance.Tame := by
  have hv := h.volume
  unfold Fade.advance
  split
  · exact h
  · next h0 =>
    simp only
    split
    · exact ⟨hv, h.slope⟩
    · -- the volume moves by one towards the target, and stands still there
      have hstep : ∀ v : Int8, v = f.volume + f.slope → Level v ∧
          (f.target = v ∨ f.slope = -1 ∧ 0 ≤ f.target.toInt ∧ f.target.toInt < v.toInt ∨
            f.slope = 1 ∧ f.target.toInt ≤ 64 ∧ v.toInt < f.target.toInt) := by
        rintro v rfl
        obtain ⟨hlo, hhi⟩ := hv
        rcases h.slope with hs | ⟨hs, ht, hlt⟩ | ⟨hs, ht, hlt⟩
        · exact absurd hs h0
        · have hadd : (f.volume + f.slope).toInt = f.volume.toInt - 1 := by
            rw [toInt_add_of_le] <;> rw [hs] <;> simp <;> omega
          refine ⟨⟨by omega, by omega⟩, ?_⟩
          by_cases he : f.target.toInt = (f.volume + f.slope).toInt
          · exact .inl (Int8.toInt_inj.1 he)
          · exact .inr (.inl ⟨hs, ht, by omega⟩)
        · have hadd : (f.volume + f.slope).toInt = f.volume.toInt + 1 := by
            rw [toInt_add_of_le] <;> rw [hs] <;> simp <;> omega
          refine ⟨⟨by omega, by omega⟩, ?_⟩
          by_cases he : f.target.toInt = (f.volume + f.slope).toInt
          · exact .inl (Int8.toInt_inj.1 he)
          · exact .inr (.inr ⟨hs, ht, by omega⟩)
      obtain ⟨hlevel, htarget⟩ := hstep _ rfl
      split
      · exact tame_still hlevel rfl
      · next hne => exact ⟨hlevel, .inr (htarget.resolve_left hne)⟩

end Fade

/-! ## Channels -/

/-- A volume that is bounded, and that the envelope in hand takes no further
    than its target. -/
structure Channel.Tame (c : Channel) : Prop where
  volume : Level c.volume
  target : Level c.envelope.target
  rate : c.envelope.target = 0 ∨ c.envelope.target.toInt + c.envelope.rate.toNat ≤ 128

namespace Channel

variable {c c' : Channel} {score : Score}

theorem Tame.congr (h : c.Tame) (he : c'.loudness = c.loudness) : c'.Tame := by
  simp only [loudness, Prod.mk.injEq] at he
  obtain ⟨hv, hr, ht⟩ := he
  exact ⟨by rw [hv]; exact h.volume, by rw [ht]; exact h.target, by rw [ht, hr]; exact h.rate⟩

theorem Tame.withVolume (h : c.Tame) {v : Int8} (hv : Level v) : Tame { c with volume := v } :=
  ⟨hv, h.target, h.rate⟩

theorem Tame.withEnvelope (h : c.Tame) {rate target : UInt8}
    (hm : moderateEnvelope rate target = true) (reset time : UInt8) :
    Tame { c with envelope := { rate, reset, time, target := target.toInt8 } } := by
  simp only [moderateEnvelope, Bool.and_eq_true, Bool.or_eq_true, decide_eq_true_eq,
    beq_iff_eq] at hm
  obtain ⟨hle, hrate⟩ := hm
  refine ⟨h.volume, level_of_le hle, hrate.imp (fun h0 => by simp only [h0]; rfl) fun hsum => ?_⟩
  have hle : target.toNat ≤ 64 := UInt8.le_iff_toNat_le.1 hle
  simp only [toInt_of_le (b := target) (by omega)]
  omega

/-- A step of an envelope that goes on keeps the volume bounded. -/
theorem level_swellStep {volume target v : Int8} {rate : UInt8} (hv : Level volume)
    (ht : Level target) (hr : target = 0 ∨ target.toInt + rate.toNat ≤ 128)
    (hs : swellStep volume target rate = (v, false)) : Level v := by
  obtain ⟨hv0, hv64⟩ := hv
  unfold swellStep at hs
  split at hs
  · -- down: a step that is longer than the volume ends the envelope
    simp only [Prod.mk.injEq, Bool.or_eq_false_iff, decide_eq_false_iff_not] at hs
    obtain ⟨hv, hlow, -⟩ := hs
    rw [if_neg hlow] at hv
    have hrate := toInt_of_le (b := rate) (by omega)
    rw [Level, ← hv, toInt_sub_of_le] <;> omega
  · split at hs
    · -- up: the target is not zero, and no step passes the greatest number
      next hlt =>
      simp only [Prod.mk.injEq, decide_eq_false_iff_not] at hs
      obtain ⟨rfl, hpast⟩ := hs
      have hlt : volume.toInt < target.toInt := Int8.lt_iff_toInt_lt.1 hlt
      have hne : target ≠ 0 := by
        rintro rfl
        rw [show (0 : Int8).toInt = 0 from rfl] at hlt
        omega
      have hsum := hr.resolve_left hne
      have hrate := toInt_of_le (b := rate) (by omega)
      have hpast : ¬ target.toInt < (volume + rate.toInt8).toInt :=
        fun h => hpast (Int8.lt_iff_toInt_lt.2 h)
      have hle := ht.2
      rw [toInt_add_of_le (by omega) (by omega)] at hpast
      rw [Level, toInt_add_of_le] <;> omega
    · simp only [Prod.mk.injEq, and_true] at hs
      rw [← hs]
      exact ⟨hv0, hv64⟩

theorem Tame.swell (h : c.Tame) : c.swell.Tame := by
  unfold Channel.swell
  split
  · exact h
  · split
    · exact h.congr rfl
    · rcases hs : swellStep c.volume c.envelope.target c.envelope.rate with ⟨v, _ | _⟩
      · exact (h.withVolume (level_swellStep h.volume h.target h.rate hs)).congr rfl
      · exact (h.withVolume h.target).congr rfl

theorem Tame.bend (h : c.Tame) : c.bend.Tame :=
  (h.congr (loudness_of_kept (kept_bent c))).swell

/-- A channel stays tame when a moderate word comes to it. -/
theorem Tame.receive (h : c.Tame) {w : Word} (hw : w.moderate = true) :
    (c.receive score w).Tame := by
  simp only [Word.moderate, Bool.or_eq_true, bne_iff_ne] at hw
  unfold Channel.receive
  split
  · exact h.congr rfl
  · split
    · exact h
    · split
      · split <;> exact h.congr rfl
      · split
        · exact h.congr rfl
        · unfold setEffect
          split
          · next h7 => exact h.withEnvelope (hw.resolve_left fun hne => hne h7) _ _
          · split_ifs <;> exact h.congr rfl

end Channel

/-! ## Words of macros -/

/-- The word that is dispatched, if any. -/
def Outcome.word? : Outcome → Option Word
  | .starts _ w => some w
  | _ => none

namespace Lane

variable {l : Lane} {score : Score} {w : Word}

theorem tame_reset (h : l.channel.Tame) {dialect : Dialect}
    (hm : l.moderateWord dialect .offReset w = true) : (l.reset dialect w).channel.Tame := by
  simp only [moderateWord, Bool.or_eq_true, Bool.not_eq_true', decide_eq_true_eq] at hm
  unfold reset
  simp only
  split
  · next hd =>
    have hle := hm.resolve_left (by rw [hd]; decide)
    refine (h.withVolume (v := if w.byte2 ≠ 0 then w.byte3.toInt8
      else (w.byte3 + l.channel.pitch.velocity * 3).toInt8) ?_).congr rfl
    split at hle
    · next hne => rw [if_pos hne]; exact level_of_le hle
    · next hne => rw [if_neg hne]; exact level_of_le hle
  · exact h.congr rfl

/-- A channel stays tame in a moderate word of its macro. -/
theorem tame_execute (h : l.channel.Tame) (op : Operation)
    (hm : l.moderateWord score.dialect op w = true) :
    (execute score op w l).lane.channel.Tame := by
  cases op with
  | offReset => exact (tame_reset h hm).congr (Channel.loudness_of_kept (kept_switchOff _ w))
  | addVolume =>
    simp only [moderateWord, Bool.or_eq_true, beq_iff_eq, decide_eq_true_eq] at hm
    rw [execute]
    split
    · next hne => exact h.withVolume ((level_velocityVolume_iff _ _).2 (hm.resolve_left hne))
    · exact h
  | setVolume =>
    simp only [moderateWord, Bool.or_eq_true, beq_iff_eq, decide_eq_true_eq] at hm
    rw [execute]
    split
    · next hne => exact h.withVolume (level_of_le (hm.resolve_left hne))
    · exact h
  | envelope => exact h.withEnvelope hm _ _
  | _ => exact h.congr (loudness_execute rfl)

/-- Words that set the volume at once are moderate just where they leave it
    bounded. -/
theorem level_execute_iff (h : Level l.channel.volume) {op : Operation}
    (hop : op = .setVolume ∨ op = .addVolume) :
    Level (execute score op w l).lane.channel.volume ↔
      l.moderateWord score.dialect op w = true := by
  rcases hop with rfl | rfl
  · rw [execute]
    simp only [moderateWord, Bool.or_eq_true, beq_iff_eq, decide_eq_true_eq]
    split
    · next hne => simp only [Outcome.lane, level_toInt8_iff, hne, false_or]
    · next he => exact iff_of_true h (.inl (not_not.1 he))
  · rw [execute]
    simp only [moderateWord, Bool.or_eq_true, beq_iff_eq, decide_eq_true_eq]
    split
    · next hne => simp only [Outcome.lane, level_velocityVolume_iff, hne, false_or]
    · next he => exact iff_of_true h (.inl (not_not.1 he))

theorem tame_turn (h : l.channel.Tame) (hm : l.moderate score = true) :
    (l.turn score).lane.channel.Tame := by
  unfold moderate at hm
  unfold turn
  simp only
  split
  · exact h.congr rfl
  · next w hw =>
    rw [hw] at hm
    exact tame_execute (by exact h.congr rfl) _ hm

theorem word?_yield (l : Lane) : l.yield.word? = none := by
  unfold yield; split <;> rfl

theorem word?_switchOff (l : Lane) (w : Word) : (l.switchOff w).word? = none := by
  unfold switchOff; simp only; split <;> rfl

theorem word?_wait (l : Lane) (w : Word) : (l.wait w).word? = none := by
  unfold wait
  simp only
  split
  · split
    · rfl
    · exact word?_yield _
  · exact word?_yield _

theorem word?_waitKeyUp (l : Lane) (w : Word) : (l.waitKeyUp w).word? = none := by
  unfold waitKeyUp; simp only; split_ifs <;> rfl

theorem word?_jump (l : Lane) (score : Score) (w : Word) : (l.jump score w).word? = none := by
  unfold jump; split <;> rfl

/-- Nothing is dispatched but the word that starts a macro. -/
theorem word?_execute {op : Operation} (h : op ≠ .start) :
    (execute score op w l).word? = none := by
  cases op with
  | start => exact absurd rfl h
  | off => exact word?_switchOff l w
  | offReset => exact word?_switchOff _ w
  | wait => exact word?_wait l w
  | waitVoice => exact word?_yield _
  | previousNote | addNote | setNote => exact word?_yield _
  | waitKeyUp => exact word?_waitKeyUp l w
  | call => exact word?_jump _ score w
  | jump => exact word?_jump l score w
  | _ => rfl

/-- What a macro dispatches is made of a word that starts a macro. -/
theorem exists_word_of_starts {l' : Lane} (h : l.turn score = .starts l' w) :
    ∃ x, score.word? l.channel.program.base l.channel.program.step = some x ∧
      Operation.ofByte x.byte0 = .start ∧ w = l.startWord (x.withByte0 0) := by
  unfold turn at h
  simp only at h
  split at h
  · cases h
  · next x hx =>
    by_cases hop : Operation.ofByte x.byte0 = .start
    · rw [hop] at h
      cases h
      exact ⟨x, hx, hop, rfl⟩
    · have hnone := congrArg Outcome.word? h
      rw [word?_execute hop] at hnone
      cases hnone

/-- It carries the note of its channel. -/
theorem byte0_of_starts {l' : Lane} (h : l.turn score = .starts l' w) :
    w.byte0 = l.channel.pitch.note := by
  obtain ⟨x, -, -, rfl⟩ := exists_word_of_starts h
  rw [startWord, Word.byte0_withByte2, Word.byte0_withByte0]

theorem voiceVolume_switchOff (l : Lane) (w : Word) :
    (l.switchOff w).lane.voice.volume = l.voice.volume := by
  unfold switchOff; simp only; split <;> rfl

theorem voiceVolume_execute (op : Operation) :
    (execute score op w l).lane.voice.volume = l.voice.volume := by
  cases op with
  | off => exact voiceVolume_switchOff l w
  | offReset => exact voiceVolume_switchOff _ w
  | on =>
    rw [execute, switchOn]
    simp only
    split <;> rfl
  | waitVoice => rw [execute, voice_yield]
  | _ => exact congrArg Voice.volume (voice_execute rfl)

/-- A word of a macro leaves the volume of the voice as it is. -/
theorem voiceVolume_turn (l : Lane) (score : Score) :
    (l.turn score).lane.voice.volume = l.voice.volume := by
  unfold turn
  simp only
  split
  · rfl
  · exact voiceVolume_execute _

end Lane

/-! ## Voices -/

namespace Voice

variable {bank : Bank}

/-- A voice keeps its volume as it plays. -/
theorem volume_render (n : Nat) (v : Voice) : (v.render bank n).voice.volume = v.volume := by
  unfold render
  split
  · have hlatch : v.latch.volume = v.volume := by unfold latch; split <;> rfl
    have hrelease : ∀ v : Voice, v.release.volume = v.volume := fun v => by
      unfold release; split <;> rfl
    have hplay : ∀ r : Rendering, (play bank n r).voice.volume = r.voice.volume := fun r =>
      volume_of_settings (settings_play n r)
    exact (hrelease _).trans ((hplay _).trans hlatch)
  · rfl

end Voice

/-! ## Machines -/

/-- A machine whose volumes are bounded, and stay so until a move asks for
    more. -/
structure Machine.Tame (m : Machine) : Prop where
  channels : m.Every Channel.Tame
  ranged : m.Every Channel.Ranged
  fade : m.master.fade.Tame
  voices : ∀ i : Slot, m.voices[i].volume ≤ 0x40

namespace Machine

variable {m m' : Machine} {score : Score} {rate : UInt32}

theorem volume_setVoice (h : ∀ j : Slot, m.voices[j].volume ≤ 0x40) (i : Slot) {v : Voice}
    (hv : v.volume ≤ 0x40) (j : Slot) : (m.setVoice i v).voices[j].volume ≤ 0x40 := by
  show (m.voices.set i v)[j].volume ≤ 0x40
  rw [Octet.getElem_set]
  split
  · exact hv
  · exact h j

theorem Tame.congr (h : m.Tame) (hs : m'.sounding = m.sounding) : m'.Tame := by
  simp only [sounding, Prod.mk.injEq] at hs
  obtain ⟨hc, hv, hf⟩ := hs
  exact ⟨h.channels.congr hc, h.ranged.congr hc, by rw [hf]; exact h.fade,
    by rw [hv]; exact h.voices⟩

/-- A channel of a tame machine is replaced by one that is tame and in its
    ranges. -/
theorem Tame.setChannel (h : m.Tame) (i : Slot) {c : Channel} (hc : c.Tame) (hr : c.Ranged) :
    (m.setChannel i c).Tame :=
  ⟨h.channels.setChannel i hc, h.ranged.setChannel i hr, h.fade, h.voices⟩

theorem Tame.setVoice (h : m.Tame) (i : Slot) {v : Voice} (hv : v.volume ≤ 0x40) :
    (m.setVoice i v).Tame :=
  ⟨h.channels, h.ranged, h.fade, volume_setVoice h.voices i hv⟩

theorem Tame.dispatch (h : m.Tame) {w : Word} (hw : w.moderate = true) :
    (m.dispatch score w).Tame :=
  h.setChannel _ ((h.channels _).receive hw) ((h.ranged _).receive w)

/-- A moderate word of a macro keeps a machine tame: what it dispatches is a
    note, as the note of its channel is one. -/
theorem Tame.runWord (h : m.Tame) (i : Slot) (hm : (m.lane i).moderate score = true) :
    (m.runWord score i).Tame := by
  have hturn := Lane.tame_turn (l := m.lane i) (h.channels i) hm
  have hranged := Lane.ranged_turn (l := m.lane i) (h.ranged i) score
  have hvoice : ((m.lane i).turn score).lane.voice.volume ≤ 0x40 := by
    rw [Lane.voiceVolume_turn]
    exact h.voices i
  have hlane := (h.setChannel i hturn hranged).setVoice i hvoice
  unfold Machine.runWord
  cases ht : (m.lane i).turn score with
  | goesOn l => rw [ht] at hlane; exact hlane
  | rests l => rw [ht] at hlane; exact hlane
  | cues l slot value => rw [ht] at hlane; exact hlane.congr rfl
  | starts l w =>
    rw [ht] at hlane
    refine hlane.dispatch ?_
    have hnote : w.byte0 < 0xc0 := by
      rw [Lane.byte0_of_starts ht]
      exact (h.ranged i).note
    simp only [Word.moderate, Bool.or_eq_true, bne_iff_ne]
    exact .inl fun h7 => absurd hnote (by rw [h7]; decide)

theorem Tame.silence (h : m.Tame) (i : Slot) :
    (m.setLane i ⟨m.channels[i].silenced, m.voices[i].silenced⟩).Tame := by
  have hchannel : m.channels[i].silenced.Tame :=
    ⟨level_zero, (h.channels i).target, (h.channels i).rate⟩
  have hvoice : m.voices[i].silenced.volume ≤ 0x40 := UInt8.zero_le
  exact (h.setChannel i hchannel ((h.ranged i).congr rfl)).setVoice i hvoice

theorem Tame.channelOff (h : m.Tame) (n : Nat) : (m.channelOff n).Tame := by
  unfold Machine.channelOff
  split
  · simp only
    split
    · exact h.silence _
    · exact h
  · exact h

theorem Tame.bend (h : m.Tame) (i : Slot) : (m.bend i).Tame := by
  unfold Machine.bend
  simp only
  split_ifs
  · exact h
  · exact h.setChannel i ((h.channels i).congr rfl) ((h.ranged i).congr rfl)
  · have hb := h.setChannel i (h.channels i).bend (h.ranged i).bend
    exact ⟨hb.channels, hb.ranged, h.fade.advance, hb.voices⟩

/-- Moderate moves of channels keep a machine tame. -/
theorem Tame.apply (h : m.Tame) (mv : Move) {r : Replay} (hr : r.machine = m)
    (hm : r.moderate score (.machine mv) = true) : (mv.apply score rate m).Tame := by
  subst hr
  cases mv with
  | countLock i =>
    refine h.setChannel i ((h.channels i).congr ?_) (h.ranged i).countLock
    unfold Channel.countLock
    split <;> rfl
  | takeEffect i =>
    unfold Move.apply takeEffect
    simp only
    split
    · exact h
    · have htake : (r.machine.onChannel i Channel.takeCode).Tame :=
        h.setChannel i ((h.channels i).congr rfl) ((h.ranged i).congr rfl)
      exact htake.dispatch hm
  | countWait i =>
    have hk := Channel.kept_countWait r.machine.channels[i]
    exact h.setChannel i ((h.channels i).congr (Channel.loudness_of_kept hk))
      ((h.ranged i).congr (Channel.registers_of_kept hk))
  | wake i => exact h.setChannel i ((h.channels i).congr rfl) ((h.ranged i).congr rfl)
  | word i => exact h.runWord i hm
  | halt i => exact h.setChannel i ((h.channels i).congr rfl) ((h.ranged i).congr rfl)
  | bend i => exact h.bend i
  | load i => exact h.setVoice i (voiceVolume_le (h.channels i).volume h.fade.volume)

end Machine

/-! ## Replays -/

namespace Replay

variable {r : Replay} {score : Score} {rate : UInt32}

/-- A sub-song starts with no volume. -/
theorem tame_reset (multi : Bool) : (initial multi).reset.machine.Tame := by
  have hc := congrArg Prod.fst (sounding_reset multi)
  have hv := congrArg (fun s => s.2.1) (sounding_reset multi)
  have hf := congrArg (fun s => s.2.2) (sounding_reset multi)
  simp only [Machine.sounding] at hc hv hf
  refine ⟨fun i => ?_, ranged_reset multi, ?_, fun i => ?_⟩
  · rw [hc, Octet.getElem_replicate]
    exact ⟨level_zero, level_zero, .inl rfl⟩
  · rw [hf]
    exact Fade.tame_still level_zero rfl
  · rw [hv, Octet.getElem_replicate]
    exact UInt8.zero_le

theorem greetFirst_current (r : Replay) : r.greetFirst.place.current = r.place.current :=
  congrArg (·.place.current) (hushed_greetFirst r)

/-- The sound of a tick leaves the volumes of the voices as they are. -/
theorem volume_render (r : Replay) (bank : Bank) (rate : UInt32) (i : Slot) :
    (r.render bank rate).machine.voices[i].volume = r.machine.voices[i].volume := by
  unfold render Player.resume Mix.renderings
  simp only [Octet.getElem_map, Octet.getElem_ofFn]
  split
  · exact Voice.volume_render _ _
  · rfl

theorem tame_apply (h : r.machine.Tame) (mv : Move) (hm : r.moderate score mv = true) :
    (mv.apply score rate r).machine.Tame := by
  cases mv with
  | machine mv => exact h.apply mv rfl hm
  | enter i =>
    show (r.enterTrack i).machine.Tame
    unfold enterTrack
    cases Tracks.enter i r.tracks with
    | idle tracks => exact h
    | runs tracks => exact h
    | switchesOff tracks channel => exact h.channelOff channel
  | word i =>
    unfold moderate at hm
    show (r.machine.grant? score (Tracks.step score i r.tracks).request).Tame
    cases hq : (Tracks.step score i r.tracks).request with
    | none => exact h
    | some request =>
      simp only [hq] at hm
      cases request with
      | dispatch w => exact h.dispatch hm
      | fade speed target => exact ⟨h.channels, h.ranged, h.fade.start hm, h.voices⟩
      | endSong => exact h.congr (sounding_reachEnd _)
      | cue | endPattern => exact h.congr rfl
  | leave => exact h.congr (sounding_leave r)
  | readStep =>
    rcases sounding_readStep r score with hs | ⟨s, speed, target, hstep, hcmd, hs⟩
    · exact h.congr hs
    · rw [greetFirst_current] at hstep
      unfold moderate at hm
      simp only [hstep, Option.bind_some, hcmd] at hm
      have hfade : ({ r.machine with master.fade :=
          r.machine.master.fade.start speed.toUInt8.toInt8 target.toUInt8.toInt8 } :
            Machine).Tame := ⟨h.channels, h.ranged, h.fade.start hm, h.voices⟩
      exact hfade.congr hs
  | giveUp => exact h.congr (sounding_reachEnd _)
  | render =>
    refine ⟨every_render h.channels (fun _ hc => hc.congr rfl) _ _,
      every_render h.ranged (fun _ hc => hc.congr rfl) _ _, h.fade, fun i => ?_⟩
    exact (volume_render r score.bank rate i).trans_le (h.voices i)
  | reset multi => exact tame_reset multi
  | select n =>
    have hfade : ({ r.machine with master.fade :=
        { r.machine.master.fade with volume := 0x40, slope := 0 } } : Machine).Tame :=
      ⟨h.channels, h.ranged, Fade.tame_still level_full rfl, h.voices⟩
    exact hfade.congr (sounding_selectSong r score n)
  | aim position e => exact h.congr (sounding_aim r position e)
  | reserve i code priority =>
    exact h.setChannel i ((h.channels i).congr rfl) ((h.ranged i).congr rfl)
  | begin | countTick | startRow | stop | enable | announce | drain => exact h.congr rfl

end Replay

namespace Player

variable {p q : Player}

/-- Moves of a player ask for nothing above the full volume. -/
def Moderate (p : Player) (ms : List Replay.Move) : Prop :=
  Replay.Along p.tune.score p.rate (fun r mv => r.moderate p.tune.score mv = true) ms p.replay

instance (ms : List Replay.Move) : Decidable (p.Moderate ms) :=
  Replay.decidableAlong ms p.replay

theorem Moderate.run {ms : List Replay.Move} (h : p.Moderate ms) (ht : p.replay.machine.Tame) :
    (p.run ms).machine.Tame :=
  Replay.Along.run (P := fun r => r.machine.Tame)
    (fun _ mv hr hm => Replay.tame_apply hr mv hm) ms h ht

/-- A tick of moderate moves. -/
theorem tame_tick (h : p.replay.machine.Tame) (hm : p.Moderate p.tickMoves) :
    p.tick.replay.machine.Tame := by
  rw [← p.run_tickMoves]
  exact hm.run h

theorem tame_iterate (h : p.replay.machine.Tame) : ∀ k : Nat,
    (∀ j < k, (tick^[j] p).Moderate (tick^[j] p).tickMoves) →
      (tick^[k] p).replay.machine.Tame
  | 0, _ => h
  | k + 1, hm => by
    rw [Function.iterate_succ_apply']
    exact tame_tick (tame_iterate h k fun j hj => hm j (by omega)) (hm k (Nat.lt_succ_self k))

/-- Beginning a sub-song puts all back, so it does not matter what was played
    before. -/
theorem tame_start {song : Nat} (h : p.start song = .ok q) (hm : p.Moderate (p.startMoves song)) :
    q.replay.machine.Tame := by
  rw [← run_startMoves h, run, startMoves, Replay.run_cons]
  exact Replay.Along.run (P := fun r => r.machine.Tame)
    (fun _ mv hr hm => Replay.tame_apply hr mv hm) _ hm.2 (Replay.tame_reset _)

/-! ## Bounded volumes -/

/-- From the start of a song on, after any number of ticks, the volume of every
    channel is within 0 and 0x40, and that of every voice is not above 0x40,
    provided that no move on the way asks for more: no word of a macro that
    sets a volume or an envelope, no word of a track that sets an envelope or
    a fade, and no track step that is a fade. -/
theorem start_volumes_bounded {song : Nat} (h : p.start song = .ok q)
    (hstart : p.Moderate (p.startMoves song)) (k : Nat)
    (hticks : ∀ j < k, (tick^[j] q).Moderate (tick^[j] q).tickMoves) (i : Slot) :
    0 ≤ (tick^[k] q).replay.machine.channels[i].volume ∧
      (tick^[k] q).replay.machine.channels[i].volume ≤ 0x40 ∧
      (tick^[k] q).replay.machine.voices[i].volume ≤ 0x40 := by
  have htame := tame_iterate (tame_start h hstart) k hticks
  obtain ⟨h0, h64⟩ := (htame.channels i).volume
  exact ⟨Int8.le_iff_toInt_le.2 h0, Int8.le_iff_toInt_le.2 h64, htame.voices i⟩

/-- A tune whose only note is played at a volume of its own. -/
def loudTune (volume : UInt32) : ByteArray :=
  smallTune 0x1000 [0x10000000, 0xf3ff0000] [0x0e000000 ||| volume, 0x07000000]

/-- At the full volume all moves are moderate, and after two ticks the volumes
    are the full one. -/
theorem volumes_bounded_loudTune : ∃ tune p q, load (loudTune 0x40) (some ⟨#[]⟩) = .ok tune ∧
    Player.new tune minRate = .ok p ∧ p.start 0 = .ok q ∧ p.Moderate (p.startMoves 0) ∧
      (∀ j < 2, (tick^[j] q).Moderate (tick^[j] q).tickMoves) ∧
      q.tick.tick.replay.machine.channels[(0 : Slot)].volume = 0x40 ∧
      q.tick.tick.replay.machine.channels[(0 : Slot)].volume ≤ 0x40 ∧
      q.tick.tick.replay.machine.voices[(0 : Slot)].volume ≤ 0x40 := by
  have h : ((load (loudTune 0x40) (some ⟨#[]⟩)).toOption.bind fun tune =>
      (Player.new tune minRate).toOption.map fun p => (p.start 0).toOption.map fun q =>
        (decide (p.Moderate (p.startMoves 0)), decide (q.Moderate q.tickMoves),
          decide (q.tick.Moderate q.tick.tickMoves),
          q.tick.tick.replay.machine.channels[(0 : Slot)].volume)) =
        some (some (true, true, true, 0x40)) := by decide +kernel
  obtain ⟨tune, p, hload, hnew, h⟩ := exists_new h
  obtain ⟨q, hq, h⟩ := Option.map_eq_some_iff.1 h
  simp only [Prod.mk.injEq, decide_eq_true_eq] at h
  obtain ⟨hstart, h₀, h₁, hvolume⟩ := h
  have hq := eq_ok_of_toOption hq
  have hticks : ∀ j < 2, (tick^[j] q).Moderate (tick^[j] q).tickMoves := by
    intro j hj
    interval_cases j
    · exact h₀
    · exact h₁
  have hbounds := start_volumes_bounded hq hstart 2 hticks 0
  exact ⟨tune, p, q, hload, hnew, hq, hstart, hticks, hvolume, hbounds.2⟩

/-- A word that sets a volume of 127 is obeyed: channel and voice are louder
    than the full volume. -/
theorem louder_than_full : ∃ tune p, load (loudTune 0x7f) (some ⟨#[]⟩) = .ok tune ∧
    Player.new tune minRate = .ok p ∧
      p.tick.tick.replay.machine.channels[(0 : Slot)].volume = 127 ∧
      p.tick.tick.replay.machine.voices[(0 : Slot)].volume = 127 := by
  have h : ((load (loudTune 0x7f) (some ⟨#[]⟩)).toOption.bind fun tune =>
      (Player.new tune minRate).toOption.map fun p =>
        (p.tick.tick.replay.machine.channels[(0 : Slot)].volume,
          p.tick.tick.replay.machine.voices[(0 : Slot)].volume)) = some (127, 127) := by
    decide +kernel
  obtain ⟨tune, p, hload, hnew, h⟩ := exists_new h
  rw [Prod.mk.injEq] at h
  exact ⟨tune, p, hload, hnew, h⟩

end Player

end PaulaReplay
