/-
  Rendering: what a voice plays, in one piece or in several.

  * `Voice.settings`: the registers that a voice leaves alone as it plays;
  * `Voice.InBank`, `Voice.audible_iff`: what it takes to be heard;
  * `Voice.play_eq`, `Voice.play_add`: frames follow one another until the voice
    runs out, whatever was played before;
  * `Voice.render_add`: so a voice that is asked for its frames in two pieces
    plays what it plays in one;
  * `Voice.over_render_append`: and so it is in any buffers.
-/
import Mathlib.Tactic.Common
import Mathlib.Tactic.SplitIfs
import PaulaReplay.Sound.Voice

namespace PaulaReplay.Voice

variable {bank : Bank} {v w : Voice}

/-- The voice after a frame. -/
def Frame.voice : Frame → Voice
  | .plays v _ | .runsOut v => v

/-! ## Registers -/

/-- The registers that a voice leaves alone as it plays: its mode, the region to
    play next, and its volume. -/
def settings (v : Voice) : UInt8 × Int32 × UInt16 × UInt8 :=
  (v.mode, v.nextStart, v.nextLength, v.volume)

theorem mode_of_settings (h : v.settings = w.settings) : v.mode = w.mode :=
  congrArg (fun s => s.1) h

theorem nextStart_of_settings (h : v.settings = w.settings) : v.nextStart = w.nextStart :=
  congrArg (fun s => s.2.1) h

theorem volume_of_settings (h : v.settings = w.settings) : v.volume = w.volume :=
  congrArg (fun s => s.2.2.2) h

/-- A count changes nothing but itself. -/
theorem count_eq (v : Voice) : v.count.1 = { v with loopMode := v.count.1.loopMode } := by
  unfold count
  split
  · rfl
  · split <;> rfl

/-- What becomes of a voice in a frame: it plays on in its region, it runs out,
    or it goes into its next region and counts that. -/
theorem settle_cases (v : Voice) :
    (v.phase < v.limit ∧ v.settle = .plays v false) ∨
    (¬ v.phase < v.limit ∧ v.enter.limit < leastLimit ∧ v.settle = .runsOut v.enter.exhausted) ∨
    (¬ v.phase < v.limit ∧ leastLimit ≤ v.enter.limit ∧
      v.settle = .plays { v.enter with loopMode := v.enter.count.1.loopMode } v.enter.count.2) := by
  rw [← count_eq]
  unfold settle
  by_cases hphase : v.phase < v.limit
  · exact .inl ⟨hphase, if_pos hphase⟩
  · refine .inr ?_
    rw [if_neg hphase]
    by_cases hlimit : v.enter.limit < leastLimit
    · exact .inl ⟨hphase, hlimit, if_pos hlimit⟩
    · exact .inr ⟨hphase, UInt32.not_lt.1 hlimit, if_neg hlimit⟩

theorem settings_settle (v : Voice) : v.settle.voice.settings = v.settings := by
  rcases v.settle_cases with ⟨-, hs⟩ | ⟨-, -, hs⟩ | ⟨-, -, hs⟩ <;> rw [hs] <;> rfl

theorem settings_play : ∀ (n : Nat) (r : Rendering),
    (play bank n r).voice.settings = r.voice.settings
  | 0, _ => rfl
  | n + 1, ⟨v, frames, fired⟩ => by
    have hs := settings_settle v.advance
    rw [play, frame]
    cases hv : v.advance.settle with
    | plays w f => rw [hv] at hs; exact (settings_play n _).trans hs
    | runsOut w => rw [hv] at hs; exact hs

/-- The region that is played comes from the one to play next, but where the
    voice runs out. -/
theorem start_settle (v : Voice) : v.settle.voice.start = v.start ∨
    v.settle.voice.start = v.nextStart ∨ v.settle.voice.start = 0 := by
  rcases v.settle_cases with ⟨-, hs⟩ | ⟨-, -, hs⟩ | ⟨-, -, hs⟩ <;> rw [hs]
  · exact .inl rfl
  · exact .inr (.inr rfl)
  · exact .inr (.inl rfl)

theorem limit_advance (v : Voice) : v.advance.limit = v.limit := rfl

theorem toNat_limit (v : Voice) : v.limit.toNat = v.length.toNat * 0x4000 := by
  have hlt := v.length.toNat_lt
  rw [limit, UInt32.toNat_shiftLeft, UInt16.toNat_toUInt32]
  show v.length.toNat <<< 14 % 0x100000000 = _
  rw [Nat.shiftLeft_eq, Nat.mod_eq_of_lt (by omega)]

/-- A region is long enough to play from four samples on. -/
theorem leastLimit_le_limit_iff : leastLimit ≤ v.limit ↔ 4 ≤ v.length := by
  rw [UInt32.le_iff_toNat_le, UInt16.le_iff_toNat_le, toNat_limit]
  show 65536 ≤ _ ↔ 4 ≤ _
  omega

/-- A voice plays on just where its region is long enough. -/
theorem settle_eq_plays {f : Bool} (h : v.settle = .plays w f) (hv : leastLimit ≤ v.limit) :
    leastLimit ≤ w.limit := by
  obtain ⟨-, hs⟩ | ⟨-, -, hs⟩ | ⟨-, hlimit, hs⟩ := v.settle_cases <;> cases hs.symm.trans h
  · exact hv
  · exact hlimit

theorem settle_eq_runsOut (h : v.settle = .runsOut w) : w.limit < leastLimit := by
  obtain ⟨-, hs⟩ | ⟨-, -, hs⟩ | ⟨-, -, hs⟩ := v.settle_cases <;> cases hs.symm.trans h
  show (0 : UInt16).toUInt32 <<< phaseShift < leastLimit
  decide

/-! ## Loudness -/

/-- A sample at a volume that is heard. -/
theorem sample_mul_le (x : Int8) {volume : Nat} (hv : volume ≤ 64) :
    -8192 ≤ x.toInt * volume ∧ x.toInt * volume ≤ 8128 := by
  have hlo := x.le_toInt
  have hhi := x.toInt_lt
  have h0 : (0 : Int) ≤ volume := Int.natCast_nonneg _
  constructor
  · calc (-8192 : Int) ≤ -0x80 * volume := by omega
      _ ≤ x.toInt * volume := Int.mul_le_mul_of_nonneg_right (by omega) h0
  · calc x.toInt * volume ≤ 0x7f * volume := Int.mul_le_mul_of_nonneg_right (by omega) h0
      _ ≤ 8128 := by omega

theorem amplitude_le (bank : Bank) (v : Voice) :
    -32768 ≤ v.amplitude bank ∧ v.amplitude bank ≤ 32512 := by
  have hx := sample_mul_le (bank.sample (v.start.toInt + (v.phase >>> phaseShift).toNat).toNat)
    (Nat.min_le_right v.volume.toNat fullVolume)
  simp only [amplitude]
  omega

/-! ## Audible voices -/

/-- Both regions of a voice begin inside the bank. -/
structure InBank (bank : Bank) (v : Voice) : Prop where
  next : 0 ≤ v.nextStart.toInt ∧ v.nextStart.toInt < bank.size
  start : 0 ≤ v.start.toInt ∧ v.start.toInt < bank.size

/-- A voice is heard if it is in the bank, switched on, and has a region to
    play. -/
theorem audible_iff : v.audible bank = true ↔
    v.InBank bank ∧ v.mode &&& 1 ≠ 0 ∧ leastLimit ≤ v.limit := by
  simp only [audible, Bool.and_eq_true, decide_eq_true_eq, bne_iff_ne]
  constructor
  · rintro ⟨⟨⟨⟨⟨hnext, hstart⟩, hnext'⟩, hstart'⟩, hon⟩, hlimit⟩
    exact ⟨⟨⟨hnext, hnext'⟩, hstart, hstart'⟩, hon, hlimit⟩
  · rintro ⟨⟨⟨hnext, hnext'⟩, hstart, hstart'⟩, hon, hlimit⟩
    exact ⟨⟨⟨⟨⟨hnext, hstart⟩, hnext'⟩, hstart'⟩, hon⟩, hlimit⟩

theorem render_of_not_audible (h : v.audible bank ≠ true) (n : Nat) :
    v.render bank n = ⟨v, #[], false⟩ := if_neg h

theorem InBank.settle (h : v.InBank bank) : v.settle.voice.InBank bank := by
  have hnext : v.settle.voice.nextStart = v.nextStart :=
    nextStart_of_settings v.settings_settle
  constructor
  · rw [hnext]
    exact h.next
  · rcases v.start_settle with hs | hs | hs <;> rw [hs]
    · exact h.start
    · exact h.next
    -- a bank that a region begins in is not empty
    · exact ⟨Int.le_refl _, Int.lt_of_le_of_lt h.start.1 h.start.2⟩

theorem InBank.advance (h : v.InBank bank) : v.advance.InBank bank := ⟨h.next, h.start⟩

theorem InBank.play : ∀ (n : Nat) {r : Rendering}, r.voice.InBank bank →
    (Voice.play bank n r).voice.InBank bank
  | 0, _, h => h
  | n + 1, ⟨v, frames, fired⟩, h => by
    have hs : v.advance.settle.voice.InBank bank := InBank.settle (InBank.advance h)
    rw [Voice.play, frame]
    cases hv : v.advance.settle with
    | plays w f => rw [hv] at hs; exact InBank.play n hs
    | runsOut w => rw [hv] at hs; exact hs

/-! ## Modes -/

/-- A voice that is switched on and not just now is playing. -/
theorem playing_of_on {a : UInt8} (hon : a &&& 1 ≠ 0) (hfresh : a &&& 3 ≠ 1) : a &&& 3 = 3 := by
  have hbits : ∀ b : BitVec 8, b &&& 1 ≠ 0 → b &&& 3 ≠ 1 → b &&& 3 = 3 := by decide +kernel
  exact UInt8.toBitVec_inj.1 (hbits a.toBitVec (fun h => hon (UInt8.toBitVec_inj.1 h))
    fun h => hfresh (UInt8.toBitVec_inj.1 h))

theorem on_of_playing {a : UInt8} (h : a &&& 3 = 3) : a &&& 1 ≠ 0 := by
  have hbits : ∀ b : BitVec 8, b &&& 3 = 3 → b &&& 1 ≠ 0 := by decide +kernel
  exact fun h0 => hbits a.toBitVec (congrArg UInt8.toBitVec h) (congrArg UInt8.toBitVec h0)

theorem latch_of_playing (h : v.mode &&& 3 = 3) : v.latch = v :=
  if_neg (by rw [h]; decide)

/-- Playing changes none of the other bits. -/
theorem or_playing (a : UInt8) : (a &&& 3 = 1 → (a ||| 2) &&& 3 = 3) ∧ (a ||| 2) &&& 4 = a &&& 4 := by
  have hbits : ∀ b : BitVec 8, (b &&& 3 = 1 → (b ||| 2) &&& 3 = 3) ∧ (b ||| 2) &&& 4 = b &&& 4 := by
    decide +kernel
  obtain ⟨hplaying, hother⟩ := hbits a.toBitVec
  exact ⟨fun h => UInt8.toBitVec_inj.1 (hplaying (congrArg UInt8.toBitVec h)),
    UInt8.toBitVec_inj.1 hother⟩

/-- A voice that is switched on plays from then on. -/
theorem mode_latch (hon : v.mode &&& 1 ≠ 0) : v.latch.mode &&& 3 = 3 := by
  unfold latch
  split
  · next hfresh => exact (or_playing v.mode).1 hfresh
  · next hfresh => exact playing_of_on hon hfresh

theorem released_latch (v : Voice) : v.latch.mode &&& 4 = v.mode &&& 4 := by
  unfold latch
  split
  · exact (or_playing v.mode).2
  · rfl

theorem InBank.latch (h : v.InBank bank) : v.latch.InBank bank := by
  unfold Voice.latch
  split
  · exact ⟨h.next, h.next⟩
  · exact h

/-- A voice that was switched on and has its next region already keeps its
    length. -/
theorem limit_latch (h : v.mode &&& 3 ≠ 1 ∨ v.length = v.nextLength) :
    v.latch.limit = v.limit := by
  unfold latch
  split
  · next hfresh =>
    show v.nextLength.toUInt32 <<< phaseShift = v.length.toUInt32 <<< phaseShift
    rw [h.resolve_left (not_not_intro hfresh)]
  · rfl

/-! ## Frames that follow one another -/

/-- What a voice plays does not depend on what was played before. -/
theorem play_eq : ∀ (n : Nat) (v : Voice) (frames : Array Int) (fired : Bool),
    play bank n ⟨v, frames, fired⟩ =
      ⟨(play bank n ⟨v, #[], false⟩).voice, frames ++ (play bank n ⟨v, #[], false⟩).frames,
        fired || (play bank n ⟨v, #[], false⟩).fired⟩
  | 0, _, frames, fired => by simp only [play, Array.append_empty, Bool.or_false]
  | n + 1, v, frames, fired => by
    rw [play, play, frame]
    cases v.advance.settle with
    | plays w f =>
      simp only
      rw [play_eq n w (frames.push _), play_eq n w (#[].push _)]
      simp only [Array.push_eq_append, Array.append_assoc, Array.empty_append, Bool.false_or,
        Bool.or_assoc]
    | runsOut w => simp only [Array.push_eq_append, Array.empty_append, Bool.or_false]

/-- A voice plays as many frames as it is asked for, or it runs out. -/
theorem size_play (bank : Bank) (n : Nat) (h : leastLimit ≤ v.limit) :
    (play bank n ⟨v, #[], false⟩).frames.size ≤ n ∧
      (leastLimit ≤ (play bank n ⟨v, #[], false⟩).voice.limit →
        (play bank n ⟨v, #[], false⟩).frames.size = n) := by
  induction n generalizing v with
  | zero => exact ⟨Nat.le_refl 0, fun _ => rfl⟩
  | succ n ih =>
    rw [play, frame]
    cases hv : v.advance.settle with
    | plays w f =>
      have hw : leastLimit ≤ w.limit := settle_eq_plays hv (by rwa [limit_advance])
      obtain ⟨hle, heq⟩ := ih hw
      simp only
      rw [play_eq n w (#[].push _)]
      simp only [Array.size_append, Array.size_push, Array.size_empty]
      exact ⟨by omega, fun hlimit => by rw [heq hlimit]; omega⟩
    | runsOut w =>
      refine ⟨Nat.le_add_left 1 n, fun hlimit => ?_⟩
      exact absurd hlimit (UInt32.not_le.2 (settle_eq_runsOut hv))

/-- A voice goes on where it has come to, unless it has run out. -/
theorem play_add (bank : Bank) (n m : Nat) (r : Rendering) (h : leastLimit ≤ r.voice.limit) :
    play bank (n + m) r =
      if leastLimit ≤ (play bank n r).voice.limit then play bank m (play bank n r)
      else play bank n r := by
  induction n generalizing r with
  | zero =>
    rw [Nat.zero_add]
    exact (if_pos h).symm
  | succ n ih =>
    obtain ⟨v, frames, fired⟩ := r
    rw [Nat.add_right_comm, play, play, frame]
    cases hv : v.advance.settle with
    | plays w f => exact ih _ (settle_eq_plays hv (by rwa [limit_advance]))
    | runsOut w => exact (if_neg (UInt32.not_le.2 (settle_eq_runsOut hv))).symm

/-! ## Renderings -/

/-- A voice that is not to be switched off is rendered by playing it. -/
theorem render_of_audible (h : v.audible bank = true) (hmode : v.mode &&& 4 = 0) (n : Nat) :
    v.render bank n = play bank n ⟨v.latch, #[], false⟩ := by
  have hstays : ¬ (play bank n ⟨v.latch, #[], false⟩).voice.mode &&& 4 ≠ 0 := by
    have hplay : (play bank n ⟨v.latch, #[], false⟩).voice.mode = v.latch.mode :=
      mode_of_settings (settings_play n _)
    rw [hplay, released_latch, hmode]
    exact not_not_intro rfl
  rw [render, if_pos h]
  show ({ play bank n ⟨v.latch, #[], false⟩ with
    voice := (play bank n ⟨v.latch, #[], false⟩).voice.release } : Rendering) = _
  rw [release, if_neg hstays]

/-- What a voice plays in two pieces is what it plays in one: the second piece
    begins with the voice that the first one leaves, and holds no frames where
    the first is cut short. -/
theorem render_add (hmode : v.mode &&& 4 = 0)
    (hregion : v.mode &&& 3 ≠ 1 ∨ v.length = v.nextLength) (bank : Bank) (n m : Nat) :
    let first := v.render bank n
    let second := first.voice.render bank m
    v.render bank (n + m) =
        ⟨second.voice, first.frames ++ second.frames, first.fired || second.fired⟩ ∧
      first.frames.size ≤ n ∧ (first.frames.size = n ∨ second.frames = #[]) := by
  intro first second
  by_cases h : v.audible bank = true
  · obtain ⟨hbank, hon, hlimit⟩ := audible_iff.1 h
    have hlatch : leastLimit ≤ v.latch.limit := by rwa [limit_latch hregion]
    have hfirst : first = play bank n ⟨v.latch, #[], false⟩ := render_of_audible h hmode n
    have hmodes : first.voice.mode = v.latch.mode := by
      rw [hfirst]
      exact mode_of_settings (settings_play n _)
    have hplaying : first.voice.mode &&& 3 = 3 := by rw [hmodes, mode_latch hon]
    have hstays : first.voice.mode &&& 4 = 0 := by rw [hmodes, released_latch, hmode]
    have hin : first.voice.InBank bank := by
      rw [hfirst]
      exact InBank.play n hbank.latch
    obtain ⟨hle, hsize⟩ := size_play bank n hlatch
    have hadd := play_add bank n m ⟨v.latch, #[], false⟩ hlatch
    rw [← hfirst] at hle hsize hadd
    rw [render_of_audible h hmode, hadd]
    by_cases hleft : leastLimit ≤ first.voice.limit
    · have hsecond : second = play bank m ⟨first.voice, #[], false⟩ := by
        have haudible := audible_iff.2 ⟨hin, on_of_playing hplaying, hleft⟩
        rw [← latch_of_playing hplaying]
        exact render_of_audible haudible hstays m
      rw [if_pos hleft, hsecond]
      exact ⟨play_eq m first.voice first.frames first.fired, hle, .inl (hsize hleft)⟩
    · have hsecond : second = ⟨first.voice, #[], false⟩ :=
        render_of_not_audible (fun ha => hleft (audible_iff.1 ha).2.2) m
      rw [if_neg hleft, hsecond]
      exact ⟨by rw [Array.append_empty, Bool.or_false], hle, .inr rfl⟩
  · have hfirst : first = ⟨v, #[], false⟩ := render_of_not_audible h n
    have hsecond : second = ⟨v, #[], false⟩ := by
      show first.voice.render bank m = _
      rw [hfirst]
      exact render_of_not_audible h m
    rw [render_of_not_audible h, hfirst, hsecond]
    exact ⟨rfl, Nat.zero_le n, .inr rfl⟩

/-! ## Buffers -/

theorem Rendering.size_over (r : Rendering) (buffer : Array Int) :
    (r.over buffer).size = buffer.size := by
  simp only [Rendering.over, Array.size_append, Array.size_extract]
  omega

/-- A buffer holds the frames that were played, and behind them what was in it
    before. -/
theorem Rendering.getElem?_over (r : Rendering) (buffer : Array Int) (i : Nat) :
    (r.over buffer)[i]? =
      if i < buffer.size then if i < r.frames.size then r.frames[i]? else buffer[i]?
      else none := by
  simp only [Rendering.over, Array.getElem?_append, Array.getElem?_extract, Array.size_extract]
  split_ifs <;> first | omega | (congr 1; omega) | rfl

/-- Frames that fill a buffer go on into the next one; those that do not are
    the last. -/
theorem Rendering.over_append {whole a b : Rendering} {first second : Array Int}
    (hframes : whole.frames = a.frames ++ b.frames) (hle : a.frames.size ≤ first.size)
    (hfull : a.frames.size = first.size ∨ b.frames = #[]) :
    whole.over (first ++ second) = a.over first ++ b.over second := by
  apply Array.ext_getElem?
  intro i
  simp only [Array.getElem?_append, getElem?_over, size_over, Array.size_append, hframes]
  rcases hfull with hfull | hnone
  · rw [hfull]
    split_ifs <;> first | omega | rfl
  · rw [hnone, Array.size_empty, Nat.add_zero, Array.getElem?_empty]
    split_ifs <;> first | omega | rfl

/-- How the frames of a voice are cut into buffers makes no difference: neither
    for what is in the buffers then, nor for the voice, nor for whether the
    macro of its channel is to resume. -/
theorem over_render_append (hmode : v.mode &&& 4 = 0)
    (hregion : v.mode &&& 3 ≠ 1 ∨ v.length = v.nextLength) (bank : Bank)
    (first second : Array Int) :
    let a := v.render bank first.size
    let b := a.voice.render bank second.size
    let whole := v.render bank (first ++ second).size
    whole.over (first ++ second) = a.over first ++ b.over second ∧
      whole.voice = b.voice ∧ whole.fired = (a.fired || b.fired) := by
  intro a b whole
  obtain ⟨hadd, hle, hfull⟩ := render_add hmode hregion bank first.size second.size
  have hwhole : whole = ⟨b.voice, a.frames ++ b.frames, a.fired || b.fired⟩ := by
    rw [← hadd, ← Array.size_append]
  rw [hwhole]
  exact ⟨Rendering.over_append rfl hle hfull, rfl, rfl⟩

/-- A bank that rises sample by sample. -/
def ramp : Bank := ⟨⟨#[1, 2, 3, 4, 5, 6, 7, 8, 9, 10, 11, 12, 13, 14, 15, 16]⟩⟩

/-- A voice just switched on, for the first four samples over and over, with a
    wait that is over at the second end. -/
def looping : Voice :=
  { mode := 1, nextLength := 4, length := 4, step := 1 <<< phaseShift, volume := 1,
    loopMode := .armOnCount 1 }

/-- The end of the wait and the beginning of a loop may fall anywhere. -/
theorem over_render_append_looping :
    let a := looping.render ramp 3
    let b := a.voice.render ramp 7
    let whole := looping.render ramp 10
    (whole.over #[7, 7, 7, 7, 7, 7, 7, 7, 7, 7] = a.over #[7, 7, 7] ++ b.over #[7, 7, 7, 7, 7, 7, 7] ∧
      whole.voice = b.voice ∧ whole.fired = (a.fired || b.fired)) ∧
    a.over #[7, 7, 7] = #[8, 12, 16] ∧
    b.over #[7, 7, 7, 7, 7, 7, 7] = #[20, 8, 12, 16, 20, 8, 12] ∧ b.fired = true :=
  ⟨over_render_append (by decide) (.inr rfl) ramp #[7, 7, 7] #[7, 7, 7, 7, 7, 7, 7],
    by decide +kernel⟩

end PaulaReplay.Voice
