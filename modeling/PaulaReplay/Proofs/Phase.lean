/-
  Phase: where a voice stands in its region.

  At the end of a region the length of the region is taken off the phase, once.
  That keeps the phase inside as long as a step is no longer than the region to
  come, and then nothing of the phase is lost.  A voice with a longer step leaves
  its region, sooner or later.

  * `Voice.toNat_advance`, `Voice.toNat_enter`: the phase as a number;
  * `Voice.Looping`: a voice that plays one region over and over, by steps that
    are no longer than the region; `Looping.play`: what it plays in some frames,
    and where it is then; `Voice.over_render_looping`: so it is in a buffer;
  * `Voice.Confined`: a voice has run out, or is inside its region;
    `Steady.confined_play`: it stays so by steps that are not too long;
  * `Voice.Escapes`: a voice leaves its region in some frame; `Hasty.escapes`: so
    it does by longer steps;
  * `Voice.confined_iff`: both together.
-/
import PaulaReplay.Engine.Timing
import PaulaReplay.Proofs.Countdown

namespace PaulaReplay.Voice

variable {bank : Bank} {v w : Voice}

/-! ## Phases as numbers -/

/-- The phase at which the next region ends. -/
def nextLimit (v : Voice) : UInt32 := v.nextLength.toUInt32 <<< phaseShift

theorem toNat_nextLimit (v : Voice) : v.nextLimit.toNat = v.nextLength.toNat * 0x4000 :=
  v.enter.toNat_limit

/-- A region ends below the fourth part of all phases. -/
theorem limit_lt_quarter (v : Voice) : v.limit.toNat < 0x40000000 := by
  have hlt := v.length.toNat_lt
  rw [toNat_limit]
  omega

theorem leastLimit_le_nextLimit_iff : leastLimit ≤ v.nextLimit ↔ 4 ≤ v.nextLength :=
  leastLimit_le_limit_iff (v := v.enter)

theorem toNat_advance (v : Voice) :
    v.advance.phase.toNat = (v.phase.toNat + v.step.toNat) % 0x100000000 :=
  UInt32.toNat_add v.phase v.step

theorem toNat_advance_of_lt (h : v.phase.toNat + v.step.toNat < 0x100000000) :
    v.advance.phase.toNat = v.phase.toNat + v.step.toNat := by
  rw [toNat_advance, Nat.mod_eq_of_lt h]

theorem toNat_enter (h : ¬ v.phase < v.limit) :
    v.enter.phase.toNat = v.phase.toNat - v.limit.toNat :=
  UInt32.toNat_sub_of_le _ _ (UInt32.not_lt.1 h)

/-! ## One region over and over -/

/-- A voice plays one region over and over, by steps that are no longer than the
    region. -/
structure Looping (v : Voice) : Prop where
  start : v.nextStart = v.start
  length : v.nextLength = v.length
  long : leastLimit ≤ v.limit
  phase : v.phase < v.limit
  step : v.step ≤ v.limit

/-- How far it comes in `n` frames, the region laid end to end. -/
def distance (v : Voice) (n : Nat) : Nat := v.phase.toNat + n * v.step.toNat

/-- The voice at another phase. -/
def atPhase (v : Voice) (phase : Nat) (mode : LoopMode) : Voice :=
  { v with phase := UInt32.ofNat phase, loopMode := mode }

/-- The place in the bank that it plays in frame `i`: a step on from where it
    stands in the region. -/
def loopedPlace (v : Voice) (i : Nat) : Nat :=
  v.start.toInt.toNat + (v.distance i % v.limit.toNat + v.step.toNat) >>> 14

/-- What it plays in frame `i`. -/
def loopedFrame (bank : Bank) (v : Voice) (i : Nat) : Int :=
  (bank.sample (v.loopedPlace i)).toInt * (min v.volume.toNat fullVolume : Nat) * 4

theorem loopedFrame_of_size_le {i : Nat} (h : bank.size ≤ v.loopedPlace i) :
    v.loopedFrame bank i = 0 := by
  rw [loopedFrame, Bank.sample_of_size_le h, Int8.toInt_zero, Int.zero_mul, Int.zero_mul]

namespace Looping

theorem phase_lt (h : v.Looping) : v.phase.toNat < v.limit.toNat := UInt32.lt_iff_toNat_lt.1 h.phase

theorem pos (h : v.Looping) : 0 < v.limit.toNat := Nat.zero_lt_of_lt h.phase_lt

/-- No step of such a voice leaves 32 bits. -/
theorem toNat_advance (h : v.Looping) :
    v.advance.phase.toNat = v.phase.toNat + v.step.toNat := by
  have hphase := h.phase_lt
  have hstep := UInt32.le_iff_toNat_le.1 h.step
  have hlt := v.limit_lt_quarter
  exact toNat_advance_of_lt (by omega)

theorem toNat_atPhase {phase : Nat} (h : phase < v.limit.toNat) (mode : LoopMode) :
    (v.atPhase phase mode).phase.toNat = phase := by
  have hlt := v.limit_lt_quarter
  exact UInt32.toNat_ofNat_of_lt (by show phase < 0x100000000; omega)

theorem atPhase (h : v.Looping) {phase : Nat} (hphase : phase < v.limit.toNat)
    (mode : LoopMode) : (v.atPhase phase mode).Looping := by
  refine ⟨h.start, h.length, h.long, ?_, h.step⟩
  rw [UInt32.lt_iff_toNat_lt, toNat_atPhase hphase]
  exact hphase

theorem mod_lt (h : v.Looping) (n : Nat) : v.distance n % v.limit.toNat < v.limit.toNat :=
  Nat.mod_lt _ h.pos

/-- A step leads on in the region, or past its end and once round it. -/
theorem step_cases (h : v.Looping) :
    (v.advance.phase < v.limit ∧ v.distance 1 / v.limit.toNat = 0 ∧
      v.distance 1 % v.limit.toNat = v.advance.phase.toNat) ∨
    (¬ v.advance.phase < v.limit ∧ v.distance 1 / v.limit.toNat = 1 ∧
      v.distance 1 % v.limit.toNat = v.advance.enter.phase.toNat) := by
  have hphase := h.phase_lt
  have hstep := UInt32.le_iff_toNat_le.1 h.step
  have hdistance : v.distance 1 = v.advance.phase.toNat := by
    rw [h.toNat_advance, distance, Nat.one_mul]
  have hless : v.distance 1 < 2 * v.limit.toNat := by
    rw [hdistance, h.toNat_advance]
    omega
  by_cases hin : v.advance.phase < v.limit
  · have hlt : v.distance 1 < v.limit.toNat := by
      rw [hdistance]
      exact UInt32.lt_iff_toNat_lt.1 hin
    exact .inl ⟨hin, Nat.div_eq_of_lt hlt, by rw [Nat.mod_eq_of_lt hlt, hdistance]⟩
  · have hle : v.limit.toNat ≤ v.distance 1 := by
      rw [hdistance]
      exact UInt32.le_iff_toNat_le.1 (UInt32.not_lt.1 hin)
    refine .inr ⟨hin, Nat.div_eq_of_lt_le (by omega) (by omega), ?_⟩
    rw [toNat_enter hin, limit_advance, ← hdistance, Nat.mod_eq_sub_mod hle,
      Nat.mod_eq_of_lt (by omega)]

theorem limit_next (h : v.Looping) : v.advance.enter.limit = v.limit := by
  show v.nextLength.toUInt32 <<< phaseShift = _
  rw [h.length]
  rfl

theorem advance_eq (v : Voice) :
    v.advance = v.atPhase v.advance.phase.toNat v.loopMode := by
  rw [Voice.atPhase, UInt32.ofNat_toNat]
  rfl

theorem enter_eq (h : v.Looping) (mode : LoopMode) :
    { v.advance.enter with loopMode := mode } = v.atPhase v.advance.enter.phase.toNat mode := by
  rw [Voice.atPhase, UInt32.ofNat_toNat, ← h.start, ← h.length]
  rfl

/-- In a frame its phase moves round the region by a step. -/
theorem settle (h : v.Looping) : ∃ mode f,
    v.advance.settle = .plays (v.atPhase (v.distance 1 % v.limit.toNat) mode) f := by
  rcases h.step_cases with ⟨hin, -, hmod⟩ | ⟨hout, -, hmod⟩ <;> rw [hmod]
  · refine ⟨v.loopMode, false, ?_⟩
    rw [← advance_eq]
    exact if_pos hin
  · obtain ⟨hin, -⟩ | ⟨-, hlimit, -⟩ | ⟨-, -, hs⟩ := v.advance.settle_cases
    · exact absurd hin hout
    · rw [h.limit_next] at hlimit
      exact absurd h.long (UInt32.not_le.2 hlimit)
    · exact ⟨_, _, hs.trans (congrArg (Frame.plays · _) (h.enter_eq _))⟩

/-- It goes into its region again where a step leads past the end. -/
theorem entries_succ (h : v.Looping) (n : Nat) (mode : LoopMode) :
    entries (n + 1) v = v.distance 1 / v.limit.toNat +
      entries n (v.atPhase (v.distance 1 % v.limit.toNat) mode) := by
  rw [Voice.entries_succ]
  rcases h.step_cases with ⟨hin, hdiv, hmod⟩ | ⟨hout, hdiv, hmod⟩ <;> rw [hdiv, hmod]
  · rw [if_pos hin, Nat.zero_add, ← entries_withLoopMode mode n v.advance]
    exact congrArg (entries n) (congrArg (fun w => { w with loopMode := mode }) (advance_eq v))
  · have hlong : ¬ v.advance.enter.limit < leastLimit := by
      rw [h.limit_next]
      exact UInt32.not_lt.2 h.long
    rw [if_neg hout, if_neg hlong, ← h.enter_eq]
    exact congrArg (1 + ·) (entries_withLoopMode mode n v.advance.enter).symm

theorem distance_atPhase (h : v.Looping) (n : Nat) (mode : LoopMode) :
    (v.atPhase (v.distance 1 % v.limit.toNat) mode).distance n =
      v.distance 1 % v.limit.toNat + n * v.step.toNat := by
  rw [distance, toNat_atPhase (h.mod_lt 1)]
  rfl

theorem distance_succ (v : Voice) (n : Nat) :
    v.distance (n + 1) = v.distance 1 + n * v.step.toNat := by
  simp only [distance]
  rw [Nat.succ_mul]
  omega

/-- Nothing of the way is lost where the phase goes round. -/
theorem mod_distance_succ (h : v.Looping) (n : Nat) (mode : LoopMode) :
    (v.atPhase (v.distance 1 % v.limit.toNat) mode).distance n % v.limit.toNat =
      v.distance (n + 1) % v.limit.toNat := by
  rw [h.distance_atPhase, Nat.mod_add_mod, distance_succ v n]

theorem div_distance_succ (h : v.Looping) (n : Nat) (mode : LoopMode) :
    v.distance 1 / v.limit.toNat +
        (v.atPhase (v.distance 1 % v.limit.toNat) mode).distance n / v.limit.toNat =
      v.distance (n + 1) / v.limit.toNat := by
  have hsplit : v.distance (n + 1) =
      v.limit.toNat * (v.distance 1 / v.limit.toNat) +
        (v.distance 1 % v.limit.toNat + n * v.step.toNat) := by
    rw [distance_succ v n, ← Nat.add_assoc, Nat.div_add_mod]
  rw [h.distance_atPhase, hsplit, Nat.mul_add_div h.pos]

/-- The frame after the next one is the next one from there. -/
theorem loopedFrame_atPhase (h : v.Looping) (bank : Bank) (mode : LoopMode) (i : Nat) :
    (v.atPhase (v.distance 1 % v.limit.toNat) mode).loopedFrame bank i =
      v.loopedFrame bank (i + 1) := by
  unfold loopedFrame loopedPlace
  rw [← h.mod_distance_succ i mode]
  rfl

theorem amplitude_advance (h : v.Looping) (hstart : 0 ≤ v.start.toInt) (bank : Bank) :
    v.advance.amplitude bank = v.loopedFrame bank 0 := by
  have hzero : v.distance 0 % v.limit.toNat = v.phase.toNat := by
    rw [distance, Nat.zero_mul, Nat.add_zero, Nat.mod_eq_of_lt h.phase_lt]
  have hoffset : (v.advance.phase >>> phaseShift).toNat =
      (v.distance 0 % v.limit.toNat + v.step.toNat) >>> 14 := by
    rw [UInt32.toNat_shiftRight, h.toNat_advance, hzero]
    rfl
  have hplace : (v.advance.start.toInt + (v.advance.phase >>> phaseShift).toNat).toNat =
      v.loopedPlace 0 := by
    rw [hoffset]
    exact Int.toNat_add hstart (Int.natCast_nonneg _)
  unfold amplitude loopedFrame
  simp only [hplace]
  rfl

/-- What it plays in `n` frames, and where it is then. -/
theorem play (bank : Bank) : ∀ (n : Nat) {v : Voice}, v.Looping → 0 ≤ v.start.toInt →
    (Voice.play bank n ⟨v, #[], false⟩).frames.toList =
        (List.range n).map (v.loopedFrame bank) ∧
      (∃ mode, (Voice.play bank n ⟨v, #[], false⟩).voice =
        v.atPhase (v.distance n % v.limit.toNat) mode) ∧
      entries n v = v.distance n / v.limit.toNat
  | 0, v, h, _ => by
    have hzero : v.distance 0 = v.phase.toNat := by rw [distance, Nat.zero_mul, Nat.add_zero]
    refine ⟨rfl, ⟨v.loopMode, ?_⟩, ?_⟩
    · rw [hzero, Nat.mod_eq_of_lt h.phase_lt, Voice.atPhase, UInt32.ofNat_toNat]
      rfl
    · rw [hzero, Nat.div_eq_of_lt h.phase_lt]
      rfl
  | n + 1, v, h, hstart => by
    obtain ⟨mode, f, hs⟩ := h.settle
    have hnext : (v.atPhase (v.distance 1 % v.limit.toNat) mode).Looping :=
      h.atPhase (h.mod_lt 1) mode
    obtain ⟨hframes, ⟨mode', hvoice⟩, hentries⟩ := play bank n hnext hstart
    rw [Voice.play, frame, hs]
    simp only
    rw [play_eq]
    refine ⟨?_, ⟨mode', hvoice.trans ?_⟩, ?_⟩
    · rw [Array.toList_append, hframes, List.range_succ_eq_map, List.map_cons, List.map_map]
      show v.advance.amplitude bank :: _ = _
      rw [h.amplitude_advance hstart]
      exact congrArg (_ :: ·) (List.map_congr_left fun i _ => h.loopedFrame_atPhase bank mode i)
    · rw [← h.mod_distance_succ n mode]
      rfl
    · rw [h.entries_succ n mode, hentries]
      exact h.div_distance_succ n mode

end Looping

/-- Frames that fill a buffer are all that is in it then. -/
theorem Rendering.over_of_size {r : Rendering} {buffer : Array Int}
    (h : r.frames.size = buffer.size) : r.over buffer = r.frames := by
  rw [Rendering.over, ← h, Array.extract_size, Array.extract_eq_empty_of_le (by omega), Array.append_empty]

/-- In every buffer a voice that plays one region over and over is heard as the
    samples of the region, by equal steps round it.  Its phase stays below 32
    bits on the way, and is what is left of the whole distance when the regions
    that it has gone into are taken off. -/
theorem over_render_looping (hplaying : v.mode &&& 3 = 3) (hstays : v.mode &&& 4 = 0)
    (hbank : 0 ≤ v.start.toInt ∧ v.start.toInt < bank.size) (hstart : v.nextStart = v.start)
    (hlength : v.nextLength = v.length) (hlong : 4 ≤ v.length) (hphase : v.phase < v.limit)
    (hstep : v.step ≤ v.limit) (buffer : Array Int) :
    let l := v.limit.toNat
    ((v.render bank buffer.size).over buffer).toList =
        (List.range buffer.size).map (v.loopedFrame bank) ∧
      (∀ i, bank.size ≤ v.loopedPlace i → v.loopedFrame bank i = 0) ∧
      (v.render bank buffer.size).voice.phase.toNat = v.distance buffer.size % l ∧
      (∀ i, (v.render bank i).voice.advance.phase.toNat = v.distance i % l + v.step.toNat) ∧
      v.entered bank buffer.size = v.distance buffer.size / l := by
  intro l
  have h : v.Looping := ⟨hstart, hlength, leastLimit_le_limit_iff.2 hlong, hphase, hstep⟩
  have haudible : v.audible bank = true :=
    audible_iff.2 ⟨⟨hstart ▸ hbank, hbank⟩, on_of_playing hplaying, h.long⟩
  have hlatch : v.latch = v := latch_of_playing hplaying
  have hrender : ∀ n, v.render bank n = play bank n ⟨v, #[], false⟩ := fun n => by
    rw [render_of_audible haudible hstays, hlatch]
  have hvoice : ∀ n, ∃ mode, (v.render bank n).voice = v.atPhase (v.distance n % l) mode := fun n => by
    rw [hrender]
    exact (h.play bank n hbank.1).2.1
  refine ⟨?_, fun i => loopedFrame_of_size_le, ?_, fun i => ?_, ?_⟩
  · obtain ⟨hframes, -⟩ := h.play bank buffer.size hbank.1
    rw [← hrender] at hframes
    have hsize : (v.render bank buffer.size).frames.size = buffer.size := by
      rw [← Array.length_toList, hframes, List.length_map, List.length_range]
    rw [Rendering.over_of_size hsize, hframes]
  · obtain ⟨mode, hmode⟩ := hvoice buffer.size
    rw [hmode, Looping.toNat_atPhase (h.mod_lt _)]
  · obtain ⟨mode, hmode⟩ := hvoice i
    rw [hmode, (h.atPhase (h.mod_lt i) mode).toNat_advance, Looping.toNat_atPhase (h.mod_lt i)]
    rfl
  · rw [entered, if_pos haudible, hlatch]
    exact (h.play bank _ hbank.1).2.2

/-- Four samples by steps of two and three quarters. -/
theorem over_render_looping_steps :
    let v : Voice := { mode := 3, nextStart := 1, nextLength := 4, start := 1, length := 4,
                       phase := 0x8000, step := 0xb000, volume := 1 }
    (v.render ramp 5).over #[7, 7, 7, 7, 7] = #[24, 20, 32, 28, 20] ∧
      (v.render ramp 5).voice.phase = 0xf000 ∧ v.entered ramp 5 = 3 := by
  intro v
  obtain ⟨hframes, -, hphase, -, hentered⟩ := @over_render_looping ramp v (by decide) (by decide)
    (by decide) rfl rfl (by decide) (by decide) (by decide) #[7, 7, 7, 7, 7]
  refine ⟨Array.toList_inj.1 (hframes.trans ?_), UInt32.toNat_inj.1 (hphase.trans ?_),
    hentered.trans ?_⟩ <;> decide +kernel

/-! ## Staying in a region -/

/-- A voice has run out, or is inside its region. -/
def Confined (v : Voice) : Prop := v.length = 0 ∨ v.phase < v.limit

instance (v : Voice) : Decidable v.Confined := instDecidableOr

/-- What such a voice plays next is no more than a step behind its region. -/
theorem Confined.toNat_advance_lt (h : v.Confined) :
    v.length = 0 ∨ v.advance.phase.toNat < v.limit.toNat + v.step.toNat := by
  refine h.imp_right fun hphase => ?_
  have hlt := UInt32.lt_iff_toNat_lt.1 hphase
  have hle := Nat.mod_le (v.phase.toNat + v.step.toNat) (0x100000000)
  rw [toNat_advance]
  omega

theorem confined_release : v.release.Confined ↔ v.Confined := by
  unfold release
  split <;> exact Iff.rfl

/-- What each frame of a voice keeps, all of them keep, up to where it runs
    out. -/
theorem play_keeps {P Q : Voice → Prop}
    (hplays : ∀ {v w f}, P v → v.advance.settle = .plays w f → P w)
    (hout : ∀ {v w}, P v → v.advance.settle = .runsOut w → Q w) (bank : Bank) :
    ∀ (n : Nat) (r : Rendering), P r.voice →
      P (play bank n r).voice ∨ Q (play bank n r).voice
  | 0, _, h => .inl h
  | n + 1, ⟨v, frames, fired⟩, h => by
    rw [play, frame]
    cases hs : v.advance.settle with
    | plays w f => exact play_keeps hplays hout bank n _ (hplays h hs)
    | runsOut w => exact .inr (hout h hs)

/-- The end of a region leads into the next one, or the voice runs out. -/
structure Steady (v : Voice) : Prop where
  phase : v.phase < v.limit
  step : v.nextLength < 4 ∨ v.step ≤ v.nextLimit

theorem Steady.plays {f : Bool} (h : v.Steady) (hs : v.advance.settle = .plays w f) : w.Steady := by
  obtain ⟨hin, hs'⟩ | ⟨-, -, hs'⟩ | ⟨hout, hlong, hs'⟩ := v.advance.settle_cases <;>
    cases hs'.symm.trans hs
  · exact ⟨hin, h.step⟩
  · refine ⟨?_, h.step⟩
    have hstep : v.step ≤ v.nextLimit :=
      h.step.resolve_left (UInt16.not_lt.2 (leastLimit_le_limit_iff.1 hlong))
    have hphase := UInt32.lt_iff_toNat_lt.1 h.phase
    have hle := Nat.mod_le (v.phase.toNat + v.step.toNat) (0x100000000)
    have hpast := UInt32.le_iff_toNat_le.1 (UInt32.not_lt.1 hout)
    have henter := toNat_enter hout
    rw [limit_advance, toNat_advance] at hpast henter
    refine UInt32.lt_iff_toNat_lt.2 ?_
    calc v.advance.enter.phase.toNat < v.step.toNat := by omega
      _ ≤ v.nextLimit.toNat := UInt32.le_iff_toNat_le.1 hstep

theorem Steady.confined_play (h : v.Steady) (bank : Bank) (n : Nat) :
    (play bank n ⟨v, #[], false⟩).voice.Confined := by
  have hplay := play_keeps (P := Steady) (Q := fun w => w.length = 0) Steady.plays
    (fun {v w} _ hs => by
      obtain ⟨-, hs'⟩ | ⟨-, -, hs'⟩ | ⟨-, -, hs'⟩ := v.advance.settle_cases <;>
        cases hs'.symm.trans hs
      rfl) bank n ⟨v, #[], false⟩ h
  exact hplay.symm.imp_right Steady.phase

/-! ## Leaving a region -/

/-- In some frame a voice that plays leaves its region. -/
def Escapes (bank : Bank) (v : Voice) : Prop :=
  ∃ n, ¬ (play bank n ⟨v, #[], false⟩).voice.Confined

theorem escapes_of_not_confined (h : ¬ v.Confined) : v.Escapes bank := ⟨0, h⟩

theorem Escapes.of_plays {f : Bool} (hs : v.advance.settle = .plays w f) :
    w.Escapes bank → v.Escapes bank
  | ⟨n, hn⟩ => by
    refine ⟨n + 1, ?_⟩
    rw [play, frame, hs]
    simp only
    rwa [play_eq]

/-- A voice leaves its region if each frame makes it do so or lowers a
    measure. -/
theorem escapes_of_measure {P : Voice → Prop} (μ : Voice → Nat)
    (hP : ∀ {v : Voice}, P v → v.Escapes bank ∨
      ∃ w f, v.advance.settle = .plays w f ∧ P w ∧ μ w < μ v) {v : Voice} (h : P v) :
    v.Escapes bank := by
  induction hm : μ v using Nat.strongRecOn generalizing v with
  | ind m ih =>
    subst hm
    obtain hescapes | ⟨w, f, hs, hw, hlt⟩ := hP h
    · exact hescapes
    · exact (ih (μ w) hlt hw rfl).of_plays hs

/-- A voice is in its region, but its steps are longer than the next one. -/
structure Hasty (v : Voice) : Prop where
  phase : v.phase < v.limit
  long : leastLimit ≤ v.nextLimit
  step : v.nextLimit < v.step

namespace Hasty

theorem phase_lt (h : v.Hasty) : v.phase.toNat < v.limit.toNat := UInt32.lt_iff_toNat_lt.1 h.phase

theorem step_pos (h : v.Hasty) : 0 < v.step.toNat := by
  have hstep := UInt32.lt_iff_toNat_lt.1 h.step
  omega

/-- In the next region it has not run out. -/
theorem not_confined (h : v.Hasty) (hlength : w.length = v.nextLength)
    (hphase : ¬ w.phase < w.limit) : ¬ w.Confined := by
  have hlong : 4 ≤ v.nextLength := leastLimit_le_nextLimit_iff.1 h.long
  refine not_or.2 ⟨fun hzero => ?_, hphase⟩
  rw [← hlength, hzero] at hlong
  exact absurd hlong (by decide)

/-- The end of its region leads such a voice into the next one, or past that. -/
theorem enter (h : v.Hasty) (hout : ¬ v.advance.phase < v.limit) :
    ∃ w f, v.advance.settle = .plays w f ∧ w.length = v.nextLength ∧
      w.nextLength = v.nextLength ∧ w.step = v.step ∧
      w.phase.toNat = v.advance.phase.toNat - v.limit.toNat ∧ (¬ w.Confined ∨ w.Hasty) := by
  obtain ⟨hin, -⟩ | ⟨-, hlimit, -⟩ | ⟨-, -, hs⟩ := v.advance.settle_cases
  · exact absurd hin hout
  · exact absurd h.long (UInt32.not_le.2 hlimit)
  · have henter := toNat_enter (v := v.advance) hout
    refine ⟨_, _, hs, rfl, rfl, rfl, henter, ?_⟩
    by_cases hphase : v.advance.enter.phase < v.nextLimit
    · exact .inr ⟨hphase, h.long, h.step⟩
    · exact .inl (h.not_confined rfl hphase)

/-- A step of three quarters of all phases or more leads back in the region,
    or far past its end. -/
theorem escapes_of_le_step (h : v.Hasty) (hstep : 0xc0000000 ≤ v.step.toNat) :
    v.Escapes bank := by
  refine escapes_of_measure (P := fun v => v.Hasty ∧ 0xc0000000 ≤ v.step.toNat)
    (fun v => v.phase.toNat) ?_ ⟨h, hstep⟩
  rintro v ⟨h, hstep⟩
  have hphase := h.phase_lt
  have hlimit := v.limit_lt_quarter
  have hword := v.step.toNat_lt
  have hadvance := v.toNat_advance
  by_cases hin : v.advance.phase < v.limit
  · have hlt := UInt32.lt_iff_toNat_lt.1 hin
    refine .inr ⟨v.advance, false, if_pos hin, ⟨⟨hin, h.long, h.step⟩, hstep⟩, ?_⟩
    -- the sum has left 32 bits, or it would be far past the end
    show v.advance.phase.toNat < v.phase.toNat
    omega
  · have hpast := UInt32.le_iff_toNat_le.1 (UInt32.not_lt.1 hin)
    obtain ⟨w, f, hs, hlength, -, -, henter, -⟩ := h.enter hin
    have hnext := w.limit_lt_quarter
    refine .inl ((escapes_of_not_confined (h.not_confined hlength fun hlt => ?_)).of_plays hs)
    have hinside := UInt32.lt_iff_toNat_lt.1 hlt
    omega

/-- In the region that is played over and over, a lesser step leads past the
    end, further than before. -/
theorem escapes_of_length_eq (h : v.Hasty) (hstep : v.step.toNat < 0xc0000000)
    (hlength : v.nextLength = v.length) : v.Escapes bank := by
  refine escapes_of_measure
    (P := fun v => v.Hasty ∧ v.step.toNat < 0xc0000000 ∧ v.nextLength = v.length)
    (fun v => v.limit.toNat - v.phase.toNat) ?_ ⟨h, hstep, hlength⟩
  rintro v ⟨h, hstep, hlength⟩
  have hphase := h.phase_lt
  have hlimit := v.limit_lt_quarter
  have hadvance : v.advance.phase.toNat = v.phase.toNat + v.step.toNat :=
    toNat_advance_of_lt (by omega)
  have hlong : v.limit.toNat < v.step.toNat := by
    rw [toNat_limit, ← hlength, ← toNat_nextLimit]
    exact UInt32.lt_iff_toNat_lt.1 h.step
  have hout : ¬ v.advance.phase < v.limit := fun hin => by
    have hlt := UInt32.lt_iff_toNat_lt.1 hin
    omega
  -- a step is longer than the region, so that the phase grows by what is left of it
  obtain ⟨w, f, hs, hw, hnext, hwstep, henter, hescapes | hhasty⟩ := h.enter hout
  · exact .inl ((escapes_of_not_confined hescapes).of_plays hs)
  · refine .inr ⟨w, f, hs, ⟨hhasty, hwstep ▸ hstep, hnext.trans hw.symm⟩, ?_⟩
    have hsame : w.limit.toNat = v.limit.toNat := by rw [toNat_limit, toNat_limit, hw, hlength]
    omega

/-- A lesser step leads out of the first region. -/
theorem escapes_of_step_lt (h : v.Hasty) (hstep : v.step.toNat < 0xc0000000) :
    v.Escapes bank := by
  refine escapes_of_measure (P := fun v => v.Hasty ∧ v.step.toNat < 0xc0000000)
    (fun v => v.limit.toNat - v.phase.toNat) ?_ ⟨h, hstep⟩
  rintro v ⟨h, hstep⟩
  have hphase := h.phase_lt
  have hlimit := v.limit_lt_quarter
  by_cases hin : v.advance.phase < v.limit
  · have hadvance : v.advance.phase.toNat = v.phase.toNat + v.step.toNat :=
      toNat_advance_of_lt (by omega)
    have hpos := h.step_pos
    refine .inr ⟨v.advance, false, if_pos hin, ⟨⟨hin, h.long, h.step⟩, hstep⟩, ?_⟩
    show v.limit.toNat - v.advance.phase.toNat < v.limit.toNat - v.phase.toNat
    omega
  · obtain ⟨w, f, hs, hw, hnext, hwstep, -, hescapes⟩ := h.enter hin
    refine .inl (Escapes.of_plays hs (hescapes.elim escapes_of_not_confined fun hhasty => ?_))
    exact hhasty.escapes_of_length_eq (hwstep ▸ hstep) (hnext.trans hw.symm)

theorem escapes (h : v.Hasty) (bank : Bank) : v.Escapes bank := by
  by_cases hstep : v.step.toNat < 0xc0000000
  · exact h.escapes_of_step_lt hstep
  · exact h.escapes_of_le_step (Nat.not_lt.1 hstep)

end Hasty

/-- A voice in its region stays there just if its steps are no longer than the
    region to come, or there is none: it does not walk through the rest of the
    bank then, but plays what is no more than a step behind its region. -/
theorem confined_iff (hplaying : v.mode &&& 3 = 3) (hbank : v.InBank bank) (hlong : 4 ≤ v.length)
    (hphase : v.phase < v.limit) :
    ((∀ n, (v.render bank n).voice.Confined) ↔ v.nextLength < 4 ∨ v.step ≤ v.nextLimit) ∧
      ∀ n, (v.render bank n).voice.Confined → (v.render bank n).voice.length = 0 ∨
        (v.render bank n).voice.advance.phase.toNat <
          (v.render bank n).voice.limit.toNat + (v.render bank n).voice.step.toNat := by
  have haudible : v.audible bank = true :=
    audible_iff.2 ⟨hbank, on_of_playing hplaying, leastLimit_le_limit_iff.2 hlong⟩
  have hrender : ∀ n, (v.render bank n).voice = (play bank n ⟨v, #[], false⟩).voice.release :=
    fun n => by
      rw [render, if_pos haudible, latch_of_playing hplaying]
      rfl
  refine ⟨⟨fun hconfined => ?_, fun hstep n => ?_⟩, fun n => Confined.toNat_advance_lt⟩
  · by_contra hhasty
    obtain ⟨hnext, hstep⟩ := not_or.1 hhasty
    have hhasty : v.Hasty := ⟨hphase, leastLimit_le_nextLimit_iff.2 (UInt16.not_lt.1 hnext),
      UInt32.not_le.1 hstep⟩
    obtain ⟨n, hn⟩ := hhasty.escapes bank
    refine hn ?_
    rw [← confined_release, ← hrender]
    exact hconfined n
  · rw [hrender, confined_release]
    exact Steady.confined_play ⟨hphase, hstep⟩ bank n

/-- A voice that goes on from eight samples to four, and by no longer steps than
    those. -/
def shortening : Voice :=
  { mode := 3, nextStart := 8, nextLength := 4, length := 8, step := 0xf000, volume := 64 }

theorem confined_shortening : (∀ n, (shortening.render ramp n).voice.Confined) ∧
    (shortening.render ramp 9).voice.length = 4 :=
  ⟨(confined_iff (by decide) ⟨by decide, by decide⟩ (by decide) (by decide)).1.2 (.inr (by decide)),
    by decide +kernel⟩

/-- Four samples over and over, at the pitch of the highest note and at the least
    output rate. -/
def highPitched : Voice :=
  { mode := 3, nextLength := 4, length := 4, step := playbackStep 113 4000, volume := 64 }

/-- In its third frame it plays the last sample of a bank of sixteen. -/
theorem not_confined_highPitched :
    highPitched.mode &&& 3 = 3 ∧ highPitched.InBank ramp ∧ 4 ≤ highPitched.length ∧
      highPitched.phase < highPitched.limit ∧
      ¬ (highPitched.render ramp 3).voice.Confined ∧
      (highPitched.render ramp 3).frames = #[8 * 256, 12 * 256, 16 * 256] :=
  ⟨by decide, ⟨by decide, by decide⟩, by decide, by decide, by decide +kernel, by decide +kernel⟩

end PaulaReplay.Voice
