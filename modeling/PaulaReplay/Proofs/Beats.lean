/-
  Beats: whether ticks are as long as the tempo that was asked for.

  A sub-song and a speed command may ask for a tempo, of which the clocks of a tick are
  the quotient.  Sixteen bits hold the clocks of the tempos from 28 on.  Those of the
  tempos from 16 to 27 are cut, and the ticks are much too short.

  * `SubSong.tempo?`, `StepCommand.tempo?`: the tempo that is asked for, if it is one;
    `Replay.asks` for a move, and `beat_of_asks` what it sets;
  * `Replay.retimes`: the moves that may set other clocks; `beat_run`: they stay until
    one of them is made;
  * `toNat_clocksOf_of_le`, `toNat_clocksOf_of_lt`: the clocks of a tempo, whole and cut;
  * `Replay.Keeps`: the ticks are those of a tempo; `tempo_kept_iff`: of all requests,
    just those from 28 on are kept.
-/
import PaulaReplay.Proofs.Announcements
import PaulaReplay.Proofs.Playback

namespace PaulaReplay

/-! ## Requests -/

/-- The tempo that a sub-song asks for, if its number is not that of a speed. -/
def SubSong.tempo? (s : SubSong) : Option UInt16 :=
  if 0x10 ≤ s.tempo then some s.tempo else none

/-- The tempo that a command asks for. -/
def StepCommand.tempo? : StepCommand → Option UInt16
  | .speed _ word =>
    if word &&& 0xf200 = 0 ∧ 0xf < word &&& 0x1ff then some (word &&& 0x1ff) else none
  | _ => none

variable {t t' : UInt16}

theorem SubSong.tempoTiming_of_tempo {s : SubSong} (h : s.tempo? = some t) :
    16 ≤ t.toNat ∧ (tempoTiming s.tempo).1 = clocksOf t.toUInt32 := by
  unfold SubSong.tempo? at h
  split at h
  · next hle =>
    obtain rfl := Option.some.inj h
    rw [tempoTiming, if_pos hle]
    exact ⟨UInt16.le_iff_toNat_le.1 hle, rfl⟩
  · cases h

/-- Only a speed command asks for a tempo. -/
theorem StepCommand.speed_of_tempo {c : StepCommand} (h : c.tempo? = some t) :
    16 ≤ t.toNat ∧ ∃ ticks word, c = .speed ticks word ∧
      speedClocks? word = some (clocksOf t.toUInt32) := by
  cases c with
  | speed ticks word =>
    rw [StepCommand.tempo?] at h
    split at h
    · next hword =>
      obtain rfl := Option.some.inj h
      refine ⟨UInt16.lt_iff_toNat_lt.1 hword.2, ticks, word, rfl, ?_⟩
      rw [speedClocks?, if_pos hword]
    · cases h
  | _ => cases h

/-! ## The clocks of a tempo -/

/-- Sixteen bits hold the clocks of a tempo from 28 on. -/
theorem toNat_clocksOf_of_le (h : 28 ≤ t.toNat) :
    (clocksOf t.toUInt32).toNat = 1790456 / t.toNat := by
  have hmost : 1790456 / t.toNat ≤ 1790456 / 28 := Nat.div_le_div_left h (by decide)
  rw [toNat_clocksOf, UInt16.toNat_toUInt32]
  exact Nat.mod_eq_of_lt (by omega)

/-- They lack one bit for those of a tempo from 16 to 27. -/
theorem toNat_clocksOf_of_lt (hl : 16 ≤ t.toNat) (hu : t.toNat < 28) :
    (clocksOf t.toUInt32).toNat + 65536 = 1790456 / t.toNat := by
  have hmost : 1790456 / t.toNat ≤ 1790456 / 16 := Nat.div_le_div_left hl (by decide)
  have hleast : 1790456 / 27 ≤ 1790456 / t.toNat :=
    Nat.div_le_div_left (Nat.le_of_lt_succ hu) (by omega)
  rw [toNat_clocksOf, UInt16.toNat_toUInt32]
  omega

theorem toNat_clocksOf_eq_iff (hl : 16 ≤ t.toNat) :
    (clocksOf t.toUInt32).toNat = 1790456 / t.toNat ↔ 28 ≤ t.toNat := by
  rcases Nat.lt_or_ge t.toNat 28 with hu | hu
  · have hcut := toNat_clocksOf_of_lt hl hu
    exact iff_of_false (by omega) (by omega)
  · exact iff_of_true (toNat_clocksOf_of_le hu) hu

/-- Whole or cut, they are never more than those of the tempo. -/
theorem toNat_clocksOf_le (t : UInt16) : (clocksOf t.toUInt32).toNat ≤ 1790456 / t.toNat := by
  rw [toNat_clocksOf, UInt16.toNat_toUInt32]
  exact Nat.mod_le _ _

/-- A faster tempo has no longer ticks, if both are cut or neither is. -/
theorem clocksOf_anti (hl : 16 ≤ t.toNat) (hle : t ≤ t') (hcut : t.toNat < 28 ↔ t'.toNat < 28) :
    clocksOf t'.toUInt32 ≤ clocksOf t.toUInt32 := by
  have hle : t.toNat ≤ t'.toNat := UInt16.le_iff_toNat_le.1 hle
  have hquotient : 1790456 / t'.toNat ≤ 1790456 / t.toNat := Nat.div_le_div_left hle (by omega)
  rw [UInt16.le_iff_toNat_le]
  rcases Nat.lt_or_ge t.toNat 28 with hu | hu
  · have hslow := toNat_clocksOf_of_lt hl hu
    have hfast := toNat_clocksOf_of_lt (Nat.le_trans hl hle) (hcut.1 hu)
    omega
  · rw [toNat_clocksOf_of_le hu, toNat_clocksOf_of_le (Nat.le_trans hu hle)]
    exact hquotient

/-! ## The tempo of clocks -/

theorem toNat_bpm {clocks : UInt16} (h : 0 < clocks.toNat) :
    (bpm clocks).toNat = 1790456 / clocks.toNat := by
  have hclocks : clocks ≠ 0 := fun h0 => Nat.ne_of_gt h (UInt16.toNat_inj.2 h0)
  rw [bpm, if_neg hclocks, UInt32.toNat_div, UInt16.toNat_toUInt32]
  rfl

theorem clocksOf_pos (hl : 16 ≤ t.toNat) : 0 < (clocksOf t.toUInt32).toNat := by
  have hne : clocksOf t.toUInt32 ≠ 0 :=
    clocksOf_ne_zero (by rwa [UInt16.toNat_toUInt32])
      (by rw [UInt16.toNat_toUInt32]; exact t.toNat_lt)
  exact Nat.pos_of_ne_zero fun h => hne (UInt16.toNat_inj.1 h)

/-- The tempo of the clocks is never below the one that was asked for. -/
theorem le_bpm_clocksOf (hl : 16 ≤ t.toNat) : t.toNat ≤ (bpm (clocksOf t.toUInt32)).toNat := by
  have hpos := clocksOf_pos hl
  have hmul : (clocksOf t.toUInt32).toNat * t.toNat ≤ 1790456 :=
    (Nat.le_div_iff_mul_le (by omega)).1 (toNat_clocksOf_le t)
  rw [toNat_bpm hpos, Nat.le_div_iff_mul_le hpos, Nat.mul_comm]
  exact hmul

/-- That of clocks that are cut is well above it. -/
theorem le_bpm_clocksOf_of_lt (hl : 16 ≤ t.toNat) (hu : t.toNat < 28) :
    38 ≤ (bpm (clocksOf t.toUInt32)).toNat := by
  have hpos := clocksOf_pos hl
  have hmost : 1790456 / t.toNat ≤ 1790456 / 16 := Nat.div_le_div_left hl (by decide)
  have hcut := toNat_clocksOf_of_lt hl hu
  rw [toNat_bpm hpos, Nat.le_div_iff_mul_le hpos]
  omega

/-! ## Moves -/

/-- The clocks of a tick, as the tempo is kept and as the tick clock runs. -/
def Bearing.beat (b : Bearing) : UInt16 × UInt32 := (b.clocks, b.tick)

theorem Bearing.beat_withClocks (b : Bearing) (clocks? : Option UInt16) :
    (b.withClocks clocks?).beat = clocks?.elim b.beat fun clocks => (clocks, clocks.toUInt32) := by
  cases clocks? <;> rfl

/-- A command sets no clocks but its own. -/
theorem StepCommand.beat_steer (c : StepCommand) (b : Bearing) :
    (c.steer b).beat = c.clocks?.elim b.beat fun clocks => (clocks, clocks.toUInt32) := by
  cases c with
  | speed ticks word => exact Bearing.beat_withClocks { b with place.speed := ticks } _
  | timeShare word => exact Bearing.beat_withClocks b _
  | stop | loop | fade | idle => rfl

namespace Replay

variable {score : Score} {rate : UInt32} {r : Replay} {mv : Move}

/-- The clocks of a tick. -/
def beat (r : Replay) : UInt16 × UInt32 := r.bearing.beat

/-- The ticks are as long as a tempo asks for. -/
def Keeps (tempo : UInt16) (r : Replay) : Prop :=
  r.machine.master.clocks.toNat = 1790456 / tempo.toNat ∧
    r.clock.clocks.toNat = 1790456 / tempo.toNat

/-- The last tempo of which the host is told. -/
def lastTempo? (r : Replay) : Option UInt32 := (r.machine.notices.filterMap Notice.tempo?).getLast?

/-- The tempo that a move asks for: that of the sub-song that is entered, or of the command
    that is read. -/
def asks (score : Score) (r : Replay) : Move → Option UInt16
  | .select song => (score.subSong? song).bind SubSong.tempo?
  | .readStep => (score.command? r.place.current).bind StepCommand.tempo?
  | _ => none

/-- Whether a move may set other clocks. -/
def retimes (score : Score) (r : Replay) : Move → Bool
  | .readStep => ((score.command? r.place.current).bind StepCommand.clocks?).isSome
  | .reset _ | .select _ | .aim _ _ => true
  | _ => false

theorem beat_readStep (score : Score) (r : Replay) : (r.readStep score).1.beat =
    ((score.command? r.place.current).bind StepCommand.clocks?).elim r.beat
      fun clocks => (clocks, clocks.toUInt32) := by
  cases hc : score.command? r.place.current with
  | none => exact congrArg Bearing.beat (bearing_readStep_of_no_command hc).1
  | some c =>
    exact (congrArg Bearing.beat (bearing_readStep_of_command hc).1).trans (c.beat_steer r.bearing)

theorem beat_leave (r : Replay) : r.leave.beat = r.beat := congrArg (·.beat) (hushed_leave r)

/-- All other moves leave the clocks. -/
theorem beat_apply (hmv : r.retimes score mv = false) :
    (mv.apply score rate r).beat = r.beat := by
  by_cases haside : mv.isAside = true
  · exact congrArg Bearing.beat (bearing_apply score rate r haside)
  · cases mv with
    | leave => exact beat_leave r
    | giveUp => exact congrArg Bearing.beat (bearing_reachEnd r)
    | readStep =>
      have hnone := Option.not_isSome_iff_eq_none.1 (Bool.eq_false_iff.1 hmv)
      rw [Move.apply, beat_readStep, hnone]
      rfl
    | reset | select | aim => cases hmv
    | _ => exact absurd rfl haside

/-- They stay until a move sets others. -/
theorem beat_run (ms : List Move)
    (hms : Along score rate (fun r mv => r.retimes score mv = false) ms r) :
    (run score rate ms r).beat = r.beat :=
  hms.run (P := fun r' => r'.beat = r.beat) (fun _ _ hr hmv => (beat_apply hmv).trans hr) ms rfl

/-! ## Requests that are kept -/

/-- What a move sets that asks for a tempo. -/
theorem beat_of_asks (rate : UInt32) (h : r.asks score mv = some t) : 16 ≤ t.toNat ∧
    (mv.apply score rate r).beat = (clocksOf t.toUInt32, (clocksOf t.toUInt32).toUInt32) ∧
      (mv.apply score rate r).lastTempo? = some (bpm (clocksOf t.toUInt32)) := by
  cases mv with
  | select song =>
    obtain ⟨s, hs, ht⟩ := Option.bind_eq_some_iff.1 h
    obtain ⟨hl, hclocks⟩ := SubSong.tempoTiming_of_tempo ht
    rw [Move.apply, selectSong, hs, enterSong, ← hclocks]
    exact ⟨hl, rfl, getLast?_enqueue (f := Notice.tempo?) rfl _⟩
  | readStep =>
    obtain ⟨c, hc, ht⟩ := Option.bind_eq_some_iff.1 h
    obtain ⟨hl, ticks, word, rfl, hclocks⟩ := StepCommand.speed_of_tempo ht
    have hbeat := beat_readStep score r
    rw [hc, Option.bind_some, StepCommand.clocks?, hclocks] at hbeat
    refine ⟨hl, hbeat, ?_⟩
    rw [Move.apply, readStep_of_command hc, obey, obeySpeed, hclocks]
    exact getLast?_enqueue_enqueue (f := Notice.tempo?) rfl rfl _
  | _ => cases h

/-- A tempo that a move asks for is kept if and only if it is 28 or more, and then until
    another move sets the clocks; the clocks of a slower one are cut to sixteen bits.  The
    host is told of a tempo that is never below the one that was asked for, but in the
    place of one that is cut of at least 38.  Of two tempos that are kept, the faster one
    never has the longer ticks. -/
theorem tempo_kept_iff (hasked : r.asks score mv = some t) {ms : List Move}
    (hms : Along score rate (fun r mv => r.retimes score mv = false) ms (mv.apply score rate r)) :
    ((run score rate (mv :: ms) r).Keeps t ↔ 28 ≤ t) ∧
    (t < 28 → (run score rate (mv :: ms) r).machine.master.clocks.toNat + 65536 =
      1790456 / t.toNat ∧ (run score rate (mv :: ms) r).clock.clocks.toNat + 65536 =
        1790456 / t.toNat) ∧
    (∃ beats, (mv.apply score rate r).lastTempo? = some beats ∧ t.toNat ≤ beats.toNat ∧
      (t < 28 → 38 ≤ beats)) ∧
    (∀ (score' : Score) (rate' : UInt32) (r' : Replay) (mv' : Move) (t' : UInt16),
      r'.asks score' mv' = some t' → t ≤ t' → (t < 28 ↔ t' < 28) →
        (mv'.apply score' rate' r').machine.master.clocks ≤
          (mv.apply score rate r).machine.master.clocks ∧
        (mv'.apply score' rate' r').clock.clocks ≤ (mv.apply score rate r).clock.clocks) := by
  obtain ⟨hl, hbeat, htold⟩ := beat_of_asks rate hasked
  have hrun : (run score rate (mv :: ms) r).beat =
      (clocksOf t.toUInt32, (clocksOf t.toUInt32).toUInt32) := (beat_run ms hms).trans hbeat
  have hclocks : (run score rate (mv :: ms) r).machine.master.clocks = clocksOf t.toUInt32 :=
    congrArg Prod.fst hrun
  have htick : (run score rate (mv :: ms) r).clock.clocks.toNat = (clocksOf t.toUInt32).toNat := by
    rw [← UInt16.toNat_toUInt32]
    exact congrArg (·.2.toNat) hrun
  refine ⟨?_, fun hu => ?_, ⟨_, htold, le_bpm_clocksOf hl, fun hu => ?_⟩,
    fun score' rate' r' mv' t' hasked' hle hcut => ?_⟩
  · rw [Keeps, hclocks, htick, and_self, UInt16.le_iff_toNat_le]
    exact toNat_clocksOf_eq_iff hl
  · rw [hclocks, htick, and_self]
    exact toNat_clocksOf_of_lt hl (UInt16.lt_iff_toNat_lt.1 hu)
  · exact UInt32.le_iff_toNat_le.2 (le_bpm_clocksOf_of_lt hl (UInt16.lt_iff_toNat_lt.1 hu))
  · obtain ⟨-, hbeat', -⟩ := beat_of_asks rate' hasked'
    rw [UInt16.lt_iff_toNat_lt, UInt16.lt_iff_toNat_lt] at hcut
    have hanti := clocksOf_anti hl hle hcut
    obtain ⟨hfirst, hsecond⟩ := Prod.mk.inj hbeat
    obtain ⟨hfirst', hsecond'⟩ := Prod.mk.inj hbeat'
    refine ⟨?_, ?_⟩
    · show (mv'.apply score' rate' r').bearing.clocks ≤ (mv.apply score rate r).bearing.clocks
      rw [hfirst, hfirst']
      exact hanti
    · show (mv'.apply score' rate' r').bearing.tick ≤ (mv.apply score rate r).bearing.tick
      rw [hsecond, hsecond', UInt32.le_iff_toNat_le, UInt16.toNat_toUInt32, UInt16.toNat_toUInt32]
      exact UInt16.le_iff_toNat_le.1 hanti

end Replay

namespace Player

/-! ## A tempo that is kept, and one that is cut -/

/-- A tune that asks for a tempo. -/
def pacedTune (tempo : UInt16) : ByteArray := smallTune tempo [0xf3ff0000] [0x07000000]

/-- The moves that begin its song once it is entered. -/
def pacedMoves : List Replay.Move := [.readStep, .enable 0]

/-- What a player has been asked for as its song was entered, whether the moves since then
    were these and none of them set other clocks, and the clocks. -/
structure Paced where
  asked : Option UInt16
  made : Bool
  along : Bool
  beat : UInt16 × UInt32
deriving DecidableEq

def paced (p : Player) : Paced :=
  let r := (Replay.initial false).reset
  { asked := r.asks p.tune.score (.select 0)
    made := decide (p.replay = Replay.run p.tune.score minRate (.select 0 :: pacedMoves) r)
    along := decide (Replay.Along p.tune.score minRate
      (fun r mv => r.retimes p.tune.score mv = false) pacedMoves (r.selectSong p.tune.score 0))
    beat := p.replay.beat }

theorem paced_28 : ((load (pacedTune 28) (some ⟨#[]⟩)).toOption.bind fun tune =>
    (Player.new tune minRate).toOption.map paced) = some ⟨some 28, true, true, 63944, 63944⟩ := by
  decide +kernel

theorem paced_27 : ((load (pacedTune 27) (some ⟨#[]⟩)).toOption.bind fun tune =>
    (Player.new tune minRate).toOption.map paced) = some ⟨some 27, true, true, 777, 777⟩ := by
  decide +kernel

/-- The slowest tempo that is kept. -/
theorem tempo_kept_pacedTune : ∃ (tune : Tune) (p : Player),
    load (pacedTune 28) (some ⟨#[]⟩) = .ok tune ∧ Player.new tune minRate = .ok p ∧
      (Replay.initial false).reset.asks tune.score (.select 0) = some 28 ∧
      Replay.Along tune.score minRate (fun r mv => r.retimes tune.score mv = false) pacedMoves
        ((Replay.initial false).reset.selectSong tune.score 0) ∧
      p.replay.Keeps 28 ∧ p.replay.machine.master.clocks = 63944 := by
  obtain ⟨tune, p, hload, hnew, h⟩ := exists_new paced_28
  obtain rfl := new_tune hnew
  have hasked : (Replay.initial false).reset.asks p.tune.score (.select 0) = some 28 :=
    congrArg Paced.asked h
  have hmade := of_decide_eq_true (congrArg Paced.made h)
  have halong := of_decide_eq_true (congrArg Paced.along h)
  have hkept := (Replay.tempo_kept_iff hasked halong).1.2 (by decide)
  refine ⟨p.tune, p, hload, hnew, hasked, halong, ?_, congrArg (·.beat.1) h⟩
  rw [hmade]
  exact hkept

/-- The fastest tempo that is cut: its ticks should be longer than those of the next one,
    and are eighty times shorter. -/
theorem tempo_cut_pacedTune : ∃ (tune tune' : Tune) (p p' : Player),
    load (pacedTune 27) (some ⟨#[]⟩) = .ok tune ∧ Player.new tune minRate = .ok p ∧
      load (pacedTune 28) (some ⟨#[]⟩) = .ok tune' ∧ Player.new tune' minRate = .ok p' ∧
      (Replay.initial false).reset.asks tune.score (.select 0) = some 27 ∧
      (Replay.initial false).reset.asks tune'.score (.select 0) = some 28 ∧
      p.replay.beat = (777, 777) ∧ ¬ p.replay.Keeps 27 ∧ p'.replay.beat = (63944, 63944) := by
  obtain ⟨tune, p, hload, hnew, h⟩ := exists_new paced_27
  obtain ⟨tune', p', hload', hnew', h'⟩ := exists_new paced_28
  obtain rfl := new_tune hnew
  obtain rfl := new_tune hnew'
  have hbeat : p.replay.beat = (777, 777) := congrArg Paced.beat h
  have hclocks : p.replay.machine.master.clocks = 777 := congrArg Prod.fst hbeat
  refine ⟨p.tune, p'.tune, p, p', hload, hnew, hload', hnew', congrArg Paced.asked h,
    congrArg Paced.asked h', hbeat, fun hkept => ?_, congrArg Paced.beat h'⟩
  have hquotient := hkept.1
  rw [hclocks] at hquotient
  exact absurd hquotient (by decide)

end Player

end PaulaReplay
