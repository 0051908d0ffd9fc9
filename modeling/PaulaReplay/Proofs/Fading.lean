/-
  Fading: where a fade takes the master volume.

  A fade has a timer, which counts in the share of each channel whose effects go on; when
  it is over the volume goes one on, and where it then is the target the fade ends.  A
  fade to the volume that there is already starts upwards, so it is not at its target
  before the volume has gone all the way round; only one that is set at once is safe from
  that.

  * `Fade.Underway`: a fade heads for its target, or has ended there; `Underway.advance`:
    a step of it keeps that, nears the target, and takes one off what is left;
  * `Replay.fadeSteps`: how often a fade is advanced in some moves; `fade_run`: this is all
    that happens to it as long as no other one is started;
  * `Replay.fade_arrives_iff`: a fade arrives, in as many steps as its speed and its way
    say, if and only if it is set at once or does not start at its target.
-/
import PaulaReplay.Proofs.Approach
import PaulaReplay.Proofs.Positions
import PaulaReplay.Proofs.Volume

namespace PaulaReplay

variable {score : Score} {rate : UInt32}

/-! ## Fades -/

namespace Fade

variable {f : Fade} {speed target : Int8}

/-- How far the volume is from the target. -/
def way (f : Fade) : Nat := (f.target.toInt - f.volume.toInt).natAbs

/-- The steps that are left at most. -/
def left (f : Fade) : Nat := stepsLeft f.time.toInt.toNat f.reset.toInt.toNat f.way

/-- A fade that heads for its target, or has ended there. -/
structure Underway (f : Fade) : Prop where
  tame : f.Tame
  ended : f.slope = 0 → f.volume = f.target
  time : f.slope ≠ 0 → 0 < f.time.toInt
  reset : f.slope ≠ 0 → 0 < f.reset.toInt

theorem way_eq_zero_iff : f.way = 0 ↔ f.volume = f.target := by
  rw [← Int8.toInt_inj, way]
  omega

theorem advance_of_ended (h : f.slope = 0) : f.advance = f := if_pos h

theorem advance_of_counting (h : f.slope ≠ 0) (ht : f.time - 1 ≠ 0) :
    f.advance = { f with time := f.time - 1 } := by
  unfold advance
  rw [if_neg h]
  exact if_pos ht

theorem advance_of_due (h : f.slope ≠ 0) (ht : f.time - 1 = 0) :
    f.advance = { f with
      time := f.reset
      volume := f.volume + f.slope
      slope := if f.target = f.volume + f.slope then 0 else f.slope } := by
  unfold advance
  rw [if_neg h]
  simp only
  rw [if_neg (not_not.2 ht)]
  split <;> rfl

theorem toInt_time_sub_one (h : 0 < f.time.toInt) : (f.time - 1).toInt = f.time.toInt - 1 := by
  have hlt := f.time.toInt_lt
  rw [toInt_sub_of_le] <;> simp <;> omega

/-- When the timer is over, the volume comes one nearer to its target. -/
theorem Tame.move (h : f.Tame) (hs : f.slope ≠ 0) :
    Nears f.target.toInt f.volume.toInt (f.volume + f.slope).toInt ∧
      (f.target.toInt - (f.volume + f.slope).toInt).natAbs < f.way := by
  obtain ⟨hlo, hhi⟩ := h.volume
  unfold Nears way
  rcases h.slope with h0 | ⟨hdown, -, hlt⟩ | ⟨hup, -, hlt⟩
  · exact absurd h0 hs
  · have hadd : (f.volume + f.slope).toInt = f.volume.toInt - 1 := by
      rw [toInt_add_of_le] <;> rw [hdown] <;> simp <;> omega
    omega
  · have hadd : (f.volume + f.slope).toInt = f.volume.toInt + 1 := by
      rw [toInt_add_of_le] <;> rw [hup] <;> simp <;> omega
    omega

theorem Underway.advance (h : f.Underway) : f.advance.Underway ∧ f.advance.target = f.target ∧
    Nears f.target.toInt f.volume.toInt f.advance.volume.toInt ∧ f.advance.left ≤ f.left - 1 := by
  have htame := h.tame.advance
  by_cases hs : f.slope = 0
  · have hleft : f.left = 0 := by
      rw [left, way_eq_zero_iff.2 (h.ended hs), stepsLeft_zero]
    rw [advance_of_ended hs]
    exact ⟨h, rfl, .refl _ _, by omega⟩
  · have hpos := h.time hs
    have htime := toInt_time_sub_one hpos
    by_cases ht : f.time - 1 = 0
    · -- the timer is over: the way is shorter now, and the timer is set anew
      have h1 : f.time.toInt = 1 := by
        rw [ht, Int8.toInt_zero] at htime
        omega
      obtain ⟨hnears, hway⟩ := h.tame.move hs
      rw [advance_of_due hs ht] at htame ⊢
      refine ⟨⟨htame, fun hend => ?_, fun _ => h.reset hs, fun _ => h.reset hs⟩, rfl, hnears, ?_⟩
      · simp only at hend ⊢
        split at hend
        · next he => exact he.symm
        · exact absurd hend hs
      · have hmove := stepsLeft_move f.reset.toInt.toNat hway
        rw [left, left, h1]
        exact hmove
    · rw [advance_of_counting hs ht] at htame ⊢
      have hne : (f.time - 1).toInt ≠ 0 := fun he =>
        ht (Int8.toInt_inj.1 (he.trans Int8.toInt_zero.symm))
      refine ⟨⟨htame, h.ended, fun _ => ?_, h.reset⟩, rfl, .refl _ _, ?_⟩
      · simp only
        omega
      · have hcount := stepsLeft_count (f.time - 1).toInt.toNat f.reset.toInt.toNat f.way
        rw [show (f.time - 1).toInt.toNat + 1 = f.time.toInt.toNat by omega] at hcount
        exact hcount

/-- A fade that is under way arrives, and has ended then. -/
theorem Underway.arrives (h : f.Underway) :
    ArrivesBy f.left f.volume.toInt f.target.toInt (fun n => (Fade.advance^[n] f).volume.toInt) ∧
      ∀ n, f.left ≤ n → (Fade.advance^[n] f).slope = 0 := by
  have hkeep : ∀ g : Fade, g.Underway ∧ g.target = f.target →
      g.advance.Underway ∧ g.advance.target = f.target := fun g ⟨hg, htarget⟩ =>
    ⟨hg.advance.1, hg.advance.2.1.trans htarget⟩
  have hleft : ∀ g : Fade, g.Underway ∧ g.target = f.target → g.advance.left ≤ g.left - 1 :=
    fun g hg => hg.1.advance.2.2.2
  -- nothing is left where the volume is the target, for the timer of a slide is not over
  have hdone : ∀ g : Fade, g.Underway → g.left = 0 → g.slope = 0 ∧ g.volume = g.target := by
    intro g hg h0
    by_cases hs : g.slope = 0
    · exact ⟨hs, hg.ended hs⟩
    · have htime := hg.time hs
      have hway := way_eq_zero_iff.1 ((stepsLeft_eq_zero_iff (by omega)).1 h0)
      rw [← Int8.toInt_inj] at hway
      rcases hg.tame.slope with h0 | ⟨-, -, hlt⟩ | ⟨-, -, hlt⟩
      · exact absurd h0 hs
      · omega
      · omega
  constructor
  · refine arrivesBy_of_left (v := fun g => g.volume.toInt) hkeep (fun g hg => ?_) hleft
      (fun g hg h0 => ?_) ⟨h, rfl⟩
    · exact hg.2 ▸ hg.1.advance.2.2.1
    · exact hg.2 ▸ congrArg Int8.toInt (hdone g hg.1 h0).2
  · intro n hn
    have hle := left_iterate_le hkeep hleft n ⟨h, rfl⟩
    exact (hdone _ (iterate_keeps hkeep n ⟨h, rfl⟩).1 (by omega)).1

/-! ### The start of a fade -/

/-- A fade is set at once, or does not start at its target. -/
def Heads (f : Fade) (speed target : Int8) : Prop :=
  speed = 0 ∨ f.volume = speed ∨ target ≠ f.volume

instance (f : Fade) (speed target : Int8) : Decidable (f.Heads speed target) :=
  inferInstanceAs (Decidable (_ ∨ _))

theorem start_of_set (h : speed = 0 ∨ f.volume = speed) : f.start speed target =
    { f with target, time := speed, reset := speed, volume := target, slope := 0 } := if_pos h

theorem start_of_slow (h : ¬(speed = 0 ∨ f.volume = speed)) : f.start speed target =
    { f with
      target, time := speed, reset := speed, slope := if f.volume > target then -1 else 1 } :=
  if_neg h

theorem target_start (f : Fade) (speed target : Int8) : (f.start speed target).target = target := by
  unfold start
  simp only
  split <;> rfl

/-- A fade that heads for its target is under way from the start, with as many steps before
    it as the way and the speed say. -/
theorem underway_start (hvolume : Level f.volume) (htarget : Level target) (hspeed : 0 ≤ speed)
    (h : f.Heads speed target) : (f.start speed target).Underway ∧
      (f.start speed target).left ≤ speed.toInt.toNat * (target.toInt - f.volume.toInt).natAbs ∧
      Nears target.toInt f.volume.toInt (f.start speed target).volume.toInt := by
  have hmoderate : f.moderate speed target = true := by
    simp only [moderate, Bool.and_eq_true, Bool.or_eq_true, decide_eq_true_eq, beq_iff_eq,
      bne_iff_ne, Int8.le_iff_toInt_le]
    exact ⟨htarget, or_assoc.2 h⟩
  have htame : (f.start speed target).Tame :=
    Tame.start (f := { f with slope := 0 }) (tame_still hvolume rfl) hmoderate
  rw [Int8.le_iff_toInt_le, Int8.toInt_zero] at hspeed
  by_cases hset : speed = 0 ∨ f.volume = speed
  · rw [start_of_set hset] at htame ⊢
    refine ⟨⟨htame, fun _ => rfl, fun hne => absurd rfl hne, fun hne => absurd rfl hne⟩, ?_,
      nears_goal _ _⟩
    rw [left, way_eq_zero_iff.2 rfl, stepsLeft_zero]
    exact Nat.zero_le _
  · have hpos : 0 < speed.toInt := by
      have hne : speed.toInt ≠ 0 := fun he =>
        hset (.inl (Int8.toInt_inj.1 (he.trans Int8.toInt_zero.symm)))
      omega
    rw [start_of_slow hset] at htame ⊢
    refine ⟨⟨htame, fun hs => ?_, fun _ => hpos, fun _ => hpos⟩, ?_, .refl _ _⟩
    · simp only at hs
      split at hs <;> exact absurd hs (by decide)
    · rw [left, stepsLeft_self]
      exact Nat.le_refl _

/-- The timer of a fade that has not ended is over after as many steps as it says, and then
    the volume moves, wherever the target is. -/
theorem volume_after_time : ∀ (n : Nat) {f : Fade}, f.slope ≠ 0 → f.time.toInt = n + 1 →
    (Fade.advance^[n + 1] f).volume = f.volume + f.slope
  | 0, f, hs, ht => by
    have hdue : f.time - 1 = 0 := by
      rw [← Int8.toInt_inj, toInt_time_sub_one (by omega), ht]
      rfl
    rw [Function.iterate_one, advance_of_due hs hdue]
  | n + 1, f, hs, ht => by
    have hsub := toInt_time_sub_one (f := f) (by omega)
    have hcounting : f.time - 1 ≠ 0 := by
      intro he
      rw [he, Int8.toInt_zero] at hsub
      omega
    have hnext := advance_of_counting hs hcounting
    have htime : f.advance.time.toInt = n + 1 := by
      rw [hnext]
      show (f.time - 1).toInt = n + 1
      omega
    rw [Function.iterate_succ_apply, volume_after_time n (by rwa [hnext]) htime, hnext]

/-- A fade from its target goes away from it, upwards. -/
theorem volume_of_not_heads (htarget : Level target) (hspeed : 0 ≤ speed)
    (h : ¬ f.Heads speed target) :
    (Fade.advance^[speed.toInt.toNat] (f.start speed target)).volume.toInt =
      target.toInt + 1 := by
  simp only [Heads, not_or, not_not] at h
  obtain ⟨h0, hvolume, rfl⟩ := h
  rw [Int8.le_iff_toInt_le, Int8.toInt_zero] at hspeed
  have hpos : speed.toInt ≠ 0 := fun he => h0 (Int8.toInt_inj.1 (he.trans Int8.toInt_zero.symm))
  have hstart : f.start speed f.volume = { f with
      target := f.volume, time := speed, reset := speed, slope := 1 } := by
    rw [start_of_slow (not_or.2 ⟨h0, hvolume⟩), if_neg Int8.lt_irrefl]
  obtain ⟨n, hn⟩ : ∃ n : Nat, speed.toInt = n + 1 := ⟨speed.toInt.toNat - 1, by omega⟩
  have hup : (1 : Int8) ≠ 0 := by decide
  obtain ⟨hlo, hhi⟩ := htarget
  rw [show speed.toInt.toNat = n + 1 by omega, hstart, volume_after_time n hup hn,
    toInt_add_of_le] <;> simp <;> omega

end Fade

/-! ## Replays -/

namespace Replay

variable {r : Replay} {speed target : Int8} {f : Fade}

/-- A move starts a fade, or sets the master volume for a sub-song. -/
def setsFade (score : Score) (r : Replay) : Move → Bool
  | .word i =>
    match (Tracks.step score i r.tracks).request with
    | some (.fade _ _) => true
    | _ => false
  | .readStep =>
    match (score.trackStep? r.place.current).bind TrackStep.command? with
    | some (.fade _ _) => true
    | _ => false
  | .reset _ | .select _ => true
  | _ => false

/-- None of some moves does so. -/
def KeepsFade (score : Score) (rate : UInt32) (ms : List Move) (r : Replay) : Prop :=
  Along score rate (fun r mv => r.setsFade score mv = false) ms r

instance (ms : List Move) : Decidable (KeepsFade score rate ms r) := decidableAlong ms r

/-- A move is the share of a channel whose effects go on. -/
def advancesFade (r : Replay) : Move → Bool
  | .machine (.bend i) => 0 < r.machine.channels[i].bending
  | _ => false

/-- How many of some moves are. -/
def fadeSteps (score : Score) (rate : UInt32) : List Move → Replay → Nat
  | [], _ => 0
  | mv :: ms, r =>
    fadeSteps score rate ms (mv.apply score rate r) + if r.advancesFade mv then 1 else 0

theorem fade_of_sounding {m m' : Machine} (h : m'.sounding = m.sounding) :
    m'.master.fade = m.master.fade := congrArg (fun s => s.2.2) h

theorem fade_bend (m : Machine) (i : Slot) : (m.bend i).master.fade =
    if 0 < m.channels[i].bending then m.master.fade.advance else m.master.fade := by
  unfold Machine.bend
  simp only [Int8.lt_iff_toInt_lt, ← Int8.toInt_inj, Int8.toInt_zero]
  split_ifs <;> first | rfl | omega

/-- Of the moves of a channel only that share matters to a fade. -/
theorem fade_machine_apply (m : Machine) {mv : Machine.Move} (h : ∀ i, mv ≠ .bend i) :
    (mv.apply score rate m).master.fade = m.master.fade := by
  cases mv with
  | bend i => exact absurd rfl (h i)
  | takeEffect i =>
    rw [Machine.Move.apply, Machine.takeEffect]
    split <;> rfl
  | word i =>
    rw [Machine.Move.apply, Machine.runWord]
    split <;> rfl
  | _ => rfl

/-- A move that starts no fade advances the one in hand, or leaves it. -/
theorem fade_apply {mv : Move} (h : r.setsFade score mv = false) :
    (mv.apply score rate r).machine.master.fade =
      if r.advancesFade mv then r.machine.master.fade.advance else r.machine.master.fade := by
  cases mv with
  | machine mv =>
    cases mv with
    | bend i =>
      refine (fade_bend r.machine i).trans ?_
      simp only [advancesFade, decide_eq_true_eq]
    | _ => exact fade_machine_apply r.machine (by simp)
  | enter i =>
    show (r.enterTrack i).machine.master.fade = _
    unfold enterTrack
    cases Tracks.enter i r.tracks with
    | idle | runs => rfl
    | switchesOff tracks channel =>
      show (r.machine.channelOff channel).master.fade = _
      unfold Machine.channelOff
      split
      · simp only
        split <;> rfl
      · rfl
  | word i =>
    unfold setsFade at h
    show (r.machine.grant? score (Tracks.step score i r.tracks).request).master.fade = _
    cases hq : (Tracks.step score i r.tracks).request with
    | none => rfl
    | some request =>
      simp only [hq] at h
      cases request with
      | fade => cases h
      | endSong => exact fade_of_sounding (sounding_reachEnd _)
      | dispatch | cue | endPattern => rfl
  | leave => exact fade_of_sounding (sounding_leave r)
  | readStep =>
    rcases sounding_readStep r score with hs | ⟨s, speed, target, hstep, hcmd, -⟩
    · exact fade_of_sounding hs
    · rw [greetFirst_current] at hstep
      simp only [setsFade, hstep, Option.bind_some, hcmd] at h
      cases h
  | giveUp => exact fade_of_sounding (sounding_reachEnd _)
  | reset | select => cases h
  | aim position e => exact fade_of_sounding (sounding_aim r position e)
  | begin | countTick | startRow | stop | enable | announce | drain | render | reserve => rfl

/-- A run of such moves advances it once in the share of each channel whose effects go on. -/
theorem fade_run : ∀ (ms : List Move) {r : Replay}, KeepsFade score rate ms r →
    (run score rate ms r).machine.master.fade =
      Fade.advance^[fadeSteps score rate ms r] r.machine.master.fade
  | [], _, _ => rfl
  | mv :: ms, r, ⟨hmv, hms⟩ => by
    rw [run_cons, fade_run ms hms, fade_apply hmv, fadeSteps]
    split
    · rw [Function.iterate_succ_apply]
    · rfl

/-- A fade goes to its target and stops there: the volume stays between the one that it
    started from and the target, never turns back, and has come there after as many steps as
    the speed says for each one of the way; a step is the share of a channel whose effects
    go on.  This is so if and only if the fade is set at once or does not start at its
    target.  One that does start there leaves it, upwards, as soon as its timer is over. -/
theorem fade_arrives_iff (score : Score) (rate : UInt32)
    (hr : r.machine.master.fade = f.start speed target) (hvolume : Level f.volume)
    (htarget : Level target) (hspeed : 0 ≤ speed) :
    let fade := fun n => Fade.advance^[n] r.machine.master.fade
    let steps := speed.toInt.toNat * (target.toInt - f.volume.toInt).natAbs
    (∀ ms, KeepsFade score rate ms r →
      (run score rate ms r).machine.master.fade = fade (fadeSteps score rate ms r)) ∧
    ((ArrivesBy steps f.volume.toInt target.toInt (fun n => (fade n).volume.toInt) ∧
      ∀ n, steps ≤ n → (fade n).slope = 0) ↔ f.Heads speed target) ∧
    (¬ f.Heads speed target → (fade speed.toInt.toNat).volume.toInt = target.toInt + 1) := by
  intro fade steps
  have haway : ¬ f.Heads speed target →
      (fade speed.toInt.toNat).volume.toInt = target.toInt + 1 := by
    intro hnot
    simp only [fade, hr]
    exact Fade.volume_of_not_heads htarget hspeed hnot
  refine ⟨fun ms hms => fade_run ms hms, ⟨fun ⟨harrives, _⟩ => ?_, fun h => ?_⟩, haway⟩
  · by_contra hnot
    -- there is no way to go, so the volume is the target all the time
    have hvolume : target = f.volume := by
      by_contra hne
      exact hnot (.inr (.inr hne))
    have hsteps : steps = 0 := by simp [steps, hvolume]
    have hthere := harrives.there speed.toInt.toNat (hsteps ▸ Nat.zero_le _)
    have haway := haway hnot
    omega
  · obtain ⟨hway, hleft, hnears⟩ := Fade.underway_start hvolume htarget hspeed h
    obtain ⟨harrives, hended⟩ := hway.arrives
    rw [Fade.target_start] at harrives
    simp only [fade, hr]
    exact ⟨harrives.of_le hnears hleft, fun n hn => hended n (hleft.trans hn)⟩

end Replay

namespace Player

/-- A tune that begins with a fade of speed 1, and then plays nothing. -/
def fadeTune (target : UInt16) : ByteArray :=
  commandedTune 0x1000 [[0xeffe, 4, 1, target, 0, 0, 0, 0]] [0xf3ff0000] [0x07000000]

/-- In two ticks a fade from the full volume to the half comes four steps near, and it
    arrives after 32 of them. -/
theorem fade_arrives_fadeTune : ∃ tune p, load (fadeTune 0x20) (some ⟨#[]⟩) = .ok tune ∧
    Player.new tune minRate = .ok p ∧
      p.replay.machine.master.fade = ({ volume := 0x40 } : Fade).start 1 0x20 ∧
      Replay.KeepsFade p.tune.score p.rate (p.ticksMoves 2) p.replay ∧
      p.tick.tick.replay.machine.master.fade = Fade.advance^[4] p.replay.machine.master.fade ∧
      p.tick.tick.replay.machine.master.fade.volume = 0x3c ∧
      ArrivesBy 32 0x40 0x20 fun n =>
        (Fade.advance^[n] p.replay.machine.master.fade).volume.toInt := by
  have h : ((load (fadeTune 0x20) (some ⟨#[]⟩)).toOption.bind fun tune =>
      (Player.new tune minRate).toOption.map fun p =>
        (p.replay.machine.master.fade,
          decide (Replay.KeepsFade p.tune.score p.rate (p.ticksMoves 2) p.replay),
          Replay.fadeSteps p.tune.score p.rate (p.ticksMoves 2) p.replay,
          p.tick.tick.replay.machine.master.fade.volume)) =
        some (({ volume := 0x40 } : Fade).start 1 0x20, true, 4, 0x3c) := by decide +kernel
  obtain ⟨tune, p, hload, hnew, h⟩ := exists_new h
  simp only [Prod.mk.injEq, decide_eq_true_eq] at h
  obtain ⟨hfade, hkeeps, hsteps, hvolume⟩ := h
  have hhalf : Level 0x20 := ⟨by decide, by decide⟩
  have hlaw := Replay.fade_arrives_iff p.tune.score p.rate hfade level_full hhalf (by decide)
  have hrun := hlaw.1 _ hkeeps
  rw [hsteps] at hrun
  have hafter : p.tick.tick.replay.machine.master.fade =
      Fade.advance^[4] p.replay.machine.master.fade := by
    rw [show p.tick.tick = tick^[2] p from rfl, ← run_ticksMoves]
    exact hrun
  exact ⟨tune, p, hload, hnew, hfade, hkeeps, hafter, hvolume, (hlaw.2.1.2 (by decide)).1⟩

/-- A fade to the volume that there is already leaves it: four steps later the volume is
    four above its target. -/
theorem fade_runs_away : ∃ tune p, load (fadeTune 0x40) (some ⟨#[]⟩) = .ok tune ∧
    Player.new tune minRate = .ok p ∧
      p.replay.machine.master.fade = ({ volume := 0x40 } : Fade).start 1 0x40 ∧
      Replay.KeepsFade p.tune.score p.rate (p.ticksMoves 2) p.replay ∧
      p.tick.tick.replay.machine.master.fade.target = 0x40 ∧
      p.tick.tick.replay.machine.master.fade.volume = 0x44 ∧
      ¬ ArrivesBy 0 0x40 0x40 fun n =>
        (Fade.advance^[n] p.replay.machine.master.fade).volume.toInt := by
  have h : ((load (fadeTune 0x40) (some ⟨#[]⟩)).toOption.bind fun tune =>
      (Player.new tune minRate).toOption.map fun p =>
        (p.replay.machine.master.fade,
          decide (Replay.KeepsFade p.tune.score p.rate (p.ticksMoves 2) p.replay),
          p.tick.tick.replay.machine.master.fade.target,
          p.tick.tick.replay.machine.master.fade.volume)) =
        some (({ volume := 0x40 } : Fade).start 1 0x40, true, 0x40, 0x44) := by decide +kernel
  obtain ⟨tune, p, hload, hnew, h⟩ := exists_new h
  simp only [Prod.mk.injEq, decide_eq_true_eq] at h
  obtain ⟨hfade, hkeeps, htarget, hvolume⟩ := h
  refine ⟨tune, p, hload, hnew, hfade, hkeeps, htarget, hvolume, fun harrives => ?_⟩
  have hone := harrives.there 1 (Nat.zero_le 1)
  rw [hfade] at hone
  exact absurd hone (by decide)

end Player

end PaulaReplay
