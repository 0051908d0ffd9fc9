/-
  Players alike: the sound of ticks depends on the replay alone.

  A mixer keeps its buffers from tick to tick, and a player counts the ends of
  its song and what is in buffers.  None of this is heard in a tick.

  * `Player.Alike`: two players of one tune at one rate, with equal replays;
  * `Alike.tick`: they stay alike in a tick, and their mixers are equal after
    it;
  * `Alike.played_eq`: they play the same from then on;
  * `Alike.ticks_eq`: so it is for any number of ticks and all output
    channels, those that are not heard included.
-/
import PaulaReplay.Proofs.Playback

namespace PaulaReplay.Player

/-- Two players of one tune at one rate stand at the same place in it. -/
structure Alike (p q : Player) : Prop where
  tune : p.tune = q.tune
  rate : p.rate = q.rate
  replay : p.replay = q.replay

theorem alike_restore {p q : Player} (ht : p.tune = q.tune) (hr : p.rate = q.rate) (r : Replay) :
    Alike (p.restore r) (q.restore r) := ⟨ht, hr, rfl⟩

/-- The sound of a tick is made of the replay alone, in whatever buffers. -/
theorem render_congr (bank : Bank) (rate : UInt32) (r : Replay) (m m' : Mixer) :
    render bank rate m r = render bank rate m' r := by
  unfold render
  simp only
  rw [Mixer.play_congr bank _ _ _ m m']

theorem tick_mixer (p : Player) :
    p.tick.mixer = (render p.tune.score.bank p.rate p.mixer p.advanced).1 := rfl

theorem tick_replay (p : Player) :
    p.tick.replay = (render p.tune.score.bank p.rate p.mixer p.advanced).2 := rfl

/-- A tick does not change how many voices are heard after its sound is made. -/
theorem tick_multi (p : Player) : p.tick.replay.machine.multi = p.tick.mix.multi := rfl

/-! ## Tunes -/

theorem start_tune {p q : Player} {song : Nat} (h : p.start song = .ok q) : q.tune = p.tune := by
  unfold start at h
  split at h
  · cases h
  · cases h; rfl

theorem new_tune {p : Player} {tune : Tune} {rate : UInt32} (h : Player.new tune rate = .ok p) :
    p.tune = tune := by
  unfold Player.new at h
  split at h
  · cases h
  · exact start_tune h

namespace Alike

variable {p q : Player}

theorem advanced_eq (h : Alike p q) : p.advanced = q.advanced := by
  unfold advanced
  rw [h.tune, h.rate, h.replay]

theorem render_eq (h : Alike p q) :
    render p.tune.score.bank p.rate p.mixer p.advanced =
      render q.tune.score.bank q.rate q.mixer q.advanced := by
  rw [h.advanced_eq, h.tune, h.rate]
  exact render_congr _ _ _ _ _

/-- Of two players that are alike each tick leaves the same: the replay, the
    sound and all buffers. -/
theorem tick (h : Alike p q) : Alike p.tick q.tick ∧ p.tick.mixer = q.tick.mixer := by
  have hr := h.render_eq
  refine ⟨⟨h.tune, h.rate, ?_⟩, ?_⟩
  · rw [tick_replay, tick_replay, hr]
  · rw [tick_mixer, tick_mixer, hr]

theorem iterate (h : Alike p q) : ∀ k : Nat, Alike (Player.tick^[k] p) (Player.tick^[k] q)
  | 0 => h
  | k + 1 => by
    rw [Function.iterate_succ_apply', Function.iterate_succ_apply']
    exact (iterate h k).tick.1

/-- They play the same from then on. -/
theorem played_eq (h : Alike p q) : ∀ k : Nat, played k p = played k q := by
  intro k
  induction k generalizing p q with
  | zero => rfl
  | succ k ih =>
    obtain ⟨hnext, hmixer⟩ := h.tick
    rw [played, played, mix, mix, hmixer, ih hnext]

end Alike

/-- The output channels that are not heard are silent in each tick, and there
    are seven in all. -/
theorem channel_tick_of_le (p : Player) {c : Nat} (hc : p.tick.channels ≤ c) :
    p.tick.mix.channel c = if c < 7 then Array.replicate p.tick.mix.size 0 else #[] := by
  split
  · next h =>
    rw [channels, tick_multi] at hc
    have hmix := congrArg (fun m => m.1.mix) (Mixer.play_eq p.tune.score.bank
      p.advanced.machine.multi (p.advanced.clock.tick p.rate).1 p.advanced.machine.voices p.mixer)
    rw [show p.tick.mix = _ from hmix] at hc ⊢
    exact Mix.channel_ofVoices_of_le _ _ _ hc h
  · next h => exact Mix.channel_of_le (Nat.le_of_not_lt h)

/-! ## Runs of ticks -/

/-- Ticks depend on the tune, the rate and the replay alone.  Whatever two
    players have done before, if these are equal, then after any number of
    ticks their replays are equal, and so are the stereo sound, the samples of
    every output channel, heard or not, and all that is left in the buffers of
    their mixers.  Channels that are not heard are silent. -/
theorem Alike.ticks_eq {p q : Player} (h : Alike p q) (k : Nat) :
    (Player.tick^[k] p).replay = (Player.tick^[k] q).replay ∧
      (Player.tick^[k + 1] p).mix.stereo = (Player.tick^[k + 1] q).mix.stereo ∧
      (∀ c, (Player.tick^[k + 1] p).mix.channel c = (Player.tick^[k + 1] q).mix.channel c) ∧
      (Player.tick^[k + 1] p).mixer = (Player.tick^[k + 1] q).mixer ∧
      ∀ c, (Player.tick^[k + 1] p).channels ≤ c → (Player.tick^[k + 1] p).mix.channel c =
        if c < 7 then Array.replicate (Player.tick^[k + 1] p).mix.size 0 else #[] := by
  have hk := h.iterate k
  have hmixer := hk.tick.2
  simp only [Function.iterate_succ_apply', mix, hmixer]
  refine ⟨hk.replay, trivial, fun _ => trivial, trivial, fun c hc => ?_⟩
  rw [← hmixer]
  exact channel_tick_of_le _ hc

/-- A player that has played three ticks and was given a sound effect, and one
    that is new, both put back to the state after one tick: they are alike, and
    each tick after it sounds the same. -/
theorem ticks_eq_restored : ∃ tune p, load shortTune (some ⟨#[]⟩) = .ok tune ∧
    Player.new tune minRate = .ok p ∧
      let used := (p.tick.tick.tick.playEffect 1 0x20000000 5).2
      Alike (used.restore p.tick.snapshot) (p.restore p.tick.snapshot) ∧
      ∀ k, (tick^[k + 1] (used.restore p.tick.snapshot)).mix.stereo =
        (tick^[k + 1] (p.restore p.tick.snapshot)).mix.stereo := by
  obtain ⟨tune, p, hload, hnew, -, -⟩ := exists_shortTune
  have halike : Alike ((p.tick.tick.tick.playEffect 1 0x20000000 5).2.restore p.tick.snapshot)
      (p.restore p.tick.snapshot) := by
    refine alike_restore ?_ ?_ _ <;>
      rcases p.tick.tick.tick.playEffect_cases 1 0x20000000 5 with he | ⟨i, c, he⟩ <;> rw [he] <;>
      rfl
  exact ⟨tune, p, hload, hnew, halike, fun k => (Alike.ticks_eq halike k).2.1⟩

end PaulaReplay.Player
