/-
  Cadence: how many ticks there are from row to row.

  A row sets the ticks to the next one before it is played, and the speed commands that
  it comes to set them anew, as often as positions end in it.  Each of them sets the
  speed too, so in the end the two agree, and the ticks count down from there.

  * `Replay.RowDue`: the next share of the sequencer plays a row;
  * `Tidings.Paced`: the ticks to the next row are those of the speed, which
    `paced_playRow` says of any row when it is over;
  * `iterate_tickTracks`: up to the next row nothing but the ticks is counted;
  * `rows_every_speed`: the next row comes after just as many ticks as the speed says,
    and one more;
  * `Player.rows_every_speed_ticks`: so it is for a player, where the channels have
    their ticks in between.
-/
import Mathlib.Data.UInt
import PaulaReplay.Proofs.Tidings

namespace PaulaReplay

/-- The ticks to the next row are those of the speed. -/
def Tidings.Paced (t : Tidings) : Prop := t.count = t.speed

theorem Tidings.Paced.hear {t : Tidings} (h : t.Paced) (n : Notice) : (t.hear n).Paced := by
  cases n with
  | speed ticks => rfl
  | tempo | position | ended => exact h

namespace Replay

variable {score : Score} {r : Replay}

/-- The next share of the sequencer plays a row. -/
def RowDue (r : Replay) : Prop := r.machine.master.speedCount = 0

instance (r : Replay) : Decidable r.RowDue :=
  inferInstanceAs (Decidable (r.machine.master.speedCount = 0))

/-- The replay as so many ticks have counted down. -/
def afterTicks (r : Replay) (n : Nat) : Replay :=
  { r with
    age := r.age + UInt32.ofNat n
    machine.master.speedCount := r.machine.master.speedCount - UInt16.ofNat n }

theorem afterTicks_zero (r : Replay) : r.afterTicks 0 = r := by
  have hage : r.age + UInt32.ofNat 0 = r.age := UInt32.add_zero _
  have hcount : r.machine.master.speedCount - UInt16.ofNat 0 = r.machine.master.speedCount :=
    UInt16.sub_zero _
  rw [afterTicks, hage, hcount]

theorem afterTicks_succ (r : Replay) (n : Nat) :
    r.afterTicks (n + 1) = (r.afterTicks n).countTick := by
  have hage : r.age + UInt32.ofNat (n + 1) = r.age + UInt32.ofNat n + 1 := by
    rw [UInt32.ofNat_add, ← UInt32.add_assoc]
    rfl
  have hcount : r.machine.master.speedCount - UInt16.ofNat (n + 1) =
      r.machine.master.speedCount - UInt16.ofNat n - 1 := by
    rw [UInt16.ofNat_add]
    exact sub_add_eq_sub_sub r.machine.master.speedCount _ _
  rw [afterTicks, hage, hcount]
  rfl

theorem tickTracks_of_due (h : r.RowDue) : r.tickTracks score = r.countTick.playRow score :=
  if_neg (not_not.2 h)

theorem tickTracks_of_not_due (h : ¬ r.RowDue) : r.tickTracks score = r.countTick := if_pos h

/-! ## A row -/

/-- When a row is over the ticks to the next one are those of the speed, whatever
    commands it has come to. -/
theorem paced_playRow (score : Score) (r : Replay) : (r.playRow score).tidings.Paced := by
  have hrow : ∀ ms : List Move, ms.all Move.ofRow = true →
      (run score 0 ms r.startRow).tidings.Paced := fun ms hms =>
    (tells_run ms hms).keeps (fun _ n ht => ht.hear n) rfl
  have hrun : run score 0 (rowMoves score r) r = r.playRow score := run_rowMoves r
  rw [← hrun, rowMoves, run_cons]
  refine hrow _ ?_
  rw [List.all_append, all_rowsMoves fun _ h => h, Bool.true_and]
  split
  · exact all_leaveMoves (fun _ h => h) _
  · rfl

/-! ## The ticks up to the next row -/

theorem dueIn_iff {count : UInt16} {n : Nat} (h : n ≤ count.toNat) :
    count - UInt16.ofNat n = 0 ↔ n = count.toNat := by
  have hlt : n < 65536 := by
    have := count.toNat_lt
    omega
  have hn : (UInt16.ofNat n).toNat = n := UInt16.toNat_ofNat_of_lt hlt
  rw [← UInt16.toNat_inj, UInt16.toNat_sub_of_le _ _ (by rwa [UInt16.le_iff_toNat_le, hn]), hn]
  show count.toNat - n = 0 ↔ _
  omega

/-- As long as no row is due a share of the sequencer counts, and that is all. -/
theorem iterate_tickTracks (score : Score) (r : Replay) :
    ∀ n ≤ r.machine.master.speedCount.toNat, (tickTracks score)^[n] r = r.afterTicks n := by
  intro n
  induction n with
  | zero =>
    exact fun _ => (afterTicks_zero r).symm
  | succ n ih =>
    intro hn
    have hdue : ¬ (r.afterTicks n).RowDue := by
      intro h
      have := (dueIn_iff (Nat.le_of_succ_le hn)).1 h
      omega
    rw [Function.iterate_succ_apply', ih (Nat.le_of_succ_le hn), tickTracks_of_not_due hdue,
      afterTicks_succ]

/-- After a row the ticks to the next one are those of the speed that it leaves.  So many
    times nothing is done but to count them, and the time after that there is a row. -/
theorem rows_every_speed (score : Score) (r : Replay) (hdue : r.RowDue) :
    let played := r.tickTracks score
    let speed := played.place.speed.toNat
    played = r.countTick.playRow score ∧
      played.machine.master.speedCount = played.place.speed ∧
      (∀ n ≤ speed, (tickTracks score)^[n] played = played.afterTicks n) ∧
      (∀ n ≤ speed, ((tickTracks score)^[n] played).RowDue ↔ n = speed) ∧
      (tickTracks score)^[speed + 1] played =
        (played.afterTicks speed).countTick.playRow score := by
  intro played speed
  have hplayed : played = r.countTick.playRow score := tickTracks_of_due hdue
  have hcount : played.machine.master.speedCount = played.place.speed := by
    rw [hplayed]
    exact paced_playRow score r.countTick
  have hwait : ∀ n ≤ speed, (tickTracks score)^[n] played = played.afterTicks n := fun n hn =>
    iterate_tickTracks score played n (by rwa [hcount])
  have hrow : ∀ n ≤ speed, ((tickTracks score)^[n] played).RowDue ↔ n = speed := by
    intro n hn
    have hspeed : speed = played.machine.master.speedCount.toNat :=
      congrArg UInt16.toNat hcount.symm
    rw [hwait n hn, RowDue, hspeed]
    exact dueIn_iff (hspeed ▸ hn)
  refine ⟨hplayed, hcount, hwait, hrow, ?_⟩
  rw [Function.iterate_succ_apply', tickTracks_of_due ((hrow speed le_rfl).2 rfl),
    hwait speed le_rfl]

/-- A tune whose first pattern is over at once, with two speed commands on the way to
    the next one. -/
def hastyTune : ByteArray :=
  let step (pattern : UInt16) : List UInt16 := pattern :: List.replicate 7 0xff00
  songTune 3 1 [step 0, [0xeffe, 2, 5, 0], [0xeffe, 2, 3, 0], step 0x100]
    [[0xf0000000], [0xf3ff0000, 0xf0000000]] []

/-- Its first row begins at speed 1 and leaves speed 3, so the next one is the fourth
    share of the sequencer after it. -/
theorem rows_hastyTune : ∃ tune p, load hastyTune (some ⟨#[]⟩) = .ok tune ∧
    Player.new tune minRate = .ok p ∧ p.replay.RowDue ∧ p.replay.place.speed = 1 ∧
      ∃ played, played = p.replay.tickTracks tune.score ∧ played.place.speed = 3 ∧
        (∀ n ≤ 3, (tickTracks tune.score)^[n] played = played.afterTicks n) ∧
        (∀ n ≤ 3, ((tickTracks tune.score)^[n] played).RowDue ↔ n = 3) ∧
        (tickTracks tune.score)^[4] played =
          (played.afterTicks 3).countTick.playRow tune.score := by
  have h : ((load hastyTune (some ⟨#[]⟩)).toOption.bind fun tune =>
      (Player.new tune minRate).toOption.map fun p => (decide p.replay.RowDue,
        [p.replay.place.speed, (p.replay.tickTracks p.tune.score).place.speed])) =
        some (true, [1, 3]) := by decide +kernel
  obtain ⟨tune, p, hload, hnew, h⟩ := Player.exists_new h
  obtain rfl := Player.new_tune hnew
  simp only [Prod.mk.injEq, List.cons.injEq, and_true, decide_eq_true_eq] at h
  obtain ⟨hdue, hspeed, hplayed⟩ := h
  obtain ⟨-, -, hwait, hrow, hnext⟩ := rows_every_speed p.tune.score p.replay hdue
  rw [hplayed] at hwait hrow hnext
  exact ⟨p.tune, p, hload, hnew, hdue, hspeed, _, rfl, hplayed, hwait, hrow, hnext⟩

end Replay

namespace Player

variable {p : Player}

/-! ## Ticks of a player -/

/-- The sequencer has its share of a tick after the channels. -/
theorem tick_of_playing (h : p.replay.Playing) : p.tick.replay =
    ((p.replay.begin.onMachine (·.tickChannels p.tune.score p.rate)).tickTracks
      p.tune.score).render p.tune.score.bank p.rate := by
  have hadvance : advance p.tune.score p.rate p.replay =
      if p.replay.machine.master.enabled then
        if 0 ≤ p.replay.song then
          (p.replay.begin.onMachine (·.tickChannels p.tune.score p.rate)).tickTracks p.tune.score
        else p.replay.begin.onMachine (·.tickChannels p.tune.score p.rate)
      else p.replay.begin := rfl
  rw [if_pos h.enabled, if_pos h.song] at hadvance
  rw [← hadvance, ← p.run_tickMoves, run, tickMoves, Replay.run_tickMoves]

/-- The channels leave the ticks to the next row as they are. -/
theorem speedCount_tickChannels (r : Replay) (score : Score) (rate : UInt32) :
    (r.begin.onMachine (·.tickChannels score rate)).machine.master.speedCount =
      r.machine.master.speedCount :=
  congrArg (fun b => b.1.speedCount) (Machine.board_tickChannels score rate r.begin.machine)

/-- In a tick without a row the song and its tracks stay where they are. -/
theorem tick_of_not_due (h : p.replay.Playing) (hdue : ¬ p.replay.RowDue) :
    p.tick.replay.place = p.replay.place ∧ p.tick.replay.tracks = p.replay.tracks ∧
      p.tick.replay.machine.master.speedCount = p.replay.machine.master.speedCount - 1 := by
  have hcount := speedCount_tickChannels p.replay p.tune.score p.rate
  have hlater : ¬ (p.replay.begin.onMachine (·.tickChannels p.tune.score p.rate)).RowDue :=
    fun he => hdue (hcount.symm.trans he)
  rw [tick_of_playing h, Replay.tickTracks_of_not_due hlater]
  exact ⟨rfl, rfl, congrArg (· - 1) hcount⟩

/-- A tick in which a row is due plays it, and sets the ticks to the next one to those
    of the speed that it leaves. -/
theorem tick_of_due (h : p.replay.Playing) (hdue : p.replay.RowDue) :
    p.tick.replay = ((p.replay.begin.onMachine
        (·.tickChannels p.tune.score p.rate)).countTick.playRow p.tune.score).render
          p.tune.score.bank p.rate ∧
      p.tick.replay.machine.master.speedCount = p.tick.replay.place.speed := by
  have hcount := speedCount_tickChannels p.replay p.tune.score p.rate
  have hnow : (p.replay.begin.onMachine (·.tickChannels p.tune.score p.rate)).RowDue :=
    hcount.trans hdue
  have hpaced := Replay.paced_playRow p.tune.score
    (p.replay.begin.onMachine (·.tickChannels p.tune.score p.rate)).countTick
  rw [tick_of_playing h, Replay.tickTracks_of_due hnow]
  refine ⟨rfl, ?_⟩
  generalize Replay.playRow p.tune.score _ = r at hpaced ⊢
  exact hpaced

/-- Up to the next row the ticks leave the song and its tracks where they are. -/
theorem ticks_up_to_row (h : p.replay.Playing) :
    ∀ n ≤ p.replay.machine.master.speedCount.toNat, (tick^[n] p).replay.Playing ∧
      (tick^[n] p).replay.place = p.replay.place ∧ (tick^[n] p).replay.tracks = p.replay.tracks ∧
        (tick^[n] p).replay.machine.master.speedCount =
          (p.replay.afterTicks n).machine.master.speedCount := by
  intro n
  induction n with
  | zero =>
    intro _
    rw [Replay.afterTicks_zero]
    exact ⟨h, rfl, rfl, rfl⟩
  | succ n ih =>
    intro hn
    obtain ⟨hplaying, hplace, htracks, hcount⟩ := ih (Nat.le_of_succ_le hn)
    have hdue : ¬ (tick^[n] p).replay.RowDue := by
      intro hdue
      have := (Replay.dueIn_iff (Nat.le_of_succ_le hn)).1 (hcount.symm.trans hdue)
      omega
    obtain ⟨hplace', htracks', hcount'⟩ := tick_of_not_due hplaying hdue
    rw [Function.iterate_succ_apply', Replay.afterTicks_succ]
    exact ⟨playing_tick hplaying, hplace'.trans hplace, htracks'.trans htracks,
      hcount'.trans (congrArg (· - 1) hcount)⟩

/-- Whatever a host has done to come to a tick that plays a row, the next row comes
    after as many ticks as the speed says, and one more. -/
theorem rows_every_speed_ticks {allowed : Player → Action → Prop} (h : Reachable allowed p)
    (hdue : p.replay.RowDue) :
    ∀ n ≤ p.tick.replay.place.speed.toNat,
      (tick^[n] p.tick).replay.place = p.tick.replay.place ∧
        (tick^[n] p.tick).replay.tracks = p.tick.replay.tracks ∧
          ((tick^[n] p.tick).replay.RowDue ↔ n = p.tick.replay.place.speed.toNat) := by
  intro n hn
  obtain ⟨-, hspeed⟩ := tick_of_due h.playing hdue
  rw [← hspeed] at hn ⊢
  obtain ⟨-, hplace, htracks, hcount⟩ := ticks_up_to_row (playing_tick h.playing) n hn
  refine ⟨hplace, htracks, ?_⟩
  rw [Replay.RowDue, hcount]
  exact Replay.dueIn_iff hn

end Player

end PaulaReplay
