/-
  Endings: how often a song has ended, and what is heard before that.

  A tick may say many times that the song has come to its end: a track may, a track step
  that is read, and a position that is over.  Only the first time counts.

  * `Replay.ends`: how often a move says so, `Replay.endsAlong` for some moves;
  * `countEnd`: what one saying does to the flag and the count; `tally_apply`, `tally_run`:
    moves do so as often as they say it;
  * `Player.endings`: in how many of the next ticks the song ends, which is what the
    player has counted since its start;
  * `Fills.exists_played`: a buffer holds the ticks before the one that is an end too many,
    and zeros;
  * `Player.endings_law`: both together, for all ticks and for buffers from a start on.
-/
import PaulaReplay.Proofs.Bearings
import PaulaReplay.Proofs.Rewind

namespace PaulaReplay

namespace Replay

variable {score : Score} {rate : UInt32} {r : Replay}

/-! ## Where a move says that the song has come to its end -/

/-- A command says so if it stops the song, or loops. -/
def commandEnds (r : Replay) : StepCommand → Nat
  | .stop => 1
  | .loop target count => r.loopEnds target count
  | _ => 0

/-- How often a move says that the song has come to its end. -/
def ends (score : Score) (r : Replay) : Move → Nat
  | .word i => if (Tracks.step score i r.tracks).request = some .endSong then 1 else 0
  | .leave => if r.place.current = r.place.last then 1 else 0
  | .readStep =>
    (match score.trackStep? r.place.current with
      | none => 1
      | some t => (t.command?.map r.commandEnds).getD 0) + r.greetingEnds
  | .giveUp => 1
  | _ => 0

/-- How often some moves say so, one after the other.  The later moves stand in front, as
    iterates add up. -/
def endsAlong (score : Score) (rate : UInt32) : List Move → Replay → Nat
  | [], _ => 0
  | mv :: ms, r => endsAlong score rate ms (mv.apply score rate r) + r.ends score mv

/-! ## What is counted -/

/-- Whether the song has ended in this tick, and how often it has ended. -/
def tally (r : Replay) : Bool × UInt32 := (r.machine.master.ended, r.machine.endCount)

end Replay

/-- An end that is said counts once in a tick. -/
def countEnd : Bool × UInt32 → Bool × UInt32
  | (true, n) => (true, n)
  | (false, n) => (true, n + 1)

/-- However often it is said in a tick, it counts once. -/
theorem iterate_countEnd (count : UInt32) : ∀ n : Nat, countEnd^[n] (false, count) =
    (decide (0 < n), if n = 0 then count else count + 1)
  | 0 => rfl
  | n + 1 => by
    rw [Function.iterate_succ_apply', iterate_countEnd count n]
    cases n <;> rfl

namespace Replay

variable {score : Score} {rate : UInt32} {r : Replay}

theorem tally_of_board {r' : Replay} (h : r'.machine.board = r.machine.board) :
    r'.tally = r.tally :=
  Prod.ext (congrArg (fun b => b.1.ended) h) (congrArg (fun b => b.2.2.1) h)

theorem tally_reachEnd (r : Replay) : r.reachEnd.tally = countEnd r.tally := by
  unfold reachEnd Machine.reachEnd onMachine
  simp only
  split
  · next h =>
    rw [tally, h]
    rfl
  · next h =>
    rw [tally, tally, Bool.eq_false_iff.2 h]
    rfl

theorem tally_ends (n : Nat) (r : Replay) : (reachEnd^[n] r).tally = countEnd^[n] r.tally :=
  Function.Semiconj.iterate_right tally_reachEnd n r

theorem tally_obey (r : Replay) (c : StepCommand) :
    (r.obey c).1.tally = countEnd^[r.commandEnds c] r.tally := by
  cases c with
  | stop => exact tally_reachEnd r
  | loop target count =>
    rw [obey, obeyLoop_eq]
    exact tally_ends _ _
  | speed ticks tempo =>
    rw [obey, obeySpeed]
    cases speedClocks? tempo <;> rfl
  | timeShare tempo =>
    rw [obey, obeyTimeShare]
    cases timeShareClocks? tempo <;> rfl
  | fade | idle => rfl

theorem tally_greeted (r : Replay) : r.greeted.tally = countEnd^[r.greetingEnds] r.tally := by
  rw [greeted, greetFirst_eq]
  exact tally_ends _ _

theorem commandEnds_greeted (r : Replay) (c : StepCommand) :
    r.greeted.commandEnds c = r.commandEnds c := by
  cases c with
  | loop target count =>
    rw [commandEnds, commandEnds, loopEnds, loopEnds, trackLoop_greeted, place_greeted]
  | _ => rfl

theorem tally_readStep (score : Score) (r : Replay) :
    (r.readStep score).1.tally = countEnd^[r.ends score .readStep] r.tally := by
  rw [readStep_eq, ends, Function.iterate_add_apply, ← tally_greeted]
  cases score.trackStep? r.place.current with
  | none => exact tally_reachEnd r.greeted
  | some t =>
    cases ht : t.command? with
    | none => simp only [ht]; rfl
    | some c =>
      simp only [ht, Option.map_some, Option.getD_some]
      rw [tally_obey, commandEnds_greeted]

theorem tally_leave (score : Score) (r : Replay) :
    r.leave.tally = countEnd^[r.ends score .leave] r.tally := by
  unfold leave ends
  split
  · exact tally_reachEnd _
  · rfl

theorem tally_runWord (score : Score) (i : Slot) (r : Replay) :
    (r.runWord score i).tally = countEnd^[r.ends score (.word i)] r.tally := by
  rw [runWord, ends]
  cases (Tracks.step score i r.tracks).request with
  | none => rfl
  | some request =>
    cases request with
    | endSong => exact tally_reachEnd r
    | _ => rfl

theorem tally_enterTrack (i : Slot) (r : Replay) : (r.enterTrack i).tally = r.tally := by
  unfold enterTrack
  split
  · rfl
  · rfl
  · exact tally_of_board (Machine.board_channelOff _ r.machine)

/-! ## Moves -/

/-- Whether a move begins a tick or a sub-song, and so nothing is counted yet. -/
def Move.clears : Move → Bool
  | .begin | .reset _ | .select _ | .enable _ => true
  | _ => false

/-- All other moves count as often as they say that the song has come to its end. -/
theorem tally_apply (r : Replay) {mv : Move} (hmv : mv.clears = false) :
    (mv.apply score rate r).tally = countEnd^[r.ends score mv] r.tally := by
  cases mv with
  | begin | reset | select | enable => cases hmv
  | machine mv => exact tally_of_board (Machine.board_apply score rate r.machine mv)
  | enter i => exact tally_enterTrack i r
  | word i => exact tally_runWord score i r
  | leave => exact tally_leave score r
  | readStep => exact tally_readStep score r
  | giveUp => exact tally_reachEnd r
  | aim position e =>
    rw [Move.apply, aim]
    simp only
    split <;> rfl
  | countTick | startRow | stop | render | announce | reserve | drain => rfl

theorem tally_run : ∀ (ms : List Move) (r : Replay), ms.all (!·.clears) = true →
    (run score rate ms r).tally = countEnd^[endsAlong score rate ms r] r.tally
  | [], _, _ => rfl
  | mv :: ms, r, hms => by
    rw [List.all_cons, Bool.and_eq_true, Bool.not_eq_true'] at hms
    rw [run_cons, tally_run ms _ hms.2, tally_apply r hms.1, endsAlong, Function.iterate_add_apply]

end Replay

namespace Player

variable {loops n k : Nat} {p q : Player} {out : Array Int16}

/-! ## Ticks -/

/-- How often the next tick says that the song has come to its end. -/
def endsInTick (p : Player) : Nat := Replay.endsAlong p.tune.score p.rate p.tickMoves p.replay

/-- It begins with a song that has not ended in it yet, and counts from there. -/
theorem tally_tick (p : Player) :
    p.tick.replay.tally = countEnd^[p.endsInTick] (false, p.replay.machine.endCount) := by
  obtain ⟨ms, hms, hall⟩ : ∃ ms, p.tickMoves = .begin :: ms ∧ ms.all (!·.clears) = true :=
    Replay.exists_tickMoves (fun _ => rfl) (fun mv hmv => by cases mv <;> first | rfl | cases hmv)
      rfl p.replay
  rw [← p.run_tickMoves, endsInTick, run, hms, Replay.run_cons, Replay.tally_run ms _ hall]
  rfl

theorem endCount_tick (p : Player) : p.tick.replay.machine.endCount =
    if p.endsInTick = 0 then p.replay.machine.endCount else p.replay.machine.endCount + 1 := by
  have h := p.tally_tick
  rw [iterate_countEnd] at h
  exact congrArg Prod.snd h

theorem ended_tick_iff (p : Player) :
    p.tick.replay.machine.master.ended = true ↔ 0 < p.endsInTick := by
  have h := p.tally_tick
  rw [iterate_countEnd] at h
  rw [show p.tick.replay.machine.master.ended = decide (0 < p.endsInTick) from
    congrArg Prod.fst h]
  exact decide_eq_true_iff

/-- A tick in which the song ends changes the count of its ends. -/
theorem endCount_tick_eq_iff (p : Player) :
    p.tick.replay.machine.endCount = p.replay.machine.endCount ↔ p.endsInTick = 0 := by
  rw [endCount_tick]
  split
  · next h => exact iff_of_true rfl h
  · next h => exact iff_of_false (by simp) h

theorem loopCount_tick_eq (p : Player) : p.tick.loopCount =
    if p.endsInTick = 0 then p.loopCount else p.loopCount + 1 := by
  have hiff := p.endCount_tick_eq_iff
  have hcount : p.tick.loopCount =
      if p.tick.replay.machine.endCount != p.replay.machine.endCount then p.loopCount + 1
      else p.loopCount := loopCount_tick p
  rw [hcount]
  by_cases h : p.endsInTick = 0
  · rw [if_pos h, hiff.2 h, bne_self_eq_false]
    rfl
  · rw [if_neg h, if_pos (bne_iff_ne.2 (mt hiff.1 h))]

/-! ## Ends to come -/

/-- In how many of the next `k` ticks the song ends. -/
def endings : Nat → Player → Nat
  | 0, _ => 0
  | k + 1, p =>
    (if p.tick.replay.machine.endCount = p.replay.machine.endCount then 0 else 1) +
      endings k p.tick

/-- A player counts them. -/
theorem loopCount_iterate : ∀ (k : Nat) (p : Player),
    (tick^[k] p).loopCount = p.loopCount + endings k p
  | 0, _ => rfl
  | k + 1, p => by
    have htick : p.tick.loopCount = p.loopCount +
        if p.tick.replay.machine.endCount = p.replay.machine.endCount then 0 else 1 := by
      simp only [loopCount_tick_eq, endCount_tick_eq_iff]
      split <;> rfl
    rw [Function.iterate_succ_apply, loopCount_iterate k, htick, endings, Nat.add_assoc]

theorem endings_mono (p : Player) {i j : Nat} (h : i ≤ j) : endings i p ≤ endings j p := by
  obtain ⟨d, rfl⟩ := Nat.exists_eq_add_of_le' h
  have hcount := loopCount_iterate d (tick^[i] p)
  rw [← Function.iterate_add_apply, loopCount_iterate, loopCount_iterate] at hcount
  omega

/-- Fewer ends come in fewer ticks. -/
theorem le_of_endings_lt {i : Nat} (hi : endings i p < n) (hk : n ≤ endings (k + 1) p) :
    i ≤ k := by
  refine Nat.le_of_not_lt fun hki => ?_
  have hmono := p.endings_mono (show k + 1 ≤ i from hki)
  omega

/-! ## Buffers up to the end -/

/-- The first `n` samples of a sound that zeros follow. -/
def padded (n : Nat) (a : Array Int16) : Array Int16 := (a ++ Array.replicate n 0).extract 0 n

theorem padded_of_le {a : Array Int16} (h : n ≤ a.size) : padded n a = a.extract 0 n := by
  rw [padded, Array.extract_append, Nat.sub_eq_zero_of_le h, Nat.zero_sub, Array.extract_zero,
    Array.append_empty]

theorem padded_of_ge {a : Array Int16} (h : a.size ≤ n) :
    padded n a = a ++ Array.replicate (n - a.size) 0 := by
  rw [padded, Array.extract_append, Array.extract_eq_self_of_le h, Nat.zero_sub,
    Array.extract_replicate, Nat.sub_zero, Nat.min_eq_left (Nat.sub_le n a.size)]

/-- A buffer holds the sound to come as far as it is full, or up to the tick in which the
    song ends once too often, and zeros behind that. -/
theorem Fills.exists_played (h : Fills loops n p out q) (hl : 0 < loops) :
    p.loopCount < loops → ∃ k, (tick^[k] p).loopCount < loops ∧
      (n ≤ (p.sound k).size ∧ out = (p.sound k).extract 0 n ∨
        loops ≤ (tick^[k + 1] p).loopCount ∧ (p.sound k).size ≤ n ∧
          out = p.sound k ++ Array.replicate (n - (p.sound k).size) 0) := by
  induction h with
  | full => exact fun hp => ⟨0, hp, .inl ⟨Nat.zero_le _, Array.extract_zero.symm⟩⟩
  | ended _ hc hr =>
    obtain ⟨hover, -⟩ := refill_eq_false hr
    intro hp
    refine ⟨0, hp, .inr ⟨hover.2, ?_, ?_⟩⟩
    · rw [sound_of_eq hc]
      exact Nat.zero_le _
    · rw [sound_of_eq hc]
      exact Array.empty_append.symm
  | @refill n p q out r _ hc hr _ ih =>
    obtain ⟨hnot, hq⟩ := refill_eq_true hr
    have hcount : ∀ k, (tick^[k] q).loopCount = (tick^[k + 1] p).loopCount := fun k => by
      rw [hq, loopCount_iterate_consumed, Function.iterate_succ_apply]
    intro _
    obtain ⟨k, hk, hout⟩ := ih (by rw [hq]; exact Nat.lt_of_not_le fun hle => hnot ⟨hl, hle⟩)
    refine ⟨k + 1, by rwa [← hcount], ?_⟩
    rwa [sound_refill k hc hr, ← hcount]
  | @take n p samples q out r _ _ ht _ ih =>
    have hsize := size_of_take ht
    have hcount : ∀ k, (tick^[k] q).loopCount = (tick^[k] p).loopCount := by
      obtain ⟨-, -, -, rfl⟩ := take_eq_ok_iff.1 ht
      exact loopCount_iterate_consumed p _ _
    intro hp
    obtain ⟨k, hk, hout⟩ := ih ((hcount 0).trans_lt hp)
    refine ⟨k, by rwa [← hcount], ?_⟩
    rw [sound_take k ht, ← hcount, Array.size_append]
    rcases hout with ⟨hle, ho⟩ | ⟨hover, hle, ho⟩
    · refine .inl ⟨by omega, ?_⟩
      rw [Array.extract_append, Array.extract_eq_self_of_le (by omega), Nat.zero_sub, ← ho]
    · refine .inr ⟨hover, by omega, ?_⟩
      rw [ho, Array.append_assoc, Nat.sub_sub]

/-! ## From a start on -/

/-- A player with a sub-song that its host has just started. -/
inductive Started : Player → Prop where
  | new {tune rate p} : Player.new tune rate = .ok p → Started p
  | start {p q song} : Reachable AtWill p → p.start song = .ok q → Started q

theorem loopCount_start {song : Nat} (h : p.start song = .ok q) : q.loopCount = 0 := by
  unfold start at h
  split at h
  · cases h
  · cases h
    rfl

/-- It has counted no end yet, and nothing is left to be taken. -/
theorem Started.fresh (h : Started q) :
    q.Steady ∧ q.consumed = q.available ∧ q.loopCount = 0 := by
  cases h with
  | new h =>
    obtain ⟨hsteady, -, hc, ha⟩ := new_eq_ok h
    refine ⟨hsteady, hc.trans ha.symm, ?_⟩
    unfold Player.new at h
    split at h
    · cases h
    · exact loopCount_start h
  | start hp h =>
    obtain ⟨-, -, hc, ha, -⟩ := start_eq_ok h
    exact ⟨steady_start h hp.orderly.steady.rate, hc.trans ha.symm, loopCount_start h⟩

theorem Started.loopCount_iterate (h : Started q) (k : Nat) :
    (tick^[k] q).loopCount = endings k q := by
  rw [Player.loopCount_iterate, h.fresh.2.2, Nat.zero_add]

/-- What a tick counts. -/
structure CountsOnce (p : Player) : Prop where
  endCount : p.tick.replay.machine.endCount =
    p.replay.machine.endCount + (if p.endsInTick = 0 then 0 else 1)
  loopCount : p.tick.loopCount = p.loopCount + (if p.endsInTick = 0 then 0 else 1)
  ended : p.tick.replay.machine.master.ended = true ↔ 0 < p.endsInTick

theorem countsOnce (p : Player) : p.CountsOnce := by
  refine ⟨?_, ?_, p.ended_tick_iff⟩
  · rw [endCount_tick]
    split
    · exact (UInt32.add_zero _).symm
    · rfl
  · rw [loopCount_tick_eq]
    split <;> rfl

/-- What is in buffers that are filled from a start on, up to the tick in which the song
    ends once too often. -/
theorem Fills.eq_padded (h : Fills loops n q out p) (hq : Started q) (hl : 0 < loops)
    (hk : endings k q < loops) (hlast : endings (k + 1) q = loops) :
    out = padded n (played k q) := by
  obtain ⟨-, hc, hcount⟩ := hq.fresh
  obtain ⟨i, hi, hout⟩ := h.exists_played hl (by omega)
  rw [hq.loopCount_iterate] at hi
  rw [hq.loopCount_iterate, sound_of_eq hc] at hout
  have hik : i ≤ k := le_of_endings_lt hi hlast.ge
  rcases hout with ⟨hle, ho⟩ | ⟨hover, hle, ho⟩
  · -- the buffers are full before the song has ended so often
    have hsize := q.size_sound_mono hik
    have hsame := extract_sound (p := q) (n := n) hik (by rwa [sound_of_eq hc])
    rw [sound_of_eq hc, sound_of_eq hc] at hsize hsame
    rw [ho, ← hsame, padded_of_le (hle.trans hsize)]
  · -- it ends so often in the tick after these
    obtain rfl : i = k := Nat.le_antisymm hik (le_of_endings_lt hk hover)
    rw [ho, padded_of_ge hle]

/-- If it never ends so often, they hold the ticks that there are. -/
theorem Fills.exists_eq_played (h : Fills loops n q out p) (hq : Started q) (hl : 0 < loops)
    (hnever : ∀ k, endings k q < loops) :
    ∃ k, n ≤ (played k q).size ∧ out = (played k q).extract 0 n := by
  obtain ⟨-, hc, hcount⟩ := hq.fresh
  obtain ⟨i, -, hout⟩ := h.exists_played hl (by omega)
  rw [hq.loopCount_iterate, sound_of_eq hc] at hout
  rcases hout with hout | ⟨hover, -, -⟩
  · exact ⟨i, hout⟩
  · exact absurd (hnever (i + 1)) (Nat.not_lt.2 hover)

/-- The end of the song is counted once per tick, however often it is said in the tick: the
    count of ends and that of the player grow by one if it is said at all, and only then
    the tick is left with the song ended.  So buffers that a host fills from a start on
    hold just the ticks before the one in which the song ends for the last time that is
    asked for, and zeros behind them. -/
theorem endings_law (h : Started q) (hl : 0 < loops) (ns : List Nat) :
    (∀ p : Player, p.CountsOnce) ∧
    ∃ out r, fillEach loops ns q = some (.ok (out, r)) ∧
      (∀ k, endings k q < loops → endings (k + 1) q = loops →
        out = padded ns.sum (played k q)) ∧
      ((∀ k, endings k q < loops) →
        ∃ k, ns.sum ≤ (played k q).size ∧ out = (played k q).extract 0 ns.sum) := by
  obtain ⟨hsteady, hc, -⟩ := h.fresh
  obtain ⟨out, r, s, heach, hfills, -, -⟩ := hsteady.exists_fillEach_isOver loops ns (.inl hc)
  exact ⟨countsOnce, out, r, heach, fun k => hfills.eq_padded h hl,
    hfills.exists_eq_played h hl⟩

/-- A tune whose seventh tick says twice that the song has come to its end, and counts
    once: three buffers hold the six ticks before, and zeros. -/
theorem endings_chime : ∃ tune q out r, load chime (some chimeSamples) = .ok tune ∧
    Player.new tune minRate = .ok q ∧ Started q ∧ endings 6 q = 0 ∧ endings 7 q = 1 ∧
      (tick^[6] q).endsInTick = 2 ∧ (tick^[6] q).CountsOnce ∧ (played 6 q).size = 28 ∧
      fillEach 1 [20, 20, 5] q = some (.ok (out, r)) ∧
        out = played 6 q ++ Array.replicate 17 0 := by
  have h : ((load chime (some chimeSamples)).toOption.bind fun tune =>
      (Player.new tune minRate).toOption.map fun q =>
        [endings 6 q, endings 7 q, (tick^[6] q).endsInTick, (played 6 q).size]) =
        some [0, 1, 2, 28] := by decide +kernel
  obtain ⟨tune, q, hload, hnew, h⟩ := exists_new h
  simp only [List.cons.injEq, and_true] at h
  obtain ⟨h6, h7, htwice, hsize⟩ := h
  obtain ⟨honce, out, r, heach, hpadded, -⟩ := endings_law (.new hnew) Nat.one_pos [20, 20, 5]
  have hout : out = padded 45 (played 6 q) := hpadded 6 (by omega) h7
  rw [padded_of_ge (by omega), hsize] at hout
  exact ⟨tune, q, out, r, hload, hnew, .new hnew, h6, h7, htwice, honce _, hsize, heach, hout⟩

end Player

end PaulaReplay
