/-
  Endless: loops without end, and the patterns that they are of.

  A song is over where each track is stopped or says that its pattern loops
  without end.  A track step takes back what a track says, and a pattern that
  another track starts on it does not: then it still says so of the pattern
  before.  So what the patterns have done since they were given to their tracks
  is followed beside the tracks.

  * `Tracks.Move`: what happens to the tracks; `Replay.onTracks` are the moves
    of a song that is heard, `Survey.moves` those of one that is gone through;
  * `Track.Past`: what the pattern of a track has done, `Past.loop` after a loop
    command; `Tracks.Watched`: the tracks with the pasts of their patterns;
  * `Move.endsSong`: a word says that the song is over; `Move.lends`: a track is
    left to say of a pattern what holds of the one before;
  * `Watched.Told`: what a track says is in the past of its pattern, or was said
    before it; `Told.after`: all moves keep this;
  * `Watched.Honest`: nothing is said of a pattern before; `Honest.after`: moves
    that do not lend keep this;
  * `Replay.ends_song`: where a song is over, heard or gone through, each track
    that plays has come to a loop without end, but for what was said before.
-/
import PaulaReplay.Proofs.Pointers
import PaulaReplay.Proofs.Rehearsal
import PaulaReplay.Timeline

namespace PaulaReplay

open Pattern

variable {score : Score} {rate : UInt32}

/-! ## Moves of the tracks -/

namespace Tracks

/-- What may happen to the tracks. -/
inductive Move where
  /-- A track begins its row. -/
  | enter (i : Slot)
  /-- A word of a track is run. -/
  | word (i : Slot)
  /-- The track that does not rest is stopped. -/
  | stop (i : Slot)
  /-- The tracks are given their patterns. -/
  | give (numbers : Slot → UInt8) (transposes : Slot → Int8)
  /-- A sub-song is entered. -/
  | clear
  /-- All is put back. -/
  | reset

/-- What a move does. -/
def Move.apply (score : Score) (ts : Tracks) : Move → Tracks
  | .enter i => (Tracks.enter i ts).tracks
  | .word i => (step score i ts).tracks
  | .stop i => ts.modify i Track.stop
  | .give numbers transposes =>
    Octet.ofFn fun i => Replay.assign score (numbers i) (transposes i) ts[i]
  | .clear => ts.map fun (t : Track) => { t.stop with base := 0, transpose := 0, step := 0 }
  | .reset => Octet.replicate ({} : Track).stop

/-- The tracks after some moves. -/
def run (score : Score) (ms : List Move) (ts : Tracks) : Tracks := ms.foldl (Move.apply score) ts

theorem run_append (ms ns : List Move) (ts : Tracks) :
    run score (ms ++ ns) ts = run score ns (run score ms ts) := List.foldl_append

theorem run_cons (mv : Move) (ms : List Move) (ts : Tracks) :
    run score (mv :: ms) ts = run score ms (mv.apply score ts) := rfl

end Tracks

/-! ### A song that is heard -/

namespace Replay

/-- The moves of the tracks in a move of the replay. -/
def Move.onTracks (score : Score) (r : Replay) : Move → List Tracks.Move
  | .enter i => [.enter i]
  | .word i => [.word i]
  | .stop i => [.stop i]
  | .readStep => match score.trackStep? r.place.current with
    | none => []
    | some s => match s.command? with
      | some _ => []
      | none => [.give s.patternOf s.transposeOf]
  | .select _ => [.clear]
  | .reset _ => [.reset]
  | _ => []

/-- The moves of the tracks in some moves of the replay. -/
def onTracks (score : Score) (rate : UInt32) : List Move → Replay → List Tracks.Move
  | [], _ => []
  | mv :: ms, r => mv.onTracks score r ++ onTracks score rate ms (mv.apply score rate r)

theorem tracks_apply (r : Replay) (mv : Move) :
    (mv.apply score rate r).tracks = Tracks.run score (mv.onTracks score r) r.tracks := by
  cases mv with
  | enter i => exact tracks_enterTrack r i
  | leave => exact tracks_leave r
  | readStep =>
    rw [Move.apply, readStep_eq, Move.onTracks]
    cases score.trackStep? r.place.current with
    | none => exact tracks_greeted r
    | some s =>
      simp only
      cases s.command? with
      | some c => exact (tracks_obey _ c).trans (tracks_greeted r)
      | none => exact congrArg (assignAll score s) (tracks_greeted r)
  | reset multi => exact tracks_reset multi
  | select n => exact tracks_selectSong r score n
  | aim position e => exact tracks_aim r position e
  | _ => rfl

/-- Nothing else happens to the tracks as a song is heard. -/
theorem tracks_run : ∀ (ms : List Move) (r : Replay),
    (run score rate ms r).tracks = Tracks.run score (onTracks score rate ms r) r.tracks
  | [], _ => rfl
  | mv :: ms, r => by
    rw [run_cons, tracks_run ms, onTracks, Tracks.run_append, tracks_apply]

end Replay

/-! ### A song that is gone through -/

namespace Tracks

/-- The moves of at most so many words of track `i`, without a machine. -/
def simulateMoves (score : Score) (i : Slot) : Nat → Tracks → List Move
  | 0, _ => [.stop i]
  | n + 1, ts =>
    .word i :: if (step score i ts).request = some .endSong then []
      else match (step score i ts).flow with
        | .goesOn => simulateMoves score i n (step score i ts).tracks
        | .rests | .finishes => []

theorem run_simulateMoves (i : Slot) : ∀ (n : Nat) (ts : Tracks),
    run score (simulateMoves score i n ts) ts = (simulateWords score i n ts).1
  | 0, _ => rfl
  | n + 1, ts => by
    rw [simulateMoves, simulateWords, run_cons, Move.apply]
    split
    · rfl
    · cases (step score i ts).flow with
      | goesOn => exact run_simulateMoves i n _
      | rests => rfl
      | finishes => rfl

/-- The moves of the row of track `i`, without a machine. -/
def rowMoves (score : Score) (i : Slot) (ts : Tracks) : List Move :=
  .enter i :: match enter i ts with
    | .idle _ | .switchesOff _ _ => []
    | .runs ts => simulateMoves score i rowBound ts

theorem run_rowMoves (i : Slot) (ts : Tracks) :
    run score (rowMoves score i ts) ts = (simulateRow score i ts).1 := by
  rw [rowMoves, simulateRow, run_cons, Move.apply]
  cases enter i ts with
  | idle us => rfl
  | switchesOff us channel => rfl
  | runs us => exact run_simulateMoves i rowBound us

end Tracks

namespace Survey

/-- The moves of the rows of some tracks. -/
def tracksMoves (score : Score) : List Slot → Tracks → List Tracks.Move
  | [], _ => []
  | i :: is, ts =>
    Tracks.rowMoves score i ts ++ tracksMoves score is (Tracks.simulateRow score i ts).1

theorem run_tracksMoves : ∀ (is : List Slot) (ts : Tracks) (ended : Bool),
    Tracks.run score (tracksMoves score is ts) ts =
      (is.foldl (fun (ts, ended) i =>
        let (ts, o) := Tracks.simulateRow score i ts
        (ts, ended || o)) (ts, ended)).1
  | [], _, _ => rfl
  | i :: is, ts, ended => by
    rw [tracksMoves, Tracks.run_append, Tracks.run_rowMoves, List.foldl_cons]
    exact run_tracksMoves is _ _

/-- The moves of at most so many rows of a position. -/
def rowsMoves (score : Score) : Nat → Tracks → List Tracks.Move
  | 0, _ => []
  | n + 1, ts =>
    tracksMoves score Slot.all ts ++
      if (simulateRow score ts).2 || Tracks.allStopped (simulateRow score ts).1 then []
      else rowsMoves score n (simulateRow score ts).1

theorem rows_zero (rowTime time : Float32) (ts : Tracks) :
    rows score rowTime 0 ts time = (ts, time) := by
  delta rows
  rfl

theorem rows_succ (rowTime time : Float32) (n : Nat) (ts : Tracks) :
    rows score rowTime (n + 1) ts time = match simulateRow score ts with
      | (ts, true) => (ts, time)
      | (ts, false) =>
        if Tracks.allStopped ts then (ts, time + rowTime)
        else rows score rowTime n ts (time + rowTime) := by
  delta rows rows._f
  -- the row stands for any function here, and so is not run
  generalize simulateRow score = row
  rfl

theorem run_rowsMoves (rowTime : Float32) : ∀ (n : Nat) (ts : Tracks) (time : Float32),
    Tracks.run score (rowsMoves score n ts) ts = (rows score rowTime n ts time).1 := by
  intro n
  induction n with
  | zero =>
    intro ts time
    rw [rowsMoves, rows_zero]
    rfl
  | succ n ih =>
    intro ts time
    have hrow : Tracks.run score (tracksMoves score Slot.all ts) ts = (simulateRow score ts).1 := by
      rw [simulateRow]
      exact run_tracksMoves Slot.all ts false
    rw [rowsMoves, Tracks.run_append, hrow, rows_succ]
    rcases simulateRow score ts with ⟨us, _ | _⟩
    · simp only [Bool.false_or]
      split
      · rfl
      · exact ih us _
    · rfl

/-- The moves of a track step. -/
def stepMoves (score : Score) (s : Survey) : List Tracks.Move :=
  match score.trackStep? (UInt16.ofNat s.position) with
  | none => []
  | some t => match t.command? with
    | some _ => []
    | none =>
      .give t.patternOf (fun i => s.tracks[i].transpose) ::
        rowsMoves score rowBound (Octet.ofFn fun i => assign score (t.patternOf i) s.tracks[i])

theorem tracks_obey {s s' : Survey} {c : StepCommand} (h : s.obey c = some s') :
    s'.tracks = s.tracks := by
  cases c with
  | stop => cases h
  | loop target count =>
    rw [obey, loop] at h
    simp only at h
    split_ifs at h <;> cases h <;> rfl
  | speed | timeShare | fade | idle =>
    cases h
    rfl

theorem run_stepMoves (first : Nat) (s : Survey) :
    Tracks.run score (s.stepMoves score) s.tracks = (s.step score first).1.tracks := by
  have hposition : (s.record first).position = s.position := rfl
  rw [stepMoves, step]
  simp only [hposition]
  cases score.trackStep? (UInt16.ofNat s.position) with
  | none => rfl
  | some t =>
    simp only
    cases t.command? with
    | some c =>
      simp only
      cases hc : (s.record first).obey c with
      | none => rfl
      | some s' => exact (tracks_obey hc).symm
    | none =>
      simp only [playStep]
      rw [Tracks.run_cons]
      generalize rowBound = bound
      exact run_rowsMoves _ bound _ _

/-- The moves of at most so many track steps of a sub-song. -/
def moves (score : Score) (song : SubSong) : Nat → Survey → List Tracks.Move
  | 0, _ => []
  | n + 1, s =>
    if s.position ≤ song.last.toNat then
      s.stepMoves score ++ match s.step score song.first.toNat with
        | (s, true) => moves score song n s
        | (_, false) => []
    else []

/-- Nothing else happens to the tracks as a song is gone through. -/
theorem run_moves (song : SubSong) : ∀ (n : Nat) (s : Survey),
    Tracks.run score (moves score song n s) s.tracks = (run score song n s).tracks
  | 0, _ => rfl
  | n + 1, s => by
    rw [moves, run]
    split
    · rw [Tracks.run_append, run_stepMoves song.first.toNat]
      rcases s.step score song.first.toNat with ⟨s', _ | _⟩
      · rfl
      · exact run_moves song n s'
    · rfl

end Survey

/-! ## Pasts -/

/-- What the pattern of a track has done since it was given to the track, be it
    by a track step or by another track. -/
inductive Track.Past where
  /-- It has come to no loop without end. -/
  | plain
  /-- It has come to none, while the track still says so of a pattern before. -/
  | lent
  /-- It has come to a loop without end. -/
  | endless
deriving DecidableEq, Repr

namespace Track

/-- The past of a pattern that was just given to the track. -/
def freshPast (t : Track) : Past := if t.looped then .lent else .plain

/-- The past after a loop command: without a loop in hand and with a count of
    zero the loop has no end, and else the track takes back what it says.  A
    loop that is used up is none. -/
def Past.loop (t : Track) (count : UInt8) (past : Past) : Past :=
  if t.loops = 0 then past
  else if t.loops = noLoops ∧ count = 0 then .endless
  else if past = .lent then .plain else past

end Track

namespace Tracks

/-- The tracks and the pasts of their patterns. -/
structure Watched where
  tracks : Tracks
  pasts : Octet Track.Past

/-- The tracks, with patterns that have done nothing yet. -/
def watch (ts : Tracks) : Watched := ⟨ts, ts.map Track.freshPast⟩

/-- Track `i` stands behind the word that it takes. -/
def Watched.fetch (i : Slot) (v : Watched) : Watched :=
  { v with tracks := v.tracks.modify i fun t => { t with step := t.step + 1 } }

/-- The pasts after a command of track `i`. -/
def Watched.obey (score : Score) (i : Slot) (c : Command) (w : Word) (v : Watched) :
    Octet Track.Past :=
  match c with
  | .loop => v.pasts.modify i (Track.Past.loop v.tracks[i] w.byte1)
  | .play => match score.pattern? w.byte1 with
    | some _ =>
      let j := Slot.ofNat w.byte2.toNat
      v.pasts.set j v.tracks[j].freshPast
    | none => v.pasts
  | _ => v.pasts

/-- The pasts after a word of track `i`. -/
def Watched.word (score : Score) (i : Slot) (v : Watched) : Octet Track.Past :=
  match score.word? v.tracks[i].base v.tracks[i].step with
  | none => v.pasts
  | some w => match Instruction.ofByte w.byte0 with
    | .note _ => v.pasts
    | .command c => (v.fetch i).obey score i c w

/-- The pasts after a move. -/
def Move.past (score : Score) (v : Watched) : Move → Octet Track.Past
  | .word i => v.word score i
  | .give numbers _ => Octet.ofFn fun i => if numbers i < 0x80 then .plain else v.pasts[i]
  | .clear => v.tracks.map Track.freshPast
  | .reset => Octet.replicate .plain
  | .enter _ | .stop _ => v.pasts

namespace Watched

variable {v : Watched}

/-- The tracks and the pasts of their patterns after a move. -/
def after (score : Score) (v : Watched) (mv : Move) : Watched :=
  ⟨mv.apply score v.tracks, mv.past score v⟩

/-- Something holds of each of some moves, where it is made. -/
def Along (score : Score) (Q : Watched → Move → Prop) : List Move → Watched → Prop
  | [], _ => True
  | mv :: ms, v => Q v mv ∧ Along score Q ms (v.after score mv)

instance decidableAlong {Q : Watched → Move → Prop} [∀ v mv, Decidable (Q v mv)] :
    ∀ (ms : List Move) (v : Watched), Decidable (Along score Q ms v)
  | [], _ => inferInstanceAs (Decidable True)
  | mv :: ms, v =>
    have : Decidable (Along score Q ms (v.after score mv)) := decidableAlong ms _
    inferInstanceAs (Decidable (Q v mv ∧ Along score Q ms (v.after score mv)))

/-- What moves keep holds along them. -/
theorem Along.of_keeps {P : Watched → Prop} {Q R : Watched → Move → Prop}
    (hP : ∀ v mv, P v → R v mv → P (v.after score mv))
    (hQ : ∀ v mv, P v → R v mv → Q v mv) :
    ∀ (ms : List Move) {v : Watched}, P v → Along score R ms v → Along score Q ms v
  | [], _, _, _ => trivial
  | mv :: ms, v, hv, ⟨hr, hms⟩ =>
    ⟨hQ v mv hv hr, Along.of_keeps hP hQ ms (hP v mv hv hr) hms⟩

end Watched

/-- A word says that the song is over. -/
def Move.endsSong (score : Score) (ts : Tracks) : Move → Bool
  | .word i => (step score i ts).request = some .endSong
  | _ => false

/-- A track that says that its pattern loops without end is given another one by
    a word, or is left so as a sub-song is entered. -/
def Move.lends (score : Score) (ts : Tracks) : Move → Bool
  | .word i => match score.word? ts[i].base ts[i].step with
    | none => false
    | some w => Instruction.ofByte w.byte0 = .command .play &&
      (score.pattern? w.byte1).isSome && ts[Slot.ofNat w.byte2.toNat].looped
  | .clear => !ts.all fun t => !t.looped
  | _ => false

namespace Watched

variable {v : Watched}

/-- All tracks that play have come to a loop without end. -/
def AllEndless (v : Watched) : Prop :=
  ∀ i : Slot, v.tracks[i].isStopped = false → v.pasts[i] = .endless

/-- All have, but for those that say so of a pattern before. -/
def AllEndlessOrLent (v : Watched) : Prop :=
  ∀ i : Slot, v.tracks[i].isStopped = false → v.pasts[i] = .endless ∨ v.pasts[i] = .lent

instance (v : Watched) : Decidable v.AllEndless := inferInstanceAs (Decidable (∀ _, _))

/-- Something holds after a word that says that the song is over. -/
def Ends (score : Score) (P : Watched → Prop) (v : Watched) (mv : Move) : Prop :=
  mv.endsSong score v.tracks = true → P (v.after score mv)

instance {P : Watched → Prop} [DecidablePred P] (v : Watched) (mv : Move) :
    Decidable (Ends score P v mv) := inferInstanceAs (Decidable (_ → _))

/-- What a track says of a loop without end is in the past of its pattern, or was
    said before it. -/
def Told (v : Watched) : Prop := ∀ i : Slot, v.tracks[i].looped = true → v.pasts[i] ≠ .plain

/-- No track says it of a pattern before. -/
def Honest (v : Watched) : Prop := ∀ i : Slot, v.pasts[i] ≠ .lent

end Watched

end Tracks

/-! ## What tracks say -/

namespace Track

variable {t : Track} {past : Past} {count : UInt8} {target : UInt16}

theorem freshPast_ne_plain (h : t.looped = true) : t.freshPast ≠ .plain := by
  rw [freshPast, if_pos h]
  rintro ⟨⟩

theorem freshPast_ne_lent (h : t.looped = false) : t.freshPast ≠ .lent := by
  rw [freshPast, h, if_neg Bool.false_ne_true]
  rintro ⟨⟩

theorem looped_loop_of_used (h : t.loops = 0) :
    (t.loop count target).1.looped = t.looped := by
  rw [Track.loop, if_pos h]

/-- Only a loop of a count of zero, met without a loop in hand, has no end. -/
theorem looped_loop_of_counted (h : t.loops ≠ 0) (hcount : ¬(t.loops = noLoops ∧ count = 0)) :
    (t.loop count target).1.looped = false := by
  have hpred : ∀ n : UInt16, n - 1 = noLoops → n = 0 := by
    intro n hn
    rw [← UInt16.sub_add_cancel n 1, hn]
    rfl
  have hleft : (if t.loops = noLoops then count.toUInt16 else t.loops) - 1 ≠ noLoops := by
    intro he
    have hzero := hpred _ he
    split at hzero
    · next hno =>
      refine hcount ⟨hno, UInt8.toNat_inj.1 ?_⟩
      rw [← UInt8.toNat_toUInt16, hzero]
      rfl
    · exact h hzero
  simp only [Track.loop, if_neg h, if_neg hleft]

/-- What a track says after a loop command is in the past of its pattern. -/
theorem Past.loop_ne_plain (h : t.looped = true → past ≠ .plain)
    (hlooped : (t.loop count target).1.looped = true) : past.loop t count ≠ .plain := by
  rw [Past.loop]
  by_cases hused : t.loops = 0
  · rw [if_pos hused]
    rw [looped_loop_of_used hused] at hlooped
    exact h hlooped
  · rw [if_neg hused]
    by_cases hendless : t.loops = noLoops ∧ count = 0
    · rw [if_pos hendless]
      rintro ⟨⟩
    · rw [looped_loop_of_counted hused hendless] at hlooped
      cases hlooped

theorem Past.loop_ne_lent (h : past ≠ .lent) : past.loop t count ≠ .lent := by
  rw [Past.loop, if_neg h]
  split_ifs
  · exact h
  · rintro ⟨⟩
  · exact h

end Track

namespace Tracks

variable {ts : Tracks}

theorem looped_modify (i j : Slot) (ts : Tracks) {f : Track → Track}
    (h : ∀ t, (f t).looped = t.looped) : (ts.modify i f)[j].looped = ts[j].looped := by
  rw [Octet.getElem_modify]
  split
  · next he => rw [h, he]
  · rfl

theorem looped_jump (t : Track) (base? : Option UInt32) (step : UInt16) :
    (t.jump base? step).looped = t.looped := by
  unfold Track.jump; split <;> rfl

theorem looped_play (t : Track) (number : UInt8) (base? : Option UInt32) (transpose : Int8) :
    (t.play number base? transpose).looped = t.looped := by
  unfold Track.play; split <;> rfl

theorem looped_enter (i j : Slot) (ts : Tracks) :
    (enter i ts).tracks[j].looped = ts[j].looped := by
  have hwait : (ts.modify i ({ · with wait := ts[i].wait - 1 }))[j].looped = ts[j].looped :=
    looped_modify i j ts fun _ => rfl
  unfold enter
  simp only
  split_ifs
  · exact looped_modify i j ts fun _ => rfl
  · rfl
  · exact hwait
  · exact hwait

theorem looped_playNote (i j : Slot) (kind : NoteKind) (w : Word) (ts : Tracks) :
    (playNote i kind w ts).tracks[j].looped = ts[j].looped := by
  cases kind with
  | hold => exact looped_modify i j ts fun _ => rfl
  | plain => rfl
  | slide => rfl

/-- Of the commands only a loop changes what a track says; a pattern that is
    started on it does not. -/
theorem looped_obey {c : Command} (hc : c ≠ .loop) (i j : Slot) (w : Word) (ts : Tracks) :
    (obey score i c w ts).tracks[j].looped = ts[j].looped := by
  cases c with
  | loop => exact absurd rfl hc
  | jump => exact looped_modify i j ts fun t => looped_jump t _ _
  | call => exact looped_modify i j ts fun t => looped_jump t.mark _ _
  | play => exact looped_modify _ j ts fun t => looped_play t _ _ _
  | finish | wait | stop | stopCustom | back => exact looped_modify i j ts fun _ => rfl
  | _ => rfl

/-- A track step takes back what a track says, where it gives it a pattern. -/
theorem looped_assign (number : UInt8) (transpose : Int8) (t : Track) :
    (Replay.assign score number transpose t).looped = (t.looped && !(number < 0x80 : Bool)) := by
  unfold Replay.assign
  simp only
  split
  · next hlt =>
    rw [decide_eq_true hlt, Bool.not_true, Bool.and_false]
    split <;> rfl
  · next hlt => rw [decide_eq_false hlt, Bool.not_false, Bool.and_true]

namespace Watched

variable {v : Watched}

theorem told_watch (ts : Tracks) : (watch ts).Told := by
  intro i hi
  show (ts.map Track.freshPast)[i] ≠ _
  rw [Octet.getElem_map]
  exact Track.freshPast_ne_plain hi

theorem Told.congr (h : v.Told) (hl : ∀ i : Slot, ts[i].looped = v.tracks[i].looped) :
    Told ⟨ts, v.pasts⟩ := fun i hi => h i ((hl i).symm.trans hi)

theorem Told.fetch (h : v.Told) (i : Slot) : (v.fetch i).Told :=
  h.congr fun j => looped_modify i j v.tracks fun _ => rfl

theorem Told.obey (h : v.Told) (i : Slot) (c : Command) (w : Word) :
    Told ⟨(Tracks.obey score i c w v.tracks).tracks, v.obey score i c w⟩ := by
  cases c with
  | loop =>
    intro j hj
    change (v.tracks.set i _)[j].looped = true at hj
    show (v.pasts.modify i _)[j] ≠ _
    rw [Octet.getElem_set] at hj
    rw [Octet.getElem_modify]
    split
    · next he =>
      rw [if_pos he] at hj
      exact Track.Past.loop_ne_plain (h i) hj
    · next he =>
      rw [if_neg he] at hj
      exact h j hj
  | play =>
    intro j hj
    -- what the track says of the pattern before is left
    have hsame : (Tracks.obey score i .play w v.tracks).tracks[j].looped = v.tracks[j].looped :=
      looped_obey (by rintro ⟨⟩) i j w v.tracks
    have hj := hsame.symm.trans hj
    rw [Watched.obey]
    split
    · next base _ =>
      show (v.pasts.set _ _)[j] ≠ _
      rw [Octet.getElem_set]
      split
      · next he =>
        subst he
        exact Track.freshPast_ne_plain hj
      · exact h j hj
    · exact h j hj
  | _ => exact h.congr fun j => looped_obey (by rintro ⟨⟩) i j w v.tracks

theorem Told.word (h : v.Told) (i : Slot) :
    Told ⟨(step score i v.tracks).tracks, v.word score i⟩ := by
  rw [step, Watched.word]
  cases score.word? v.tracks[i].base v.tracks[i].step with
  | none => exact h.congr fun j => looped_modify i j v.tracks fun _ => rfl
  | some w =>
    simp only [execute]
    cases Instruction.ofByte w.byte0 with
    | note kind => exact (h.fetch i).congr fun j => looped_playNote i j kind w _
    | command c => exact (h.fetch i).obey i c w

/-- What a track says stays told whatever happens to the tracks. -/
theorem Told.after (h : v.Told) (mv : Move) : (v.after score mv).Told := by
  cases mv with
  | enter i => exact h.congr fun j => looped_enter i j v.tracks
  | word i => exact h.word i
  | stop i => exact h.congr fun j => looped_modify i j v.tracks fun _ => rfl
  | give numbers transposes =>
    intro i hi
    simp only [Watched.after, Move.apply, Move.past, Octet.getElem_ofFn, looped_assign,
      Bool.and_eq_true, Bool.not_eq_true', decide_eq_false_iff_not] at hi ⊢
    rw [if_neg hi.2]
    exact h i hi.1
  | clear =>
    intro i hi
    simp only [Watched.after, Move.apply, Octet.getElem_map] at hi
    exact told_watch v.tracks i hi
  | reset =>
    intro i hi
    simp only [Watched.after, Move.apply, Octet.getElem_replicate] at hi
    cases hi

/-! ### What they do not say -/

theorem honest_watch (h : ∀ i : Slot, ts[i].looped = false) : (watch ts).Honest := by
  intro i
  simp only [watch, Octet.getElem_map]
  exact Track.freshPast_ne_lent (h i)

theorem Honest.obey (h : v.Honest) (i : Slot) {c : Command} {w : Word}
    (hplay : (decide (c = .play) && (score.pattern? w.byte1).isSome &&
      v.tracks[Slot.ofNat w.byte2.toNat].looped) = false) (j : Slot) :
    (v.obey score i c w)[j] ≠ .lent := by
  cases c with
  | loop =>
    rw [Watched.obey, Octet.getElem_modify]
    split
    · exact Track.Past.loop_ne_lent (h i)
    · exact h j
  | play =>
    rw [Watched.obey]
    split
    · next base hbase =>
      rw [hbase, decide_eq_true rfl, Option.isSome_some, Bool.and_true, Bool.true_and] at hplay
      rw [Octet.getElem_set]
      split
      · exact Track.freshPast_ne_lent hplay
      · exact h j
    · exact h j
  | _ => exact h j

/-- Tracks say nothing of patterns before, where nothing makes them. -/
theorem Honest.after (h : v.Honest) {mv : Move} (hmv : mv.lends score v.tracks = false) :
    (v.after score mv).Honest := by
  cases mv with
  | enter | stop => exact h
  | word i =>
    intro j
    rw [Move.lends] at hmv
    show (v.word score i)[j] ≠ _
    rw [Watched.word]
    cases hw : score.word? v.tracks[i].base v.tracks[i].step with
    | none => exact h j
    | some w =>
      rw [hw] at hmv
      simp only at hmv ⊢
      cases hc : Instruction.ofByte w.byte0 with
      | note kind => exact h j
      | command c =>
        have hfetch : (v.fetch i).Honest := h
        have hsame : (v.fetch i).tracks[Slot.ofNat w.byte2.toNat].looped =
            v.tracks[Slot.ofNat w.byte2.toNat].looped := looped_modify i _ v.tracks fun _ => rfl
        refine hfetch.obey i ?_ j
        rw [hc] at hmv
        rw [hsame]
        simpa only [Instruction.command.injEq] using hmv
  | give numbers transposes =>
    intro i
    simp only [Watched.after, Move.past, Octet.getElem_ofFn]
    split
    · rintro ⟨⟩
    · exact h i
  | clear =>
    refine honest_watch fun i => ?_
    rw [Move.lends, Bool.not_eq_false', Octet.all_eq_true_iff] at hmv
    simpa using hmv i
  | reset =>
    intro i
    simp only [Watched.after, Move.past, Octet.getElem_replicate]
    rintro ⟨⟩

/-! ## The end of a song -/

/-- Where a word says that the song is over, each track that plays has come to a
    loop without end in its pattern, or says so of one before. -/
theorem Told.ends (h : v.Told) (mv : Move) : v.Ends score AllEndlessOrLent mv := by
  intro hmv
  cases mv with
  | word i =>
    obtain ⟨-, -, hdone⟩ := request_eq_endSong (of_decide_eq_true hmv)
    intro j hplays
    have hj : ((v.after score (.word i)).tracks[j].isStopped ||
        (v.after score (.word i)).tracks[j].looped) = true :=
      (Octet.all_eq_true_iff _ _).1 hdone j
    rw [hplays, Bool.false_or] at hj
    have hpast := h.after (.word i) j hj
    cases hp : (v.after score (.word i)).pasts[j] with
    | plain => exact absurd hp hpast
    | lent => exact .inr rfl
    | endless => exact .inl rfl
  | enter | stop | give | clear | reset => cases hmv

theorem along_trivial : ∀ (ms : List Move) (v : Watched), Along score (fun _ _ => True) ms v
  | [], _ => trivial
  | _ :: ms, _ => ⟨trivial, along_trivial ms _⟩

/-- What holds of some moves, wherever a word says that the song is over. -/
structure EndsWell (score : Score) (ms : List Move) (v : Watched) : Prop where
  /-- Each track that plays has come to a loop without end in its pattern, or
      says so of a pattern before. -/
  told : v.Along score (Ends score AllEndlessOrLent) ms
  /-- Each has come to one, where no track is made to say so of a pattern
      before. -/
  honest : v.Honest → v.Along score (fun v mv => mv.lends score v.tracks = false) ms →
    v.Along score (Ends score AllEndless) ms

/-- So it is of all moves of tracks that one begins to watch. -/
theorem endsWell_watch (score : Score) (ts : Tracks) (ms : List Move) :
    (watch ts).EndsWell score ms := by
  have htold := told_watch ts
  constructor
  · exact Along.of_keeps (P := Told) (fun _ mv hv _ => hv.after mv) (fun _ mv hv _ => hv.ends mv)
      ms htold (along_trivial ms _)
  · intro hhonest hms
    refine Along.of_keeps (P := fun v => v.Told ∧ v.Honest)
      (fun _ mv hv hmv => ⟨hv.1.after mv, hv.2.after hmv⟩) ?_ ms ⟨htold, hhonest⟩ hms
    intro v mv hv hmv hend i hplays
    exact (hv.1.ends mv hend i hplays).resolve_right (hv.2.after hmv i)

end Watched

end Tracks

open Tracks (watch)

/-- A song may be heard from the start of a sub-song on, through whatever moves
    of ticks and of a host, or it may be gone through; what happens to the tracks
    is then known.  Wherever a word says that the song is over, each track that
    plays has itself come to a loop without end since its pattern was given to
    it, but for those that still say so of a pattern before.  There are none of
    those where the tracks say nothing as the sub-song is entered, and no word
    starts a pattern on a track that does. -/
theorem Replay.ends_song (score : Score) (rate : UInt32) (r : Replay) (n : Nat) (ms : List Move)
    (song : SubSong) (k : Nat) :
    ((watch r.tracks).EndsWell score (onTracks score rate (.select n :: ms) r) ∧
      Tracks.run score (onTracks score rate (.select n :: ms) r) r.tracks =
        (run score rate (.select n :: ms) r).tracks) ∧
    (watch (Survey.ofSong song).tracks).EndsWell score
      (Survey.moves score song k (Survey.ofSong song)) ∧
    Tracks.run score (Survey.moves score song k (Survey.ofSong song)) (Survey.ofSong song).tracks =
      (Survey.run score song k (Survey.ofSong song)).tracks := by
  refine ⟨⟨Tracks.Watched.endsWell_watch .., ?_⟩, Tracks.Watched.endsWell_watch .., ?_⟩
  · exact (tracks_run (.select n :: ms) r).symm
  · exact Survey.run_moves song k _

/-! ## Two songs -/

namespace Player

open Tracks (Watched)

/-- The moves of the tracks from the start of the first sub-song up to the end
    of some ticks. -/
def heardMoves (p q : Player) (k : Nat) : List Tracks.Move :=
  Replay.onTracks p.tune.score p.rate (.select 0 :: (p.playMoves 0 q k).drop 2)
    (Replay.initial false).reset

/-- A tune of two tracks, both in loops without end from their second row on. -/
def droneTune : ByteArray :=
  songTune 0 0 [0 :: 0 :: List.replicate 6 0xff00] [[0xf3000000, 0xf1000000]] []

/-- There a word says that the song is over, and both tracks have come to their
    loops. -/
theorem ends_droneTune : ∃ tune p q, load droneTune (some ⟨#[]⟩) = .ok tune ∧
    Player.new tune minRate = .ok p ∧ p.start 0 = .ok q ∧
      let start := watch (Replay.initial false).reset.tracks
      start.Honest ∧
      start.Along tune.score (fun v mv => mv.lends tune.score v.tracks = false)
        (p.heardMoves q 2) ∧
      ¬start.Along tune.score (fun v mv => mv.endsSong tune.score v.tracks = false)
        (p.heardMoves q 2) ∧
      start.Along tune.score (Watched.Ends tune.score Watched.AllEndless) (p.heardMoves q 2) := by
  have h : ((load droneTune (some ⟨#[]⟩)).toOption.bind fun tune =>
      (Player.new tune minRate).toOption.map fun p => (p.start 0).toOption.map fun q =>
        let start := watch (Replay.initial false).reset.tracks
        let score := p.tune.score
        (decide (start.Along score (fun v mv => mv.lends score v.tracks = false)
            (p.heardMoves q 2)),
          decide (start.Along score (fun v mv => mv.endsSong score v.tracks = false)
            (p.heardMoves q 2)))) = some (some (true, false)) := by decide +kernel
  obtain ⟨tune, p, hload, hnew, h⟩ := exists_new h
  obtain rfl := new_tune hnew
  obtain ⟨q, hq, h⟩ := Option.map_eq_some_iff.1 h
  simp only [Prod.mk.injEq, decide_eq_true_eq, decide_eq_false_iff_not] at h
  obtain ⟨hlends, hends⟩ := h
  have hhonest : (watch (Replay.initial false).reset.tracks).Honest := by
    refine Watched.honest_watch fun i => ?_
    rw [Replay.tracks_reset, Octet.getElem_replicate]
    rfl
  exact ⟨p.tune, p, q, hload, hnew, eq_ok_of_toOption hq, hhonest, hlends, hends,
    (Replay.ends_song p.tune.score p.rate _ 0 _ ⟨0, 0, 0⟩ 0).1.1.honest hhonest hlends⟩

/-- A tune whose first track loops without end when the second one starts
    another pattern on it, one that ends eight rows later; the second track then
    comes to such a loop too. -/
def lentTune : ByteArray :=
  songTune 0 0 [0 :: 0x100 :: List.replicate 6 0xff00]
    [[0xf3000000, 0xf1000000], [0xf3010000, 0xfb020000, 0xf3000000, 0xf1000002],
      [0xf3070000, 0xf0000000]] []

/-- There a word says that the song is over, though the pattern of the first
    track has come to no loop: in the fourth tick, and where the song is gone
    through. -/
theorem ends_early : ∃ tune p q, load lentTune (some ⟨#[]⟩) = .ok tune ∧
    Player.new tune minRate = .ok p ∧ p.start 0 = .ok q ∧
      tune.score.subSong? 0 = some ⟨0, 0, 0⟩ ∧
      ¬(watch (Replay.initial false).reset.tracks).Along tune.score
        (Watched.Ends tune.score Watched.AllEndless) (p.heardMoves q 4) ∧
      ¬(watch (Survey.ofSong ⟨0, 0, 0⟩).tracks).Along tune.score
        (Watched.Ends tune.score Watched.AllEndless)
        (Survey.moves tune.score ⟨0, 0, 0⟩ Survey.stepBound (Survey.ofSong ⟨0, 0, 0⟩)) := by
  have h : ((load lentTune (some ⟨#[]⟩)).toOption.bind fun tune =>
      (Player.new tune minRate).toOption.map fun p => (p.start 0).toOption.map fun q =>
        let score := p.tune.score
        (score.subSong? 0,
          decide ((watch (Replay.initial false).reset.tracks).Along score
            (Watched.Ends score Watched.AllEndless) (p.heardMoves q 4)),
          decide ((watch (Survey.ofSong ⟨0, 0, 0⟩).tracks).Along score
            (Watched.Ends score Watched.AllEndless)
            (Survey.moves score ⟨0, 0, 0⟩ Survey.stepBound (Survey.ofSong ⟨0, 0, 0⟩))))) =
        some (some (some ⟨0, 0, 0⟩, false, false)) := by decide +kernel
  obtain ⟨tune, p, hload, hnew, h⟩ := exists_new h
  obtain rfl := new_tune hnew
  obtain ⟨q, hq, h⟩ := Option.map_eq_some_iff.1 h
  simp only [Prod.mk.injEq, decide_eq_false_iff_not] at h
  obtain ⟨hsong, hheard, hsurveyed⟩ := h
  exact ⟨p.tune, p, q, hload, hnew, eq_ok_of_toOption hq, hsong, hheard, hsurveyed⟩

end Player

end PaulaReplay
