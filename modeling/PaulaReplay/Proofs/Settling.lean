/-
  Settling: a search for a track step that plays patterns comes to its end.

  The commands of a song may lead anywhere, also round and round.  A search reads
  a bounded number of track steps, and leaves the tracks with the patterns of the
  last one, or with what they played and the song at its end.

  * `Replay.readings`: the states at which some moves read a track step;
  * `Track.IsGiven`: what a track step makes of a track, and `isGiven_assign` that
    the replay does so; `IsGiven.same` says that a pattern which a step begins
    does not depend on what was played before;
  * `Replay.Assigned`: the tracks are given the patterns of a track step;
  * `readStep_cases`: a track step is followed by another one, or gives patterns,
    or ends the song; `readSteps_cases` for some of them;
  * `seekStep_settles`: so does every search.
-/
import PaulaReplay.Proofs.Pointers

namespace PaulaReplay

variable {score : Score} {rate : UInt32} {r : Replay}

/-! ## Patterns that are given -/

theorem TrackStep.command?_eq_none_iff {s : TrackStep} :
    s.command? = none ↔ s.isCommand = false := by
  unfold TrackStep.command?
  cases s.isCommand with
  | false => exact iff_of_true rfl rfl
  | true =>
    refine iff_of_false ?_ Bool.noConfusion
    simp only [if_true]
    split <;> rintro ⟨⟩

/-- Track `t'` is track `t` as a track step gives it the pattern `number` and a
    transposition. -/
structure Track.IsGiven (score : Score) (number : UInt8) (transpose : Int8) (t t' : Track) :
    Prop where
  transpose : t'.transpose = transpose
  /-- A pattern begins at its first word, outside of loops. -/
  begins : number < 0x80 → t'.step = 0 ∧ t'.wait = 0 ∧ t'.loops = noLoops ∧ t'.looped = false
  found : ∀ base, number < 0x80 → score.pattern? number = some base →
    t'.number = number ∧ t'.base = base
  /-- A track whose pattern does not exist is stopped. -/
  missing : number < 0x80 → score.pattern? number = none →
    t'.number = stoppedNumber ∧ t'.base = 0
  /-- From 0x80 on the track goes on with what it plays. -/
  goesOn : 0x80 ≤ number → t'.number = number ∧ t'.base = t.base ∧ t'.step = t.step ∧
    t'.wait = t.wait ∧ t'.loops = t.loops ∧ t'.looped = t.looped
  returns : t'.returnBase = t.returnBase ∧ t'.returnStep = t.returnStep

namespace Track

variable {number : UInt8} {transpose : Int8} {t t' u u' : Track}

/-- What the replay makes of a track is what is given to it. -/
theorem isGiven_assign (score : Score) (number : UInt8) (transpose : Int8) (t : Track) :
    t.IsGiven score number transpose (Replay.assign score number transpose t) := by
  unfold Replay.assign
  by_cases hnumber : number < 0x80
  · have hnot : ¬(0x80 ≤ number) := UInt8.not_le.2 hnumber
    simp only [if_pos hnumber]
    cases hbase : score.pattern? number with
    | none =>
      exact ⟨rfl, fun _ => ⟨rfl, rfl, rfl, rfl⟩,
        fun base _ h => absurd h (by rw [hbase]; rintro ⟨⟩), fun _ _ => ⟨rfl, rfl⟩,
        fun h => absurd h hnot, rfl, rfl⟩
    | some base =>
      refine ⟨rfl, fun _ => ⟨rfl, rfl, rfl, rfl⟩, fun base' _ h => ?_,
        fun _ h => absurd h (by rw [hbase]; rintro ⟨⟩), fun h => absurd h hnot, rfl, rfl⟩
      rw [hbase] at h
      exact ⟨rfl, Option.some.inj h⟩
  · simp only [if_neg hnumber]
    exact ⟨rfl, fun h => absurd h hnumber, fun _ h => absurd h hnumber,
      fun h => absurd h hnumber, fun _ => ⟨rfl, rfl, rfl, rfl, rfl, rfl⟩, rfl, rfl⟩

/-- Two tracks play alike, wherever they go back to. -/
structure Same (t u : Track) : Prop where
  number : t.number = u.number
  transpose : t.transpose = u.transpose
  base : t.base = u.base
  step : t.step = u.step
  wait : t.wait = u.wait
  loops : t.loops = u.loops
  looped : t.looped = u.looped

/-- A pattern that begins is the same on any track. -/
theorem IsGiven.same (h : t.IsGiven score number transpose t')
    (h' : u.IsGiven score number transpose u') (hnumber : number < 0x80) : t'.Same u' := by
  obtain ⟨hstep, hwait, hloops, hlooped⟩ := h.begins hnumber
  obtain ⟨hstep', hwait', hloops', hlooped'⟩ := h'.begins hnumber
  obtain ⟨hn, hb⟩ : t'.number = u'.number ∧ t'.base = u'.base := by
    cases hbase : score.pattern? number with
    | none =>
      obtain ⟨hn, hb⟩ := h.missing hnumber hbase
      obtain ⟨hn', hb'⟩ := h'.missing hnumber hbase
      exact ⟨hn.trans hn'.symm, hb.trans hb'.symm⟩
    | some base =>
      obtain ⟨hn, hb⟩ := h.found base hnumber hbase
      obtain ⟨hn', hb'⟩ := h'.found base hnumber hbase
      exact ⟨hn.trans hn'.symm, hb.trans hb'.symm⟩
  exact ⟨hn, h.transpose.trans h'.transpose.symm, hb, hstep.trans hstep'.symm,
    hwait.trans hwait'.symm, hloops.trans hloops'.symm, hlooped.trans hlooped'.symm⟩

end Track

namespace Replay

/-- In `r'` the position is at a track step that is no command, whose patterns the
    tracks of `r` have been given. -/
def Assigned (score : Score) (r r' : Replay) : Prop :=
  ∃ s, score.trackStep? r'.place.current = some s ∧ s.isCommand = false ∧
    ∀ i : Slot, r.tracks[i].IsGiven score (s.patternOf i) (s.transposeOf i) r'.tracks[i]

/-! ## Track steps that are read -/

/-- The state at which a move reads a track step, if it does. -/
def Move.reading (r : Replay) : Move → List Replay
  | .readStep => [r]
  | _ => []

/-- The states at which some moves read a track step. -/
def readings (score : Score) (rate : UInt32) : List Move → Replay → List Replay
  | [], _ => []
  | mv :: ms, r => mv.reading r ++ readings score rate ms (mv.apply score rate r)

theorem readings_append : ∀ (ms ns : List Move) (r : Replay), readings score rate (ms ++ ns) r =
    readings score rate ms r ++ readings score rate ns (run score rate ms r)
  | [], _, _ => rfl
  | mv :: ms, ns, r => by
    rw [List.cons_append, readings, readings, readings_append ms, run_cons, List.append_assoc]

theorem readings_stepMoves_succ (n : Nat) (r : Replay) :
    readings score rate (stepMoves score (n + 1) r) r = r ::
      if (r.readStep score).2 then
        readings score rate (stepMoves score n (r.readStep score).1) (r.readStep score).1
      else [] := by
  rw [stepMoves, readings]
  split <;> rfl

/-- A search for at most so many track steps reads no more. -/
theorem length_readings_le : ∀ (n : Nat) (r : Replay),
    (readings score rate (stepMoves score n r) r).length ≤ n
  | 0, _ => Nat.le_refl 0
  | n + 1, r => by
    rw [readings_stepMoves_succ, List.length_cons]
    split
    · exact Nat.succ_le_succ (length_readings_le n _)
    · exact Nat.succ_le_succ (Nat.zero_le n)

/-! ## The end of a search -/

theorem ended_reachEnd (r : Replay) : r.reachEnd.machine.master.ended = true := by
  unfold reachEnd Machine.reachEnd onMachine
  simp only
  split
  · next h => exact h
  · rfl

/-- A track step that is no command gives the tracks their patterns. -/
theorem isGiven_readStep {s : TrackStep} (hs : score.trackStep? r.place.current = some s)
    (hc : s.command? = none) (i : Slot) :
    r.tracks[i].IsGiven score (s.patternOf i) (s.transposeOf i) (r.readStep score).1.tracks[i] := by
  have hread : r.readStep score =
      ({ r.greeted with tracks := assignAll score s r.greeted.tracks }, false) := by
    simp only [readStep_eq, hs, hc]
  simp only [hread, assignAll, Octet.getElem_ofFn, tracks_greeted]
  exact Track.isGiven_assign score _ _ _

/-- A track step that is read leads to another one, and leaves the tracks; or the
    song is at its end, and they are left too; or they are given patterns. -/
theorem readStep_cases (score : Score) (r : Replay) :
    ((r.readStep score).2 = true ∧ (r.readStep score).1.tracks = r.tracks) ∨
      ((r.readStep score).2 = false ∧ (r.readStep score).1.tracks = r.tracks ∧
        (r.readStep score).1.machine.master.ended = true) ∨
      ((r.readStep score).2 = false ∧ Assigned score r (r.readStep score).1) := by
  have htracks := tracks_greeted r
  cases hs : score.trackStep? r.place.current with
  | none =>
    have hread : r.readStep score = (r.greeted.reachEnd, false) := by simp only [readStep_eq, hs]
    rw [hread]
    exact .inr (.inl ⟨rfl, htracks, ended_reachEnd _⟩)
  | some s =>
    cases hc : s.command? with
    | none =>
      have hcommand : score.command? r.place.current = none := by rw [Score.command?, hs]; exact hc
      obtain ⟨hplace, hrests, -⟩ := readStep_of_no_command hcommand
      refine .inr (.inr ⟨hrests, s, ?_, TrackStep.command?_eq_none_iff.1 hc,
        isGiven_readStep hs hc⟩)
      rw [hplace, hs]
    | some c =>
      have hread : r.readStep score = r.greeted.obey c := by simp only [readStep_eq, hs, hc]
      have hobey := (tracks_obey r.greeted c).trans htracks
      rw [hread]
      cases c with
      | stop => exact .inr (.inl ⟨rfl, hobey, ended_reachEnd _⟩)
      | loop | speed | timeShare | fade | idle => exact .inl ⟨rfl, hobey⟩

theorem readSteps_succ (score : Score) (n : Nat) (r : Replay) : readSteps score (n + 1) r =
    if (r.readStep score).2 then readSteps score n (r.readStep score).1
    else (r.readStep score).1 := by
  rw [readSteps]
  rcases r.readStep score with ⟨r', _ | _⟩ <;> rfl

/-- A search goes on behind a track step that leads it on. -/
theorem readSteps_of_reads (n : Nat) (h : (r.readStep score).2 = true) :
    readSteps score (n + 1) r = readSteps score n (r.readStep score).1 := by
  rw [readSteps_succ, if_pos h]

/-- A search ends at a track step where the song rests. -/
theorem readSteps_of_rests (n : Nat) (h : (r.readStep score).2 = false) :
    readSteps score (n + 1) r = (r.readStep score).1 := by
  rw [readSteps_succ, h]
  rfl

/-- A search for at most so many track steps ends the song and leaves the tracks,
    or gives them the patterns of the last one. -/
theorem readSteps_cases (score : Score) : ∀ (n : Nat) (r : Replay),
    ((readSteps score n r).machine.master.ended = true ∧ (readSteps score n r).tracks = r.tracks) ∨
      Assigned score r (readSteps score n r)
  | 0, r => .inl ⟨ended_reachEnd r, rfl⟩
  | n + 1, r => by
    rcases readStep_cases score r with ⟨hreads, htracks⟩ | ⟨hrests, htracks, hended⟩ |
      ⟨hrests, hassigned⟩
    · -- the tracks are still those at the start of the search
      rw [readSteps_of_reads n hreads]
      rcases readSteps_cases score n (r.readStep score).1 with ⟨hended, hleft⟩ |
        ⟨s, hs, hcommand, hgiven⟩
      · exact .inl ⟨hended, hleft.trans htracks⟩
      · rw [htracks] at hgiven
        exact .inr ⟨s, hs, hcommand, hgiven⟩
    · rw [readSteps_of_rests n hrests]
      exact .inl ⟨hended, htracks⟩
    · rw [readSteps_of_rests n hrests]
      exact .inr hassigned

/-- Every search for a track step that plays patterns comes to its end: it reads
    0x1000 track steps at most.  Then the song has come to its end, and the tracks
    are left as they were; or the position is at a track step that is no command,
    and each track is given its pattern. -/
theorem seekStep_settles (score : Score) (rate : UInt32) (r : Replay) :
    run score rate (seekMoves score r) r = r.seekStep score ∧
      (readings score rate (seekMoves score r) r).length ≤ 0x1000 ∧
      ((r.seekStep score).machine.master.ended = true ∧ (r.seekStep score).tracks = r.tracks ∨
        Assigned score r (r.seekStep score)) :=
  ⟨run_seekMoves r, length_readings_le stepBound r, readSteps_cases score stepBound r⟩

end Replay

end PaulaReplay
