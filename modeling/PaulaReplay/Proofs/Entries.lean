/-
  Entries: what the timeline of a sub-song says of a position.

  An entry is to say what holds at the start of its position.  A survey enters the
  positions in their order: as it comes to one it enters what holds there, also for
  those before it that have no entry yet, since it has jumped over them.  But it
  misses a position to which a loop command has just jumped.  If that one has no
  entry yet it gets it too late, as the survey comes to the next one, and the entry
  says what holds there, not at its own position.

  * `Survey.entry`: what a survey enters; `Survey.enters` says that it is entered
    for a position which has no entry yet;
  * `entries_step` and `records_step`: what a track step does to the entries, and
    when it has the next position entered;
  * `getElem?_run`: an entry is what holds as the survey first enters the position
    or one after it; `size_run`: there are none past the sub-song;
  * `Timeline.entries_of_survey`: all of it, for the timeline of a sub-song, and
    for which positions the entry is the right one.
-/
import Mathlib.Data.List.Chain
import PaulaReplay.Proofs.Itinerary

namespace PaulaReplay

namespace Survey

variable {score : Score} {song : SubSong} {s s' : Survey} {first k : Nat}

/-! ## Entries -/

/-- What a survey enters as it comes to a position. -/
def entry (s : Survey) : Timeline.Entry := ⟨s.speed, s.clocks, s.time.toUInt32⟩

/-- Where position `k` of a sub-song that begins at `first` has no entry yet, it
    gets one: the survey has come there or beyond, and does not miss it. -/
def enters (first k : Nat) (s : Survey) : Bool := s.records && decide (first + k ≤ s.position)

theorem getElem?_record (first : Nat) (s : Survey) (k : Nat) :
    (s.record first).entries[k]? =
      s.entries[k]?.or (if s.enters first k then some s.entry else none) := by
  unfold record enters entry
  simp only [Array.getElem?_append, Array.getElem?_replicate]
  split
  · next hk => rw [Array.getElem?_eq_getElem hk, Option.some_or]
  · next hk =>
    rw [Array.getElem?_eq_none (Nat.not_lt.1 hk), Option.none_or]
    cases s.records with
    | false => simp
    | true =>
      simp only [if_true, Bool.true_and, decide_eq_true_eq]
      exact if_congr (by omega) rfl rfl

theorem size_record_le {bound : Nat} (hsize : s.entries.size ≤ bound)
    (hposition : s.position + 1 - first ≤ bound) : (s.record first).entries.size ≤ bound := by
  unfold record
  simp only [Array.size_append, Array.size_replicate]
  split <;> omega

/-! ## Track steps -/

/-- Whether a survey has come to a loop command that jumps. -/
def jumps (score : Score) (s : Survey) : Bool :=
  match score.command? (UInt16.ofNat s.position) with
  | some (.loop _ _) => s.trackLoop != 0
  | _ => false

/-- A command leaves the entries, and what it does to the position decides whether
    the next one is entered. -/
theorem entries_obey {c : StepCommand} (h : s.obey c = some s') :
    s'.entries = s.entries ∧ s'.records = (s.records && c.goesOn s.trackLoop) := by
  cases c with
  | stop => cases h
  | loop target count =>
    rw [obey, loop] at h
    simp only [StepCommand.goesOn]
    split at h
    · next hj =>
      cases h
      exact ⟨rfl, by rw [hj]; exact (Bool.and_true _).symm⟩
    · next hj =>
      extract_lets fresh left at h
      rw [beq_false_of_ne hj, Bool.and_false]
      split at h
      · cases h
      · split at h
        · cases h
        · cases h
          exact ⟨rfl, rfl⟩
  | speed | timeShare | fade | idle =>
    cases h
    exact ⟨rfl, (Bool.and_true _).symm⟩

/-- The rows of a track step change the tracks and take their time. -/
theorem exists_playStep (score : Score) (t : TrackStep) (s : Survey) :
    ∃ tracks time, s.playStep score t = { s with tracks, time }.next := by
  unfold playStep
  extract_lets tracks
  rcases rows score s.rowTime rowBound tracks s.time with ⟨tracks, time⟩
  exact ⟨tracks, time, rfl⟩

/-- Patterns are played row by row. -/
theorem step_of_patterns {t : TrackStep} (ht : score.trackStep? (UInt16.ofNat s.position) = some t)
    (hc : t.command? = none) (first : Nat) :
    s.step score first = ((s.record first).playStep score t, true) := by
  have hposition : (s.record first).position = s.position := rfl
  unfold step
  simp only [hposition, ht, hc]

/-- Entries are made before a track step is gone through, and the position that
    comes next is entered unless the track step jumps to it. -/
theorem entries_step (score : Score) (first : Nat) (s : Survey) :
    (s.step score first).1.entries = (s.record first).entries ∧
      ((s.step score first).2 = true → (s.step score first).1.records = !s.jumps score) := by
  unfold jumps
  rcases score.step_cases (UInt16.ofNat s.position) with ⟨hnone, -⟩ | ⟨c, hc, -⟩ | ⟨hc, ha⟩
  · rw [step_of_none hnone]
    exact ⟨rfl, Bool.noConfusion⟩
  · rw [step_of_command hc, hc]
    cases hobey : (s.record first).obey c with
    | none => exact ⟨rfl, Bool.noConfusion⟩
    | some s' =>
      obtain ⟨hentries, hrecords⟩ := entries_obey hobey
      refine ⟨hentries, fun _ => hrecords.trans ?_⟩
      cases c with
      | stop => cases hobey
      | loop => exact (Bool.not_not (s.trackLoop == 0)).symm
      | speed | timeShare | fade | idle => rfl
  · obtain ⟨t, ht, hnone⟩ := (Option.any_eq_true _ _).1 ha
    obtain ⟨tracks, time, hplay⟩ := exists_playStep score t (s.record first)
    rw [step_of_patterns ht (Option.isNone_iff_eq_none.1 hnone), hc, hplay]
    exact ⟨rfl, fun _ => rfl⟩

/-! ## Surveys -/

/-- After some track steps an entry is what it was, or what was entered for it
    first. -/
theorem getElem?_run (score : Score) (song : SubSong) (k : Nat) : ∀ (n : Nat) (s : Survey),
    (run score song n s).entries[k]? = s.entries[k]?.or
      (((trail score song n s).find? (enters song.first.toNat k)).map entry)
  | 0, s => by simp [run, trail]
  | n + 1, s => by
    by_cases hle : s.position ≤ song.last.toNat
    · have hrun : run score song (n + 1) s = if (s.step score song.first.toNat).2 then
          run score song n (s.step score song.first.toNat).1
          else (s.step score song.first.toNat).1 := by
        rw [run, if_pos hle]
        rcases s.step score song.first.toNat with ⟨s', _ | _⟩ <;> rfl
      have hentered : (s.step score song.first.toNat).1.entries[k]? = s.entries[k]?.or
          (if s.enters song.first.toNat k then some s.entry else none) := by
        rw [(entries_step score _ s).1, getElem?_record]
      rw [hrun, trail_succ hle, List.find?_cons]
      cases hgoes : (s.step score song.first.toNat).2 with
      | false =>
        simp only [Bool.false_eq_true, if_false, hentered]
        cases s.enters song.first.toNat k <;> rfl
      | true =>
        simp only [if_true, getElem?_run score song k n, hentered, Option.or_assoc]
        cases s.enters song.first.toNat k <;> simp
    · rw [trail_of_gt (Nat.lt_of_not_le hle), run, if_neg hle]
      simp

/-- There are no entries past the sub-song. -/
theorem size_run (score : Score) (song : SubSong) {bound : Nat}
    (hbound : song.last.toNat + 1 - song.first.toNat ≤ bound) :
    ∀ (n : Nat) (s : Survey), s.entries.size ≤ bound → (run score song n s).entries.size ≤ bound
  | 0, _, h => h
  | n + 1, s, h => by
    rw [run]
    split
    · next hle =>
      have hstep : (s.step score song.first.toNat).1.entries.size ≤ bound := by
        rw [(entries_step score _ s).1]
        exact size_record_le h (by omega)
      rcases hs : s.step score song.first.toNat with ⟨s', _ | _⟩
      · rw [hs] at hstep
        exact hstep
      · rw [hs] at hstep
        exact size_run score song hbound n s' hstep
    · exact h

theorem eq_of_mem_head?_trail {n : Nat} (h : s' ∈ (trail score song n s).head?) : s' = s := by
  cases n with
  | zero => cases h
  | succ n =>
    by_cases hle : s.position ≤ song.last.toNat
    · rw [trail_succ hle] at h
      exact (Option.some.inj h).symm
    · rw [trail_of_gt (Nat.lt_of_not_le hle)] at h
      cases h

/-- From one position to the next a survey notes whether it has jumped. -/
theorem isChain_trail (score : Score) (song : SubSong) : ∀ (n : Nat) (s : Survey),
    (trail score song n s).IsChain fun s s' => s'.records = !s.jumps score
  | 0, _ => .nil
  | n + 1, s => by
    by_cases hle : s.position ≤ song.last.toNat
    · rw [trail_succ hle, List.isChain_cons]
      split
      · next hgoes =>
        refine ⟨fun s' hs' => ?_, isChain_trail score song n _⟩
        rw [eq_of_mem_head?_trail hs']
        exact (entries_step score _ s).2 hgoes
      · exact ⟨nofun, .nil⟩
    · rw [trail_of_gt (Nat.lt_of_not_le hle)]
      exact .nil

/-- Of the positions that a survey comes to, those are not entered at once to
    which it has jumped. -/
theorem records_of_trail {n : Nat} {before after : List Survey} (hs : s.records = true)
    (h : trail score song n s = before ++ s' :: after) :
    s'.records = !before.getLast?.any (jumps score) := by
  cases hlast : before.getLast? with
  | none =>
    rw [List.getLast?_eq_none_iff.1 hlast] at h
    have hhead : s' = s := eq_of_mem_head?_trail (by rw [h]; rfl)
    rw [hhead]
    exact hs
  | some b =>
    have hchain := isChain_trail score song n s
    rw [h] at hchain
    exact (List.isChain_append.1 hchain).2.2 b hlast s' rfl

end Survey

/-! ## Timelines -/

namespace Timeline

variable {score : Score} {n : Nat} {song : SubSong}

/-- A timeline has no more entries than the sub-song has positions, and entry `k`
    holds the speed, the clocks and the time as the survey of the sub-song first
    comes to position `k` or beyond it and has it entered (`records`), which it
    misses after each jump of a loop.  So the entry is right, and holds what holds
    at the start of position `k`, where the survey comes to that one first and by
    itself; where a jump leads there first, the entry is the one of a later
    position. -/
theorem entries_of_survey (h : score.subSong? n = some song) :
    (ofSong score n).entries.size ≤ song.last.toNat + 1 - song.first.toNat ∧
      (∀ k, (ofSong score n).entries[k]? =
        ((Survey.trail score song Survey.stepBound (Survey.ofSong song)).find?
          (Survey.enters song.first.toNat k)).map Survey.entry) ∧
      (∀ before s after,
        Survey.trail score song Survey.stepBound (Survey.ofSong song) = before ++ s :: after →
          s.records = !before.getLast?.any (Survey.jumps score) ∧
          ∀ k, s.position = song.first.toNat + k → s.records = true →
            (∀ b ∈ before, b.records = true → b.position < song.first.toNat + k) →
              (ofSong score n).entries[k]? = some ⟨s.speed, s.clocks, s.time.toUInt32⟩) := by
  have hentries : (ofSong score n).entries =
      (Survey.run score song Survey.stepBound (Survey.ofSong song)).entries := by
    rw [ofSong, h]
  have hget : ∀ k, (ofSong score n).entries[k]? =
      ((Survey.trail score song Survey.stepBound (Survey.ofSong song)).find?
        (Survey.enters song.first.toNat k)).map Survey.entry := fun k => by
    rw [hentries, Survey.getElem?_run]
    rfl
  refine ⟨?_, hget, fun before s after htrail => ⟨?_, fun k hposition hrecords hbefore => ?_⟩⟩
  · rw [hentries]
    exact Survey.size_run score song (Nat.le_refl _) _ _ (Nat.zero_le _)
  · exact Survey.records_of_trail rfl htrail
  · have hnone : before.find? (Survey.enters song.first.toNat k) = none :=
      List.find?_eq_none.2 fun b hb => by
        unfold Survey.enters
        intro henters
        obtain ⟨hr, hle⟩ := Bool.and_eq_true_iff.1 henters
        exact absurd (of_decide_eq_true hle) (Nat.not_le.2 (hbefore b hb hr))
    have henters : s.enters song.first.toNat k = true := by
      rw [Survey.enters, hrecords, hposition, decide_eq_true (Nat.le_refl _)]
      rfl
    rw [hget, htrail, List.find?_append, hnone, List.find?_cons_of_pos henters]
    rfl

/-- A tune of four positions: the first one jumps to the third one, which sets the
    speed, and the last one plays a pattern. -/
def skipTune : ByteArray :=
  let step : List UInt16 := 0 :: List.replicate 7 0xff00
  songTune 3 5 [[0xeffe, 1, 2, 1], step, [0xeffe, 2, 3, 0], step] [[0xf3000000, 0xf0000000]] []

/-- The positions and speeds of the survey of `skipTune`, and the speeds of its
    entries. -/
theorem speeds_skipTune : ∃ tune song, load skipTune (some ⟨#[]⟩) = .ok tune ∧
    tune.score.subSong? 0 = some song ∧ song.first = 0 ∧
      (Survey.trail tune.score song Survey.stepBound (Survey.ofSong song)).map
        (fun s => (s.position, s.records, s.speed)) =
          [(0, true, 5), (2, false, 5), (3, true, 3)] ∧
      (ofSong tune.score 0).entries.toList.map Entry.speed = [5, 3, 3, 3] := by
  have h : ((load skipTune (some ⟨#[]⟩)).toOption.map fun tune => (tune.score.subSong? 0,
      (Survey.trail tune.score ⟨0, 3, 5⟩ Survey.stepBound (Survey.ofSong ⟨0, 3, 5⟩)).map
        (fun s => (s.position, s.records, s.speed)),
      (ofSong tune.score 0).entries.toList.map Entry.speed)) =
      some (some ⟨0, 3, 5⟩, [(0, true, 5), (2, false, 5), (3, true, 3)], [5, 3, 3, 3]) := by
    decide +kernel
  obtain ⟨tune, hload, h⟩ := Option.map_eq_some_iff.1 h
  simp only [Prod.mk.injEq] at h
  exact ⟨tune, _, Player.eq_ok_of_toOption hload, h.1, rfl, h.2.1, h.2.2⟩

/-- The entry of the last position, which is come to by itself. -/
theorem entries_skipTune : ∃ tune song e, load skipTune (some ⟨#[]⟩) = .ok tune ∧
    tune.score.subSong? 0 = some song ∧ (ofSong tune.score 0).entries[3]? = some e ∧
      e.speed = 3 := by
  obtain ⟨tune, song, hload, hsong, hfirst, htrail, -⟩ := speeds_skipTune
  obtain ⟨s₀, rest, htrail', hs₀, hrest⟩ := List.map_eq_cons_iff.1 htrail
  obtain ⟨s₁, rest, rfl, hs₁, hrest⟩ := List.map_eq_cons_iff.1 hrest
  obtain ⟨s₂, rest, rfl, hs₂, hrest⟩ := List.map_eq_cons_iff.1 hrest
  simp only [Prod.mk.injEq] at hs₀ hs₁ hs₂
  obtain ⟨-, -, htrails⟩ := entries_of_survey hsong
  obtain ⟨-, hentry⟩ := htrails [s₀, s₁] s₂ rest htrail'
  refine ⟨tune, song, _, hload, hsong, hentry 3 (by rw [hfirst, hs₂.1]; rfl) hs₂.2.1 ?_, hs₂.2.2⟩
  rw [hfirst]
  intro b hb _
  rcases List.mem_cons.1 hb with rfl | hb
  · rw [hs₀.1]
    decide
  · rw [List.mem_singleton.1 hb, hs₁.1]
    decide

/-- The third position of `skipTune` is first come to at the speed of the song, by
    a jump.  It is missed, and its entry wrongly holds the speed of the fourth one,
    which the third one sets. -/
theorem entry_after_jump : ∃ tune song before s after e,
    load skipTune (some ⟨#[]⟩) = .ok tune ∧ tune.score.subSong? 0 = some song ∧
      Survey.trail tune.score song Survey.stepBound (Survey.ofSong song) = before ++ s :: after ∧
      (∀ b ∈ before, b.position ≠ song.first.toNat + 2) ∧
      s.position = song.first.toNat + 2 ∧ s.speed = 5 ∧
      (ofSong tune.score 0).entries[2]? = some e ∧ e.speed = 3 := by
  obtain ⟨tune, song, hload, hsong, hfirst, htrail, hspeeds⟩ := speeds_skipTune
  obtain ⟨s₀, rest, htrail', hs₀, hrest⟩ := List.map_eq_cons_iff.1 htrail
  obtain ⟨s₁, rest, rfl, hs₁, -⟩ := List.map_eq_cons_iff.1 hrest
  simp only [Prod.mk.injEq] at hs₀ hs₁
  have he := congrArg (fun l : List UInt16 => l[2]?) hspeeds
  simp only [List.getElem?_map, Array.getElem?_toList] at he
  obtain ⟨e, he, hspeed⟩ := Option.map_eq_some_iff.1 he
  refine ⟨tune, song, [s₀], s₁, rest, e, hload, hsong, htrail', fun b hb => ?_, ?_, hs₁.2.2, he,
    hspeed⟩
  · rw [List.mem_singleton.1 hb, hs₀.1, hfirst]
    decide
  · rw [hs₁.1, hfirst]
    rfl

end Timeline

end PaulaReplay
