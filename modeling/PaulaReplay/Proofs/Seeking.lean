/-
  Seeking: a seek to a position lands where playback comes to.

  A survey, playback and a seek each find out for themselves at which speed and
  tempo a position is played: the survey from the commands before it, playback by
  obeying these, and a seek from the entry of the survey.  In a sub-song without
  loops they agree.

  * `Score.bearingAt`: where a sub-song stands that goes on from position to
    position; `Bearing.OnCourse`: what is so of it at such a position;
  * `Survey.Matches`: a survey stands there too; `Timeline.entry_eq_bearingAt`: so
    the entries say where the song stands;
  * `Replay.Nears`: playback on its way to a position; `Replay.Searching.nears`: it
    goes on in order until it reads the track step there;
  * `Bearing.Abreast`: two replays at one position, each with its own loop in hand;
    `Replay.readSteps_abreast`: where the searches from there end;
  * `Player.ComesTo`: playback comes to a position for the first time;
    `Player.seek_eq_playback`: a seek lands where it does.
-/
import PaulaReplay.Proofs.Bearings
import PaulaReplay.Proofs.Entries
import PaulaReplay.Proofs.Reading
import PaulaReplay.Proofs.Rounds

namespace PaulaReplay

/-! ## Songs in order -/

/-- Where a sub-song stands at its start. -/
def Bearing.ofSong (s : SubSong) : Bearing :=
  ⟨⟨s.first, s.first, s.last, (tempoTiming s.tempo).2⟩, (tempoTiming s.tempo).1,
    (tempoTiming s.tempo).1.toUInt32, -1⟩

namespace Score

variable {score : Score} {b : Bearing}

/-- Where a song stands behind the track step that it is at: a command steers it,
    and patterns that are over, or a stop, are followed by the next position. -/
def advance (score : Score) (b : Bearing) : Bearing :=
  match score.command? b.place.current with
  | none | some .stop => b.next
  | some c => c.steer b

theorem advance_of_command {c : StepCommand} (hc : score.command? b.place.current = some c)
    (hstop : c ≠ .stop) : score.advance b = c.steer b := by
  unfold advance
  rw [hc]
  cases c with
  | stop => exact absurd rfl hstop
  | _ => rfl

theorem advance_of_no_command (hc : score.command? b.place.current = none) :
    score.advance b = b.next := by
  unfold advance
  rw [hc]

/-- Where a sub-song stands behind so many track steps. -/
def bearingAt (score : Score) (s : SubSong) (k : Nat) : Bearing := score.advance^[k] (.ofSong s)

theorem bearingAt_succ (score : Score) (s : SubSong) (k : Nat) :
    score.bearingAt s (k + 1) = score.advance (score.bearingAt s k) :=
  Function.iterate_succ_apply' ..

/-- No track step of a sub-song is a loop command. -/
def NoLoops (score : Score) (s : SubSong) : Prop :=
  ∀ position target count, s.first ≤ position → position ≤ s.last →
    score.command? position ≠ some (.loop target count)

end Score

/-- A sub-song is at position `k`, without a loop in hand, at a tempo. -/
structure Bearing.OnCourse (s : SubSong) (k : Nat) (b : Bearing) : Prop where
  first : b.place.first = s.first
  last : b.place.last = s.last
  current : b.place.current.toNat = s.first.toNat + k
  jumps : b.jumps = -1
  clocks : b.clocks ≠ 0
  tick : b.tick = b.clocks.toUInt32

namespace Bearing

variable {score : Score} {s : SubSong} {k : Nat} {b : Bearing}

theorem place_withClocks (b : Bearing) (clocks? : Option UInt16) :
    (b.withClocks clocks?).place = b.place := by
  cases clocks? <;> rfl

theorem onCourse_ofSong (s : SubSong) : (ofSong s).OnCourse s 0 :=
  ⟨rfl, rfl, rfl, rfl, tempoTiming_ne_zero s.tempo, rfl⟩

theorem OnCourse.next (h : b.OnCourse s k) (hlt : s.first.toNat + k < s.last.toNat) :
    b.next.OnCourse s (k + 1) := by
  refine ⟨h.first, h.last, ?_, h.jumps, h.clocks, h.tick⟩
  have hbound := s.last.toNat_lt
  show (b.place.current + 1).toNat = _
  rw [toNat_add_one (by rw [h.current]; omega), h.current]
  rfl

theorem OnCourse.withClocks (h : b.OnCourse s k) {clocks? : Option UInt16}
    (hclocks : ∀ clocks, clocks? = some clocks → clocks ≠ 0) :
    (b.withClocks clocks?).OnCourse s k := by
  cases clocks? with
  | none => exact h
  | some clocks => exact ⟨h.first, h.last, h.current, h.jumps, hclocks _ rfl, rfl⟩

/-- Before the last position a sub-song without loops goes on to the next one. -/
theorem OnCourse.advance (h : b.OnCourse s k) (hloops : score.NoLoops s)
    (hlt : s.first.toNat + k < s.last.toNat) : (score.advance b).OnCourse s (k + 1) := by
  have hcurrent := h.current
  unfold Score.advance
  split
  · exact h.next hlt
  · exact h.next hlt
  · next c hstop hc =>
    cases c with
    | stop => exact absurd rfl (hstop ·)
    | loop target count =>
      exact absurd hc (hloops _ target count (UInt16.le_iff_toNat_le.2 (by omega))
        (UInt16.le_iff_toNat_le.2 (by omega)))
    | speed ticks tempo =>
      have h' : ({ b with place.speed := ticks } : Bearing).OnCourse s k :=
        ⟨h.first, h.last, h.current, h.jumps, h.clocks, h.tick⟩
      exact (h'.withClocks fun _ => speedClocks?_ne_zero).next hlt
    | timeShare tempo => exact (h.withClocks fun _ => timeShareClocks?_ne_zero).next hlt
    | fade | idle => exact h.next hlt

theorem onCourse_bearingAt (hloops : score.NoLoops s) : ∀ k : Nat,
    s.first.toNat + k ≤ s.last.toNat → (score.bearingAt s k).OnCourse s k
  | 0, _ => onCourse_ofSong s
  | k + 1, hle => by
    rw [Score.bearingAt_succ]
    exact (onCourse_bearingAt hloops k (by omega)).advance hloops (by omega)

end Bearing

/-! ## Surveys -/

namespace Survey

variable {score : Score} {song : SubSong} {s s' : Survey} {b : Bearing} {k : Nat}

/-- A survey stands where a song does, and enters the position. -/
structure Matches (s : Survey) (b : Bearing) : Prop where
  position : s.position = b.place.current.toNat
  speed : s.speed = b.place.speed
  clocks : s.clocks = b.clocks
  records : s.records = true

theorem Matches.next (h : s.Matches b) (hcurrent : b.place.current.toNat < 0xffff) :
    s.next.Matches b.next := by
  refine ⟨?_, h.speed, h.clocks, h.records⟩
  show s.position + 1 = (b.place.current + 1).toNat
  rw [toNat_add_one hcurrent, h.position]

theorem Matches.withClocks (h : s.Matches b) (clocks? : Option UInt16) :
    Matches { s with clocks := clocks?.getD s.clocks } (b.withClocks clocks?) := by
  cases clocks? with
  | none => exact h
  | some clocks => exact ⟨h.position, h.speed, rfl, h.records⟩

/-- A command but a loop leads a survey to where it steers a song. -/
theorem Matches.obey (h : s.Matches b) {c : StepCommand} (hobey : s.obey c = some s')
    (hloop : ∀ target count, c ≠ .loop target count) (hcurrent : b.place.current.toNat < 0xffff) :
    s'.Matches (c.steer b) := by
  cases c with
  | stop => cases hobey
  | loop target count => exact absurd rfl (hloop target count)
  | speed ticks tempo =>
    cases hobey
    have h' : Matches { s with speed := ticks } { b with place.speed := ticks } :=
      ⟨h.position, rfl, h.clocks, h.records⟩
    exact (h'.withClocks (speedClocks? tempo)).next (by rwa [Bearing.place_withClocks])
  | timeShare tempo =>
    cases hobey
    exact (h.withClocks (timeShareClocks? tempo)).next (by rwa [Bearing.place_withClocks])
  | fade | idle =>
    cases hobey
    exact h.next hcurrent

/-- A survey that goes on has come to where the song does. -/
theorem Matches.step (h : s.Matches b) (first : Nat) (hgoes : (s.step score first).2 = true)
    (hloop : ∀ target count, score.command? b.place.current ≠ some (.loop target count))
    (hcurrent : b.place.current.toNat < 0xffff) :
    (s.step score first).1.Matches (score.advance b) := by
  have hposition : UInt16.ofNat s.position = b.place.current := by
    rw [h.position, UInt16.ofNat_toNat]
  have hrecord : (s.record first).Matches b := ⟨h.position, h.speed, h.clocks, rfl⟩
  rcases score.step_cases b.place.current with ⟨hnone, -⟩ | ⟨c, hc, -⟩ | ⟨hc, ha⟩
  · rw [step_of_none (hposition ▸ hnone)] at hgoes
    cases hgoes
  · have hstep := step_of_command (hposition ▸ hc) first
    cases hobey : (s.record first).obey c with
    | none =>
      rw [hstep, hobey] at hgoes
      cases hgoes
    | some s' =>
      rw [hstep, hobey, Score.advance_of_command hc (obey_eq_some hobey).1]
      exact hrecord.obey hobey (fun target count he => hloop target count (he ▸ hc)) hcurrent
  · obtain ⟨t, ht, hnone⟩ := (Option.any_eq_true _ _).1 ha
    obtain ⟨tracks, time, hplay⟩ := exists_playStep score t (s.record first)
    rw [step_of_patterns (hposition ▸ ht) (Option.isNone_iff_eq_none.1 hnone), hplay,
      Score.advance_of_no_command hc]
    have h' : Matches { s.record first with tracks, time } b :=
      ⟨h.position, h.speed, h.clocks, rfl⟩
    exact h'.next hcurrent

/-- Of the positions of a sub-song without loops a survey enters what holds where
    the song stands. -/
theorem find?_enters_trail (hloops : score.NoLoops song)
    (hk : song.first.toNat + k ≤ song.last.toNat) : ∀ (n : Nat) {j : Nat} {s : Survey}, j ≤ k →
    s.Matches (score.bearingAt song j) → ∀ z,
      (trail score song n s).find? (enters song.first.toNat k) = some z →
        z.Matches (score.bearingAt song k)
  | 0, _, _, _, _, z, hz => by cases hz
  | n + 1, j, s, hj, h, z, hz => by
    have hcurrent := (Bearing.onCourse_bearingAt hloops j (by omega)).current
    have hposition : s.position = song.first.toNat + j := h.position.trans hcurrent
    have hbound := song.last.toNat_lt
    rw [trail_succ (by omega)] at hz
    rcases Nat.lt_or_eq_of_le hj with hlt | rfl
    · -- the survey has not come there yet
      have hnot : ¬s.enters song.first.toNat k = true := by
        rw [enters, decide_eq_false (by omega), Bool.and_false]
        exact Bool.false_ne_true
      rw [List.find?_cons_of_neg hnot] at hz
      split at hz
      · next hgoes =>
        have hnext := h.step song.first.toNat hgoes
          (hloops _ · · (UInt16.le_iff_toNat_le.2 (by omega)) (UInt16.le_iff_toNat_le.2 (by omega)))
          (by omega)
        rw [← Score.bearingAt_succ] at hnext
        exact find?_enters_trail hloops hk n hlt hnext z hz
      · cases hz
    · have henters : s.enters song.first.toNat j = true := by
        rw [enters, h.records, decide_eq_true (by omega)]
        rfl
      rw [List.find?_cons_of_pos henters] at hz
      cases hz
      exact h

end Survey

/-- The entries of a sub-song without loops say where it stands. -/
theorem Timeline.entry_eq_bearingAt {score : Score} {song : SubSong} {n k : Nat}
    {e : Timeline.Entry} (hsong : score.subSong? n = some song) (hloops : score.NoLoops song)
    (he : (Timeline.ofSong score n).entries[k]? = some e) :
    song.first.toNat + k ≤ song.last.toNat ∧ e.speed = (score.bearingAt song k).place.speed ∧
      e.clocks = (score.bearingAt song k).clocks := by
  have hentries : (Timeline.ofSong score n).entries =
      (Survey.run score song Survey.stepBound (Survey.ofSong song)).entries := by
    rw [Timeline.ofSong, hsong]
  rw [hentries] at he
  have hsize := Survey.size_run score song (Nat.le_refl _) Survey.stepBound (Survey.ofSong song)
    (Nat.zero_le (song.last.toNat + 1 - song.first.toNat))
  obtain ⟨hlt, -⟩ := Array.getElem?_eq_some_iff.1 he
  have hk : song.first.toNat + k ≤ song.last.toNat := by omega
  rw [Survey.getElem?_run] at he
  obtain ⟨z, hz, rfl⟩ := Option.map_eq_some_iff.1 he
  have hmatches : (Survey.ofSong song).Matches (score.bearingAt song 0) := ⟨rfl, rfl, rfl, rfl⟩
  have h := Survey.find?_enters_trail hloops hk _ (Nat.zero_le k) hmatches z hz
  exact ⟨hk, h.speed, h.clocks⟩

/-! ## Playback -/

namespace Replay

variable {score : Score} {rate : UInt32} {s : SubSong} {r r' : Replay} {k : Nat}

/-- A track step that is read takes the song on, at once or as the position is
    left. -/
theorem bearing_readStep (score : Score) (r : Replay) :
    ((r.readStep score).2 = true → (r.readStep score).1.bearing = score.advance r.bearing) ∧
      ((r.readStep score).2 = false → (r.readStep score).1.bearing = r.bearing ∧
        score.advance r.bearing = r.bearing.next) := by
  cases hc : score.command? r.place.current with
  | none =>
    obtain ⟨hbearing, hrests⟩ := bearing_readStep_of_no_command hc
    refine ⟨fun h => ?_, fun _ => ⟨hbearing, Score.advance_of_no_command hc⟩⟩
    rw [hrests] at h
    cases h
  | some c =>
    obtain ⟨hbearing, hreads⟩ := bearing_readStep_of_command hc
    refine ⟨fun h => hbearing.trans (Score.advance_of_command hc (hreads.1 h)).symm, fun h => ?_⟩
    have hstop : c = .stop := by
      by_contra hne
      rw [hreads.2 hne] at h
      cases h
    subst hstop
    refine ⟨hbearing, ?_⟩
    unfold Score.advance
    rw [show r.bearing.place.current = r.place.current from rfl, hc]

/-- Playback of a sub-song is on its way to position `k`: it is to read a track
    step up to there, or rests at one before it.  A search has read no more track
    steps than there are before the position. -/
def Nears (score : Score) (s : SubSong) (k : Nat) (r : Replay) : Option Nat → Prop
  | some n => ∃ j ≤ k, stepBound ≤ n + j ∧ r.bearing = score.bearingAt s j
  | none => ∃ j < k, r.bearing = score.bearingAt s j ∧
      (score.bearingAt s j).next = score.bearingAt s (j + 1)

/-- On its way to a position playback goes on in order until it reads the track
    step there. -/
theorem Searching.nears (hloops : score.NoLoops s) (hk : s.first.toNat + k ≤ s.last.toNat)
    (hbound : k < stepBound) {f g : Option Nat} {ms : List Move}
    (hms : Searching score rate f ms r g)
    (hfirst : ∀ z ∈ readings score rate ms r, z.place.current.toNat ≠ s.first.toNat + k)
    (h : r.Nears score s k f) : (run score rate ms r).Nears score s k g := by
  induction hms with
  | nil => exact h
  | @aside f g mv ms r hmv _ ih =>
    have hbearing := bearing_apply score rate r hmv
    refine ih (fun z hz => hfirst z (List.mem_append_right _ hz)) ?_
    cases f <;> simp only [Nears, hbearing] at h ⊢ <;> exact h
  | @reads n g ms r _ ih =>
    obtain ⟨j, hj, hread, hbearing⟩ := h
    have hcurrent := (Bearing.onCourse_bearingAt hloops j (by omega)).current
    have hne : j ≠ k := fun he => hfirst r List.mem_cons_self (by
      have hplace : r.place.current = (score.bearingAt s j).place.current :=
        congrArg (·.place.current) hbearing
      rw [hplace, hcurrent, he])
    obtain ⟨hgoes, hrests⟩ := bearing_readStep score r
    refine ih (fun z hz => hfirst z (List.mem_cons_of_mem _ hz)) ?_
    cases hreads : (r.readStep score).2 with
    | true =>
      refine ⟨j + 1, by omega, by omega, ?_⟩
      rw [hgoes hreads, hbearing, Score.bearingAt_succ]
    | false =>
      obtain ⟨hrest, hnext⟩ := hrests hreads
      refine ⟨j, by omega, hrest.trans hbearing, ?_⟩
      rw [Score.bearingAt_succ, ← hbearing, hnext]
  | givesUp _ _ =>
    -- it would have read more track steps than there are before the position
    obtain ⟨j, hj, hread, -⟩ := h
    omega
  | @leaves g ms r _ ih =>
    obtain ⟨j, hj, hbearing, hnext⟩ := h
    have hcourse := Bearing.onCourse_bearingAt hloops j (by omega)
    have hplace : r.place = (score.bearingAt s j).place := congrArg Bearing.place hbearing
    have hlast : r.place.current ≠ r.place.last := fun he => by
      have hcurrent := hcourse.current
      rw [hplace, hcourse.last] at he
      rw [he] at hcurrent
      omega
    refine ih (fun z hz => hfirst z hz) ⟨j + 1, hj, Nat.le_add_right _ _, ?_⟩
    rw [bearing_leave hlast, hbearing, hnext]

/-- From a position before it a search goes on to position `k`, if it reads the
    track step there. -/
theorem exists_reading (hloops : score.NoLoops s) (hk : s.first.toNat + k ≤ s.last.toNat) :
    ∀ (n : Nat) {j : Nat} {r : Replay}, j ≤ k → r.bearing = score.bearingAt s j →
      .giveUp ∉ stepMoves score n r →
      (∃ z ∈ readings score rate (stepMoves score n r) r,
        z.place.current.toNat = s.first.toNat + k) →
      ∃ m z, m ≤ n ∧ z.bearing = score.bearingAt s k ∧ .giveUp ∉ stepMoves score m z ∧
        readSteps score n r = readSteps score m z ∧
        ∀ x ∈ readings score rate (stepMoves score m z) z,
          x ∈ readings score rate (stepMoves score n r) r
  | 0, _, _, _, _, hends, _ => absurd (List.mem_singleton_self _) hends
  | n + 1, j, r, hj, hbearing, hends, ⟨z, hz, hat⟩ => by
    rcases Nat.lt_or_eq_of_le hj with hlt | rfl
    · have hplace : r.place = (score.bearingAt s j).place := congrArg Bearing.place hbearing
      have hcurrent := (Bearing.onCourse_bearingAt hloops j (by omega)).current
      rw [readings_stepMoves_succ] at hz
      rw [stepMoves] at hends
      obtain ⟨hgoes, -⟩ := bearing_readStep score r
      rcases List.mem_cons.1 hz with rfl | hz
      · rw [hplace, hcurrent] at hat
        omega
      · split at hz
        · next hreads =>
          rw [if_pos hreads] at hends
          have hnext : (r.readStep score).1.bearing = score.bearingAt s (j + 1) := by
            rw [hgoes hreads, hbearing, Score.bearingAt_succ]
          obtain ⟨m, x, hm, hx, hmoves, hsteps, hin⟩ := exists_reading hloops hk n hlt hnext
            (fun hmem => hends (List.mem_cons_of_mem _ hmem)) ⟨z, hz, hat⟩
          refine ⟨m, x, Nat.le_succ_of_le hm, hx, hmoves, ?_, fun y hy => ?_⟩
          · rw [readSteps_of_reads n hreads, hsteps]
          · rw [readings_stepMoves_succ, if_pos hreads]
            exact List.mem_cons_of_mem _ (hin y hy)
        · cases hz
    · exact ⟨n + 1, r, Nat.le_refl _, hbearing, hends, rfl, fun _ hx => hx⟩

end Replay

/-! ## Two searches from one position -/

/-- A song stands where another one does, but for the loop in hand. -/
def Bearing.Abreast (b b' : Bearing) : Prop := b' = { b with jumps := b'.jumps }

/-- A command takes both to the same place, if they have the same loop in hand or it
    is none. -/
theorem Bearing.Abreast.steer {b b' : Bearing} (h : b.Abreast b') {c : StepCommand}
    (hc : b'.jumps = b.jumps ∨ ∀ target count, c ≠ .loop target count) :
    (c.steer b).Abreast (c.steer b') ∧
      (b'.jumps = b.jumps → (c.steer b').jumps = (c.steer b).jumps) := by
  by_cases hjumps : b'.jumps = b.jumps
  · have heq : b' = b := by rw [h, hjumps]
    rw [heq]
    exact ⟨rfl, fun _ => rfl⟩
  · refine ⟨?_, fun he => absurd he hjumps⟩
    have hloop := hc.resolve_left hjumps
    rw [h]
    cases c with
    | loop target count => exact absurd rfl (hloop target count)
    | speed ticks tempo =>
      simp only [StepCommand.steer]
      cases speedClocks? tempo <;> rfl
    | timeShare tempo =>
      simp only [StepCommand.steer]
      cases timeShareClocks? tempo <;> rfl
    | stop | fade | idle => rfl

namespace Replay

variable {score : Score} {rate : UInt32} {s : SubSong} {r r' : Replay} {k : Nat}

/-- Two replays that stand at one position, with the same loop in hand or with none
    to come, come to the same one, and begin the same patterns there, if the one
    search finds some and the other one may read as many track steps. -/
theorem readSteps_abreast (score : Score) (rate : UInt32) : ∀ (m : Nat) {m' : Nat} {r r' : Replay},
    m ≤ m' → r.bearing.Abreast r'.bearing →
    (r'.bearing.jumps = r.bearing.jumps ∨
      ∀ x ∈ readings score rate (stepMoves score m r) r, ∀ target count,
        score.command? x.place.current ≠ some (.loop target count)) →
    .giveUp ∉ stepMoves score m r →
    (readSteps score m r).bearing.Abreast (readSteps score m' r').bearing ∧
      ∀ t, score.trackStep? (readSteps score m r).place.current = some t → t.command? = none →
        ∀ i : Slot, t.patternOf i < 0x80 →
          (readSteps score m' r').tracks[i].Same (readSteps score m r).tracks[i]
  | 0, _, _, _, _, _, _, hends => absurd (List.mem_singleton_self _) hends
  | m + 1, 0, _, _, hle, _, _, _ => absurd hle (Nat.not_succ_le_zero m)
  | m + 1, m' + 1, r, r', hle, habreast, hjumps, hends => by
    have hcurrent : r'.place.current = r.place.current := congrArg (·.place.current) habreast
    cases hc : score.command? r.place.current with
    | none =>
      -- both rest here
      obtain ⟨hbearing, hrests⟩ := bearing_readStep_of_no_command hc
      obtain ⟨hbearing', hrests'⟩ := bearing_readStep_of_no_command (hcurrent ▸ hc)
      rw [readSteps_of_rests m hrests, readSteps_of_rests m' hrests', hbearing, hbearing']
      refine ⟨habreast, fun t ht hnone i hpattern => ?_⟩
      have hplace : (r.readStep score).1.place = r.place := congrArg Bearing.place hbearing
      rw [hplace] at ht
      exact (isGiven_readStep (hcurrent ▸ ht) hnone i).same (isGiven_readStep ht hnone i) hpattern
    | some c =>
      obtain ⟨hbearing, hreads⟩ := bearing_readStep_of_command hc
      obtain ⟨hbearing', hreads'⟩ := bearing_readStep_of_command (hcurrent ▸ hc)
      by_cases hstop : c = .stop
      · subst hstop
        have hrests := Bool.eq_false_iff.2 fun h => hreads.1 h rfl
        have hrests' := Bool.eq_false_iff.2 fun h => hreads'.1 h rfl
        rw [readSteps_of_rests m hrests, readSteps_of_rests m' hrests', hbearing, hbearing']
        refine ⟨habreast, fun t ht hnone => ?_⟩
        have hplace : (r.readStep score).1.place = r.place := congrArg Bearing.place hbearing
        rw [hplace] at ht
        rw [Score.command?, ht, Option.bind_some, hnone] at hc
        cases hc
      · rw [readSteps_of_reads m (hreads.2 hstop), readSteps_of_reads m' (hreads'.2 hstop)]
        rw [stepMoves, if_pos (hreads.2 hstop)] at hends
        rw [readings_stepMoves_succ, if_pos (hreads.2 hstop)] at hjumps
        obtain ⟨hnext, hsame⟩ := habreast.steer (hjumps.imp id fun h target count he =>
          h r List.mem_cons_self target count (he ▸ hc))
        refine readSteps_abreast score rate m (Nat.le_of_succ_le_succ hle) ?_ ?_
          fun hmem => hends (List.mem_cons_of_mem _ hmem)
        · rwa [hbearing, hbearing']
        · rw [hbearing, hbearing']
          exact hjumps.imp hsame fun h x hx => h x (List.mem_cons_of_mem _ hx)

end Replay

/-! ## Seeks -/

/-- Where a replay stands that is sought to a position. -/
theorem Replay.bearing_aim (r : Replay) (position : Nat) {e : Timeline.Entry} (h : e.clocks ≠ 0) :
    (r.aim position e).bearing = ⟨⟨r.place.first + UInt16.ofNat position, r.place.first,
      r.place.last, e.speed⟩, e.clocks, e.clocks.toUInt32, r.machine.master.trackLoop⟩ := by
  rw [Replay.aim, if_pos h]
  rfl

/-- What a search that comes to patterns reads are track steps. -/
theorem Replay.isSome_of_mem_readings {score : Score} {rate : UInt32} : ∀ (n : Nat) {r z : Replay},
    z ∈ readings score rate (stepMoves score n r) r → .giveUp ∉ stepMoves score n r →
    score.assigns (readSteps score n r).place.current = true →
      (score.trackStep? z.place.current).isSome
  | 0, _, _, _, hends, _ => absurd (List.mem_singleton_self _) hends
  | n + 1, r, z, hz, hends, hassigns => by
    rw [readings_stepMoves_succ] at hz
    rw [stepMoves] at hends
    rcases List.mem_cons.1 hz with rfl | hz
    · by_contra hnone
      rw [Option.not_isSome_iff_eq_none] at hnone
      have hc : score.command? z.place.current = none := by
        rw [Score.command?, hnone]
        rfl
      obtain ⟨hplace, hrests, -⟩ := readStep_of_no_command hc
      rw [readSteps_of_rests n hrests, hplace, Score.assigns, hnone] at hassigns
      cases hassigns
    · split at hz
      · next hreads =>
        rw [if_pos hreads] at hends
        rw [readSteps_of_reads n hreads] at hassigns
        exact isSome_of_mem_readings n hz (fun hmem => hends (List.mem_cons_of_mem _ hmem)) hassigns
      · cases hz

/-- A tune has fewer track steps than a search may read. -/
theorem lt_stepBound_of_load {music : ByteArray} {samples : Option ByteArray} {tune : Tune}
    (h : load music samples = .ok tune) {position : UInt16}
    (hstep : (tune.score.trackStep? position).isSome) : position.toNat < Replay.stepBound := by
  obtain ⟨p, -, hread, -⟩ := load_eq_ok_iff.1 h
  have hwell := hread.wellFormed
  have hsize := hread.musicSize_le
  have hmusic := hwell.size_music
  rw [Option.isSome_iff_ne_none, ne_eq, hwell.no_trackStep] at hstep
  rw [wholeWords] at hmusic
  rw [maxMusicSize] at hsize
  rw [Replay.stepBound]
  omega

theorem Bearing.OnCourse.eq {b : Bearing} {s : SubSong} {k : Nat} (h : b.OnCourse s k) :
    b = ⟨⟨s.first + UInt16.ofNat k, s.first, s.last, b.place.speed⟩, b.clocks,
      b.clocks.toUInt32, -1⟩ := by
  have hcurrent : b.place.current = s.first + UInt16.ofNat k := by
    have hbound := b.place.current.toNat_lt
    have hnat := h.current
    rw [← UInt16.toNat_inj, UInt16.toNat_add, UInt16.toNat_ofNat', hnat]
    omega
  calc b = ⟨⟨b.place.current, b.place.first, b.place.last, b.place.speed⟩, b.clocks, b.tick,
        b.jumps⟩ := rfl
    _ = _ := by rw [hcurrent, h.first, h.last, h.tick, h.jumps]

/-- The commands of the positions are known, and none of them is a loop. -/
theorem Score.noLoops_of_commands {score : Score} {s : SubSong} {n : Nat}
    {cs : List (Option StepCommand)}
    (h : (List.range n).map (fun i => score.command? (UInt16.ofNat i)) = cs)
    (hlast : s.last.toNat < n)
    (hnone : ∀ i < n, (cs[i]?.join.any StepCommand.isLoop) = false) : score.NoLoops s := by
  intro q target count _ hle hc
  have hlt : q.toNat < n := Nat.lt_of_le_of_lt (UInt16.le_iff_toNat_le.1 hle) hlast
  have hnone := hnone _ hlt
  rw [← command?_of_commands h hlt, hc] at hnone
  cases hnone

namespace Player

variable {p : Player} {song k : Nat} {s : SubSong} {e : Timeline.Entry} {ms : List Replay.Move}

/-- A seek leaves the tracks as the search for a track step does. -/
theorem tracks_seek (p : Player) (position : Nat) (e : Timeline.Entry) :
    (p.seek position e).replay.tracks =
      ((p.replay.aim position e).seekStep p.tune.score).tracks := by
  rw [seek_replay]
  generalize (p.replay.aim position e).seekStep p.tune.score = r
  rfl

/-- The states in which the search that follows some moves reads track steps. -/
def walk (p : Player) (ms : List Replay.Move) : List Replay :=
  Replay.readings p.tune.score p.rate (Replay.seekMoves p.tune.score (p.run ms)) (p.run ms)

/-- Playback from the start of a sub-song comes to its position `k` for the first
    time in the search that follows the moves `ms`, and the search finds patterns. -/
structure ComesTo (p : Player) (song : Nat) (s : SubSong) (k : Nat) (ms : List Replay.Move) :
    Prop where
  moves : ∃ q n ns, p.start song = .ok q ∧
    p.playMoves song q n = ms ++ (Replay.seekMoves p.tune.score (p.run ms) ++ ns)
  first : ∀ r ∈ Replay.readings p.tune.score p.rate ms p.replay,
    r.place.current.toNat ≠ s.first.toNat + k
  reads : ∃ r ∈ p.walk ms, r.place.current.toNat = s.first.toNat + k
  ends : .giveUp ∉ Replay.seekMoves p.tune.score (p.run ms)
  assigns : p.tune.score.assigns ((p.run ms).seekStep p.tune.score).place.current = true

/-- Then it stands somewhere on the way to the position, in order. -/
theorem ComesTo.exists_bearing (h : p.ComesTo song s k ms)
    (hs : p.tune.score.subSong? song = some s) (hloops : p.tune.score.NoLoops s)
    (hk : s.first.toNat + k ≤ s.last.toNat) (hbound : k < Replay.stepBound) :
    ∃ j ≤ k, (p.run ms).bearing = p.tune.score.bearingAt s j := by
  obtain ⟨q, n, ns, hq, hmoves⟩ := h.moves
  obtain ⟨tail, htail, hsearch⟩ := searching_playMoves hq n
  obtain ⟨rest, hrest⟩ : ∃ rest, Replay.seekMoves p.tune.score (p.run ms) = .readStep :: rest := by
    have hbound : Replay.stepBound = 0xfff + 1 := rfl
    rw [Replay.seekMoves, hbound, Replay.stepMoves]
    exact ⟨_, rfl⟩
  have hfirst := h.first
  rw [htail, hrest] at hmoves
  -- the search is none of the first two moves
  rcases ms with _ | ⟨mv, _ | ⟨mv', ms⟩⟩
  · cases hmoves
  · cases hmoves
  · simp only [List.cons_append, List.cons.injEq] at hmoves
    obtain ⟨rfl, rfl, rfl⟩ := hmoves
    obtain ⟨f, hms, hnext⟩ := Replay.Searching.of_append ms hsearch
    have hstart : ((Replay.initial (p.tune.format = .sevenVoices)).reset.selectSong p.tune.score
        song).bearing = p.tune.score.bearingAt s 0 := by
      unfold Replay.selectSong Replay.enterSong
      simp only [hs]
      rfl
    have hnears := hms.nears hloops hk hbound (fun z hz => hfirst z hz)
      ⟨0, Nat.zero_le k, Nat.le_refl _, hstart⟩
    cases hnext with
    | aside haside => cases haside
    | reads =>
      obtain ⟨j, hj, -, hbearing⟩ := hnears
      exact ⟨j, hj, hbearing⟩

/-- In a sub-song without loops, a seek to a position with its entry of the timeline
    lands where playback from the start comes to as it first comes to the position:
    at the same place, at the same tempo, and with the same patterns begun.  The
    player that seeks may be in any state of the sub-song in which no loop is in
    hand; if one is, the search must come to no loop command behind the sub-song. -/
theorem seek_eq_playback {music : ByteArray} {samples : Option ByteArray} {pl : Player}
    (hload : load music samples = .ok p.tune) (hs : p.tune.score.subSong? song = some s)
    (hloops : p.tune.score.NoLoops s)
    (he : (Timeline.ofSong p.tune.score song).entries[k]? = some e)
    (hcomes : p.ComesTo song s k ms) (htune : pl.tune = p.tune) (hplays : pl.replay.Plays s)
    (hjumps : pl.replay.machine.master.trackLoop = -1 ∨
      ∀ r ∈ p.walk ms, ∀ target count,
        p.tune.score.command? r.place.current ≠ some (.loop target count)) :
    (pl.seek k e).replay.place = ((p.run ms).seekStep p.tune.score).place ∧
      (pl.seek k e).replay.machine.master.clocks =
        ((p.run ms).seekStep p.tune.score).machine.master.clocks ∧
      (pl.seek k e).replay.clock.clocks = ((p.run ms).seekStep p.tune.score).clock.clocks ∧
      ∀ t, p.tune.score.trackStep? ((p.run ms).seekStep p.tune.score).place.current = some t →
        ∀ i : Slot, t.patternOf i < 0x80 →
          (pl.seek k e).replay.tracks[i].Same ((p.run ms).seekStep p.tune.score).tracks[i] := by
  obtain ⟨hk, hspeed, hclocks⟩ := Timeline.entry_eq_bearingAt hs hloops he
  have hcourse := Bearing.onCourse_bearingAt hloops k hk
  obtain ⟨x, hx, hat⟩ := hcomes.reads
  have hbound : k < Replay.stepBound := by
    have hlt := lt_stepBound_of_load hload
      (Replay.isSome_of_mem_readings _ hx hcomes.ends hcomes.assigns)
    omega
  obtain ⟨j, hj, hbearing⟩ := hcomes.exists_bearing hs hloops hk hbound
  obtain ⟨m, z, hm, hz, hends, hsteps, hin⟩ :=
    Replay.exists_reading hloops hk _ hj hbearing hcomes.ends ⟨x, hx, hat⟩
  -- the seek stands where playback does as it reads the track step at the position
  have haim : (pl.replay.aim k e).bearing =
      { z.bearing with jumps := pl.replay.machine.master.trackLoop } := by
    rw [Replay.bearing_aim _ _ (hclocks ▸ hcourse.clocks), hz, hcourse.eq, hplays.first, hplays.last,
      hspeed, hclocks]
  have habreast : z.bearing.Abreast (pl.replay.aim k e).bearing := by
    rw [Bearing.Abreast, haim]
  obtain ⟨hlands, hbegins⟩ := Replay.readSteps_abreast p.tune.score p.rate m hm habreast
    (hjumps.imp (fun h => by rw [haim, h, hz, hcourse.jumps]) fun h x hx => h x (hin x hx)) hends
  rw [← hsteps, ← Replay.seekStep, ← Replay.seekStep] at hlands hbegins
  have hseek : (pl.seek k e).replay.bearing =
      ((pl.replay.aim k e).seekStep p.tune.score).bearing := by
    rw [seek_replay, htune]
    exact Replay.bearing_apply _ _ _ rfl
  rw [Bearing.Abreast, ← hseek] at hlands
  refine ⟨congrArg Bearing.place hlands, congrArg Bearing.clocks hlands,
    congrArg Bearing.tick hlands, fun t ht i hpattern => ?_⟩
  have hnone : t.command? = none := by
    have hassigns := hcomes.assigns
    rw [Score.assigns, ht, Option.any_some, Option.isNone_iff_eq_none] at hassigns
    exact hassigns
  rw [tracks_seek, htune]
  exact hbegins t ht hnone i hpattern

/-- The moves before the first search of a sub-song. -/
def openingMoves (p : Player) (song : Nat) : List Replay.Move :=
  [.reset (decide (p.tune.format = .sevenVoices)), .select song]

theorem run_openingMoves (p : Player) (song : Nat) : p.run (p.openingMoves song) =
    (Replay.initial (p.tune.format = .sevenVoices)).reset.selectSong p.tune.score song := by
  rw [run, openingMoves, Replay.run_cons, Replay.run_cons, Replay.Move.apply, Replay.Move.apply,
    Replay.run, List.foldl_nil]

/-- Playback comes to the positions of the first search at once. -/
theorem comesTo_opening (hstart : (p.start song).toOption.isSome = true)
    (hreads : ((p.walk (p.openingMoves song)).any
      fun r => r.place.current.toNat == s.first.toNat + k) = true)
    (hends : (Replay.seekMoves p.tune.score (p.run (p.openingMoves song))).any
      Replay.Move.isGiveUp = false)
    (hassigns : p.tune.score.assigns
      ((p.run (p.openingMoves song)).seekStep p.tune.score).place.current = true) :
    p.ComesTo song s k (p.openingMoves song) := by
  obtain ⟨q, hq⟩ := Option.isSome_iff_exists.1 hstart
  refine ⟨⟨q, 0, [.enable song], eq_ok_of_toOption hq, ?_⟩, fun _ h => absurd h List.not_mem_nil, ?_,
    Replay.not_mem_of_any_isGiveUp hends, hassigns⟩
  · rw [playMoves, ticksMoves, List.append_nil, startMoves, run_openingMoves, openingMoves]
    simp only [List.cons_append, List.nil_append]
  · obtain ⟨r, hr, hat⟩ := List.any_eq_true.1 hreads
    exact ⟨r, hr, eq_of_beq hat⟩

/-- A tune of three positions: the first one sets speed and tempo, and the others
    play a pattern each, of which only the second one waits for a row. -/
def briskTune : ByteArray :=
  let step (n : UInt16) : List UInt16 := n :: List.replicate 7 0xff00
  songTune 2 1 [[0xeffe, 2, 3, 0x96], step 0, step 0x100]
    [[0xf0000000], [0xf3000000, 0xf0000000]] []

/-- A seek to its second position, from the third one. -/
theorem seek_briskTune : ∃ (tune : Tune) (p pl : Player) (s : SubSong) (e : Timeline.Entry),
    load briskTune (some ⟨#[]⟩) = .ok tune ∧ Player.new tune minRate = .ok p ∧
      tune.score.subSong? 0 = some s ∧ (Timeline.ofSong tune.score 0).entries[1]? = some e ∧
      pl.tune = tune ∧ pl.replay.place.current = 2 ∧ (pl.seek 1 e).replay.place = ⟨1, 0, 2, 3⟩ := by
  have h : ((load briskTune (some ⟨#[]⟩)).toOption.bind fun tune =>
      (Player.new tune minRate).toOption.map fun p => (
        (List.range 3).map (fun i => p.tune.score.command? (UInt16.ofNat i)),
        [((p.run (p.openingMoves 0)).seekStep p.tune.score).place, p.tick.replay.place],
        [p.tune.score.subSong? 0 == some ⟨0, 2, 1⟩, (p.start 0).toOption.isSome,
          (Timeline.ofSong p.tune.score 0).entries[1]?.isSome,
          p.tick.replay.machine.master.trackLoop == (-1 : Int16),
          (p.walk (p.openingMoves 0)).any fun r => r.place.current.toNat == 0 + 1,
          (Replay.seekMoves p.tune.score (p.run (p.openingMoves 0))).any Replay.Move.isGiveUp,
          p.tune.score.assigns
            ((p.run (p.openingMoves 0)).seekStep p.tune.score).place.current])) =
        some ([some (.speed 3 0x96), none, none], [⟨1, 0, 2, 3⟩, ⟨2, 0, 2, 3⟩],
          [true, true, true, true, true, false, true]) := by
    decide +kernel
  obtain ⟨tune, p, hload, hnew, h⟩ := exists_new h
  obtain rfl := new_tune hnew
  simp only [Prod.mk.injEq, List.cons.injEq, and_true] at h
  obtain ⟨hcommands, ⟨hlands, hplace⟩, hs, hstart, he, hjumps, hreads, hends, hassigns⟩ := h
  have hs := eq_of_beq hs
  obtain ⟨e, he⟩ := Option.isSome_iff_exists.1 he
  have hloops : p.tune.score.NoLoops ⟨0, 2, 1⟩ :=
    Score.noLoops_of_commands hcommands (by decide) (by decide)
  have hcomes : p.ComesTo 0 ⟨0, 2, 1⟩ 1 (p.openingMoves 0) :=
    comesTo_opening hstart hreads hends hassigns
  have hplays : p.tick.replay.Plays ⟨0, 2, 1⟩ := by
    constructor <;> rw [hplace]
  have htune : p.tick.tune = p.tune := rfl
  obtain ⟨hseek, -⟩ := seek_eq_playback hload hs hloops he hcomes htune hplays
    (.inl (eq_of_beq hjumps))
  refine ⟨p.tune, p, p.tick, _, e, hload, hnew, hs, he, rfl, ?_, hseek.trans hlands⟩
  rw [hplace]

/-- A tune whose only position is a command without effect.  Behind it is a loop
    command, which jumps over a track step to another one, and then a loop command
    again, which jumps to the last one. -/
def strayTune : ByteArray :=
  let step : List UInt16 := 0 :: List.replicate 7 0xff00
  songTune 0 1 [[0xeffe, 9], [0xeffe, 1, 3, 1], step, step, [0xeffe, 1, 5, 1],
    0x100 :: List.replicate 7 0xff00] [[0xf0000000], [0xf3000000, 0xf0000000]] []

/-- Playback comes from the only position to the fourth track step.  A tick later,
    with the loop in hand, a seek to that position lands at the third one. -/
theorem seek_strayTune : ∃ (tune : Tune) (p : Player) (s : SubSong) (e : Timeline.Entry),
    load strayTune (some ⟨#[]⟩) = .ok tune ∧ Player.new tune minRate = .ok p ∧
      tune.score.subSong? 0 = some s ∧ s.first ≤ s.last ∧ tune.score.NoLoops s ∧
      (Timeline.ofSong tune.score 0).entries[0]? = some e ∧
      p.ComesTo 0 s 0 (p.openingMoves 0) ∧ p.tick.tune = tune ∧ p.tick.replay.Plays s ∧
      ((p.run (p.openingMoves 0)).seekStep tune.score).place.current = 3 ∧
      (p.tick.seek 0 e).replay.place.current = 2 := by
  have h : ((load strayTune (some ⟨#[]⟩)).toOption.bind fun tune =>
      (Player.new tune minRate).toOption.map fun p => (
        (List.range 1).map (fun i => p.tune.score.command? (UInt16.ofNat i)),
        [((p.run (p.openingMoves 0)).seekStep p.tune.score).place, p.tick.replay.place],
        [p.tune.score.subSong? 0 == some ⟨0, 0, 1⟩, (p.start 0).toOption.isSome,
          (Timeline.ofSong p.tune.score 0).entries[0]?.any
            fun e => (p.tick.seek 0 e).replay.place.current == (2 : UInt16),
          (p.walk (p.openingMoves 0)).any fun r => r.place.current.toNat == 0 + 0,
          (Replay.seekMoves p.tune.score (p.run (p.openingMoves 0))).any Replay.Move.isGiveUp,
          p.tune.score.assigns
            ((p.run (p.openingMoves 0)).seekStep p.tune.score).place.current])) =
        some ([some .idle], [⟨3, 0, 0, 1⟩, ⟨5, 0, 0, 1⟩],
          [true, true, true, true, false, true]) := by
    decide +kernel
  obtain ⟨tune, p, hload, hnew, h⟩ := exists_new h
  obtain rfl := new_tune hnew
  simp only [Prod.mk.injEq, List.cons.injEq, and_true] at h
  obtain ⟨hcommands, ⟨hlands, hplace⟩, hs, hstart, he, hreads, hends, hassigns⟩ := h
  obtain ⟨e, he, hseek⟩ := (Option.any_eq_true _ _).1 he
  refine ⟨p.tune, p, ⟨0, 0, 1⟩, e, hload, hnew, eq_of_beq hs, by decide,
    Score.noLoops_of_commands hcommands (by decide) (by decide), he,
    comesTo_opening hstart hreads hends hassigns, rfl, ?_, ?_, eq_of_beq hseek⟩
  · constructor <;> rw [hplace]
  · rw [hlands]

end Player

end PaulaReplay
