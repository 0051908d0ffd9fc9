/-
  Itinerary: the positions whose patterns are played, in order.

  A survey goes through a sub-song by itself, and counts rows instead of
  playing them.  It comes to the same positions as playback does, for as long
  as both go on: playback may stay at a position for ever where the survey has
  counted rows enough.

  * `Survey.trail` and `Survey.itinerary`: the positions of a survey;
  * `Replay.visits`: the positions of some moves, `Replay.songMoves` those of a
    sub-song;
  * `StepCommand.jumpsLeft`: what a command leaves of a loop, on both sides;
  * `Replay.Follows`: playback has come to some positions, and a survey agrees;
    the lemmas after it say what moves keep it;
  * `itinerary_agrees`: of both lists of positions one begins with the other.
-/
import PaulaReplay.Proofs.Positions

namespace PaulaReplay

/-- Whether the track step at a position plays patterns. -/
def Score.assigns (score : Score) (position : UInt16) : Bool :=
  (score.trackStep? position).any fun t => t.command?.isNone

/-! ## Surveys -/

namespace Survey

variable {score : Score} {song : SubSong} {s s' : Survey}

/-- The states of a survey at the track steps that it goes through, at most so
    many. -/
def trail (score : Score) (song : SubSong) : Nat → Survey → List Survey
  | 0, _ => []
  | n + 1, s =>
    if s.position ≤ song.last.toNat then
      s :: match s.step score song.first.toNat with
        | (s, true) => trail score song n s
        | (_, false) => []
    else []

/-- The positions whose patterns a survey goes through. -/
def itinerary (score : Score) (song : SubSong) (n : Nat) (s : Survey) : List Nat :=
  ((trail score song n s).filter fun s => score.assigns (UInt16.ofNat s.position)).map position

/-- A survey is what the last track step of its trail leaves. -/
theorem run_eq_getLast (score : Score) (song : SubSong) : ∀ (n : Nat) (s : Survey),
    run score song n s =
      ((trail score song n s).getLast?.map fun s => (s.step score song.first.toNat).1).getD s := by
  intro n
  induction n with
  | zero => exact fun _ => rfl
  | succ n ih =>
    intro s
    rw [run, trail]
    split
    · rcases hstep : s.step score song.first.toNat with ⟨s', _ | _⟩
      · simp [hstep]
      · simp only
        rw [ih s']
        cases trail score song n s' with
        | nil => simp [hstep]
        | cons t ts => simp [List.getLast?_cons]
    · rfl

/-! ### Track steps -/

theorem trail_of_gt (h : song.last.toNat < s.position) (n : Nat) : trail score song n s = [] := by
  cases n with
  | zero => rfl
  | succ n => rw [trail, if_neg (Nat.not_le.2 h)]

/-- A survey of no more steps, or past the sub-song, is over. -/
theorem itinerary_of_gt (h : song.last.toNat < s.position) (n : Nat) :
    itinerary score song n s = [] := by
  rw [itinerary, trail_of_gt h]
  rfl

/-- A command is gone through: the survey goes on where it leads. -/
theorem step_of_command {c : StepCommand}
    (h : score.command? (UInt16.ofNat s.position) = some c) (first : Nat) :
    s.step score first = match (s.record first).obey c with
      | some s => (s, true)
      | none => (s.record first, false) := by
  obtain ⟨t, ht, hc⟩ := Option.bind_eq_some_iff.1 h
  have hposition : (s.record first).position = s.position := rfl
  cases hobey : (s.record first).obey c <;> simp only [step, hposition, ht, hc, hobey]

/-- What a command does to the position and the loop. -/
theorem obey_eq_some {c : StepCommand} (h : s.obey c = some s') :
    c ≠ .stop ∧ s'.trackLoop = c.jumpsLeft s.trackLoop ∧
      (s'.position = s.position + 1 ∧ c.goesOn s.trackLoop = true ∨
        ∃ target count, c = .loop target count ∧ s.trackLoop ≠ 0 ∧
          s'.position = target.toNat) := by
  cases c with
  | stop => cases h
  | loop target count =>
    refine ⟨by rintro ⟨⟩, ?_⟩
    rw [obey, loop] at h
    simp only [StepCommand.jumpsLeft, StepCommand.goesOn]
    split at h
    · next hj =>
      cases h
      exact ⟨(if_pos hj).symm, .inl ⟨rfl, by rw [hj]; rfl⟩⟩
    · next hj =>
      extract_lets fresh left at h
      rw [if_neg hj]
      split at h
      · cases h
      · split at h
        · cases h
        · cases h
          exact ⟨rfl, .inr ⟨target, count, rfl, hj, rfl⟩⟩
  | speed | timeShare | fade | idle =>
    cases h
    exact ⟨by rintro ⟨⟩, rfl, .inl ⟨rfl, rfl⟩⟩

/-- Where there is no track step the survey is over. -/
theorem step_of_none (h : score.trackStep? (UInt16.ofNat s.position) = none) (first : Nat) :
    s.step score first = (s.record first, false) := by
  have hposition : (s.record first).position = s.position := rfl
  unfold step
  simp only [hposition, h]

/-- The rows of a track step leave the loop, and come before the next position. -/
theorem position_playStep (score : Score) (t : TrackStep) (s : Survey) :
    (s.playStep score t).position = s.position + 1 ∧
      (s.playStep score t).trackLoop = s.trackLoop := by
  unfold playStep
  extract_lets tracks
  rcases rows score s.rowTime rowBound tracks s.time with ⟨tracks, time⟩
  exact ⟨rfl, rfl⟩

/-- Patterns are played, and the survey goes on at the next position. -/
theorem step_of_assigns (h : score.assigns (UInt16.ofNat s.position) = true) (first : Nat) :
    ∃ s', s.step score first = (s', true) ∧ s'.position = s.position + 1 ∧
      s'.trackLoop = s.trackLoop := by
  obtain ⟨t, ht, hc⟩ := (Option.any_eq_true _ _).1 h
  have hposition : (s.record first).position = s.position := rfl
  rw [Option.isNone_iff_eq_none] at hc
  unfold step
  simp only [hposition, ht, hc]
  exact ⟨_, rfl, position_playStep score t _⟩

theorem trail_succ (h : s.position ≤ song.last.toNat) (n : Nat) : trail score song (n + 1) s =
    s :: if (s.step score song.first.toNat).2 then
      trail score song n (s.step score song.first.toNat).1 else [] := by
  rw [trail, if_pos h]
  rcases s.step score song.first.toNat with ⟨s', _ | _⟩ <;> rfl

theorem itinerary_succ (h : s.position ≤ song.last.toNat) (n : Nat) :
    itinerary score song (n + 1) s =
      (if score.assigns (UInt16.ofNat s.position) then [s.position] else []) ++
        (if (s.step score song.first.toNat).2 then
          itinerary score song n (s.step score song.first.toNat).1 else []) := by
  unfold itinerary
  rw [trail_succ h, List.filter_cons]
  rcases s.step score song.first.toNat with ⟨s', _ | _⟩ <;> split <;> simp

/-- A survey that ends with a track step without patterns comes to no other
    position. -/
theorem itinerary_of_ends (ha : score.assigns (UInt16.ofNat s.position) = false)
    (h : (s.step score song.first.toNat).2 = false) (n : Nat) : itinerary score song n s = [] := by
  cases n with
  | zero => rfl
  | succ n =>
    by_cases hgt : song.last.toNat < s.position
    · exact itinerary_of_gt hgt _
    · rw [itinerary_succ (Nat.not_lt.1 hgt), ha, h]
      rfl

/-- A command leaves the itinerary as it is. -/
theorem itinerary_of_obey {c : StepCommand} (h : s.position ≤ song.last.toNat)
    (ha : score.assigns (UInt16.ofNat s.position) = false)
    (hc : score.command? (UInt16.ofNat s.position) = some c)
    (hobey : (s.record song.first.toNat).obey c = some s') (n : Nat) :
    itinerary score song (n + 1) s = itinerary score song n s' ∧
      trail score song (n + 1) s = s :: trail score song n s' := by
  have hstep := step_of_command hc song.first.toNat
  rw [hobey] at hstep
  rw [itinerary_succ h, trail_succ h, ha, hstep]
  exact ⟨rfl, rfl⟩

/-- Patterns are entered into the itinerary. -/
theorem exists_itinerary_of_assigns (h : s.position ≤ song.last.toNat)
    (ha : score.assigns (UInt16.ofNat s.position) = true) (n : Nat) :
    ∃ s', s'.position = s.position + 1 ∧ s'.trackLoop = s.trackLoop ∧
      itinerary score song (n + 1) s = s.position :: itinerary score song n s' ∧
        trail score song (n + 1) s = s :: trail score song n s' := by
  obtain ⟨s', hstep, hposition, hloop⟩ := step_of_assigns ha song.first.toNat
  refine ⟨s', hposition, hloop, ?_⟩
  rw [itinerary_succ h, trail_succ h, if_pos ha, hstep]
  exact ⟨rfl, rfl⟩

end Survey

namespace Score

/-- At a position there is no track step, or a command, or patterns are
    played. -/
theorem step_cases (score : Score) (position : UInt16) :
    (score.trackStep? position = none ∧ score.assigns position = false) ∨
      (∃ c, score.command? position = some c ∧ score.assigns position = false) ∨
      (score.command? position = none ∧ score.assigns position = true) := by
  unfold assigns command?
  cases score.trackStep? position with
  | none => exact .inl ⟨rfl, rfl⟩
  | some t =>
    cases ht : t.command? with
    | none => exact .inr (.inr ⟨ht, by simp [ht]⟩)
    | some c => exact .inr (.inl ⟨c, ht, by simp [ht]⟩)

end Score

namespace Replay

variable {score : Score} {rate : UInt32} {song : SubSong} {r : Replay} {T V : List Nat}

/-! ## Playback -/

/-- The position whose patterns a move assigns to the tracks, if it does. -/
def visited (score : Score) (r : Replay) : Move → List Nat
  | .readStep => if score.assigns r.place.current then [r.place.current.toNat] else []
  | _ => []

/-- The positions whose patterns some moves assign to the tracks. -/
def visits (score : Score) (rate : UInt32) : List Move → Replay → List Nat
  | [], _ => []
  | mv :: ms, r => r.visited score mv ++ visits score rate ms (mv.apply score rate r)

theorem visits_append (ms ns : List Move) : ∀ r : Replay, visits score rate (ms ++ ns) r =
    visits score rate ms r ++ visits score rate ns (run score rate ms r) := by
  induction ms with
  | nil => exact fun _ => rfl
  | cons mv ms ih =>
    intro r
    rw [List.cons_append, visits, visits, ih, run_cons, List.append_assoc]

/-- Playback counts loops as a survey does. -/
theorem trackLoop_obey (r : Replay) (c : StepCommand) :
    (r.obey c).1.machine.master.trackLoop = c.jumpsLeft r.machine.master.trackLoop :=
  congrArg (·.machine.master.trackLoop) (hushed_obey r c)

/-- Another track step is read after every command but a stop. -/
theorem obey_reads {c : StepCommand} (h : c ≠ .stop) (r : Replay) : (r.obey c).2 = true := by
  cases c with
  | stop => exact absurd rfl h
  | _ => rfl

/-! ## Side by side -/

/-- Playback has assigned the patterns of the positions `V`.  It has been at all
    positions `T` of a survey, or the survey stands `ahead` positions before it
    with the same loop, and comes to the others from there. -/
def Follows (score : Score) (song : SubSong) (T V : List Nat) (ahead : Nat) (r : Replay) : Prop :=
  T <+: V ∨ ∃ n s, T = V ++ Survey.itinerary score song n s ∧
    (∀ t ∈ Survey.trail score song n s, song.first.toNat ≤ t.position) ∧ r.Plays song ∧
      s.position = r.place.current.toNat + ahead ∧ s.trackLoop = r.machine.master.trackLoop

theorem Follows.congr {r' : Replay} {ahead : Nat} (h : Follows score song T V ahead r)
    (hp : r'.place = r.place) (hl : r'.machine.master.trackLoop = r.machine.master.trackLoop) :
    Follows score song T V ahead r' := by
  refine h.imp id ?_
  rintro ⟨n, s, hT, hfirst, hplays, hposition, hloop⟩
  exact ⟨n, s, hT, hfirst, hplays.congr hp, by rw [hp]; exact hposition, by rw [hl]; exact hloop⟩

/-- Of the positions that both have been at, one list begins with the other. -/
theorem Follows.begins {ahead : Nat} (h : Follows score song T V ahead r) : T <+: V ∨ V <+: T := by
  rcases h with h | ⟨n, s, hT, -⟩
  · exact .inl h
  · exact .inr ⟨_, hT.symm⟩

/-- A survey that comes to no other position has been followed to its end. -/
theorem follows_of_end {n ahead : Nat} {s : Survey} {r' : Replay}
    (hT : T = V ++ Survey.itinerary score song n s) (h : Survey.itinerary score song n s = [])
    (W : List Nat) : Follows score song T (V ++ W) ahead r' := by
  rw [h, List.append_nil] at hT
  exact .inl (hT ▸ List.prefix_append V W)

/-- Playback leaves the position whose patterns are over, and the survey is at
    the next one already. -/
theorem Follows.leave (h : Follows score song T V 1 r) : Follows score song T V 0 r.leave := by
  rcases h with h | ⟨n, s, hT, hfirst, hplays, hposition, hloop⟩
  · exact .inl h
  by_cases hgt : song.last.toNat < s.position
  · exact List.append_nil V ▸ follows_of_end hT (Survey.itinerary_of_gt hgt n) []
  · have hlast := hplays.last
    have hbound := song.last.toNat_lt
    have hne : r.place.current ≠ r.place.last := by
      intro he
      rw [he, hlast] at hposition
      omega
    have hleave : r.leave = r.nextPosition := if_neg hne
    have hnext : (r.place.current + 1).toNat = (r.place.current.toNat + 1) % 65536 :=
      UInt16.toNat_add _ _
    refine .inr ⟨n, s, hT, hfirst, ?_, ?_, ?_⟩
    · rw [hleave]
      exact ⟨hplays.first, hplays.last⟩
    · rw [hleave]
      show s.position = (r.place.current + 1).toNat + 0
      omega
    · rw [hleave]
      exact hloop

/-- A command leads both to the same position, unless the survey is over with
    it. -/
theorem follows_obey {n : Nat} {s s' : Survey} {c : StepCommand} (hT : T = V ++
      Survey.itinerary score song n s')
    (hfirst : ∀ t ∈ Survey.trail score song n s', song.first.toNat ≤ t.position)
    (hplays : r.Plays song) (hposition : s.position = r.place.current.toNat)
    (hloop : s.trackLoop = r.machine.master.trackLoop) (hobey : s.obey c = some s') :
    Follows score song T V 0 (r.obey c).1 := by
  obtain ⟨-, hloop', hposition'⟩ := Survey.obey_eq_some hobey
  have hbound := song.last.toNat_lt
  have hcurrent := current_obey r c
  have hend : Survey.itinerary score song n s' = [] → Follows score song T V 0 (r.obey c).1 :=
    fun h => List.append_nil V ▸ follows_of_end hT h []
  by_cases hgt : song.last.toNat < s'.position
  · exact hend (Survey.itinerary_of_gt hgt n)
  cases n with
  | zero => exact hend rfl
  | succ n =>
    have hge : song.first.toNat ≤ s'.position := by
      refine hfirst s' ?_
      rw [Survey.trail, if_pos (Nat.not_lt.1 hgt)]
      exact List.mem_cons_self
    refine .inr ⟨n + 1, s', hT, hfirst, hplays.obey c, ?_, ?_⟩
    · rw [hcurrent]
      rcases hposition' with ⟨hnext, hgoes⟩ | ⟨target, count, rfl, hjumps, htarget⟩
      · have hdestination : c.destination r.place r.machine.master.trackLoop =
            r.place.current + 1 := by
          cases c with
          | stop => cases hgoes
          | loop target count => exact if_pos (by rw [← hloop]; exact beq_iff_eq.1 hgoes)
          | _ => rfl
        have hadd : (r.place.current + 1).toNat = (r.place.current.toNat + 1) % 65536 :=
          UInt16.toNat_add _ _
        rw [hdestination]
        omega
      · have hmax : max target r.place.first = target := by
          refine max_eq_of_le (UInt16.le_iff_toNat_le.2 ?_)
          rw [hplays.first, ← htarget]
          exact hge
        rw [StepCommand.destination, if_neg (hloop ▸ hjumps), hmax]
        exact htarget
    · rw [hloop', trackLoop_obey, hloop]

/-- Patterns are assigned by playback where the survey has them. -/
theorem follows_readStep_of_assigns {n : Nat} {s : Survey} (hT : T = V ++
      Survey.itinerary score song (n + 1) s)
    (hfirst : ∀ t ∈ Survey.trail score song (n + 1) s, song.first.toNat ≤ t.position)
    (hplays : r.Plays song) (hle : s.position ≤ song.last.toNat)
    (hposition : s.position = r.place.current.toNat)
    (hloop : s.trackLoop = r.machine.master.trackLoop)
    (hnone : score.command? r.place.current = none)
    (hassigns : score.assigns r.place.current = true) :
    Follows score song T (V ++ r.visited score .readStep) 1 (r.readStep score).1 := by
  have hcurrent : UInt16.ofNat s.position = r.place.current := by
    rw [hposition, UInt16.ofNat_toNat]
  obtain ⟨s', hposition', hloop', hitinerary, htrail⟩ :=
    Survey.exists_itinerary_of_assigns hle (by rwa [hcurrent]) n
  obtain ⟨hplace, -, hkeeps⟩ := readStep_of_no_command hnone
  have hvisited : r.visited score .readStep = [s.position] := by
    rw [hposition]
    exact if_pos hassigns
  rw [htrail] at hfirst
  refine .inr ⟨n, s', ?_, fun t ht => hfirst t (List.mem_cons_of_mem _ ht), hplays.congr hplace,
    ?_, ?_⟩
  · rw [hT, hitinerary, hvisited, List.append_assoc]
    rfl
  · rw [hposition', hplace, hposition]
  · rw [hloop', hkeeps, hloop]

/-- A track step does the same to both: it ends the survey, is obeyed, or has
    patterns, which playback assigns. -/
theorem Follows.readStep (h : Follows score song T V 0 r) :
    Follows score song T (V ++ r.visited score .readStep)
      (if (r.readStep score).2 then 0 else 1) (r.readStep score).1 := by
  rcases h with h | ⟨n, s, hT, hfirst, hplays, hposition, hloop⟩
  · exact .inl (h.trans (List.prefix_append V _))
  rw [Nat.add_zero] at hposition
  have hend : Survey.itinerary score song n s = [] → Follows score song T
      (V ++ r.visited score .readStep) (if (r.readStep score).2 then 0 else 1)
        (r.readStep score).1 := fun h => follows_of_end hT h _
  by_cases hgt : song.last.toNat < s.position
  · exact hend (Survey.itinerary_of_gt hgt _)
  have hle := Nat.not_lt.1 hgt
  have hcurrent : UInt16.ofNat s.position = r.place.current := by
    rw [hposition, UInt16.ofNat_toNat]
  rcases score.step_cases r.place.current with ⟨hnone, hassigns⟩ | ⟨c, hc, hassigns⟩ |
    ⟨hnone, hassigns⟩
  · -- no track step
    refine hend (Survey.itinerary_of_ends (by rwa [hcurrent]) ?_ n)
    rw [Survey.step_of_none (by rwa [hcurrent])]
  · -- a command
    have hvisited : r.visited score .readStep = [] := if_neg (by rw [hassigns]; decide)
    cases hobey : (s.record song.first.toNat).obey c with
    | none =>
      refine hend (Survey.itinerary_of_ends (by rwa [hcurrent]) ?_ n)
      rw [Survey.step_of_command (by rwa [hcurrent]), hobey]
    | some s' =>
      cases n with
      | zero => exact hend rfl
      | succ n =>
        obtain ⟨hitinerary, htrail⟩ :=
          Survey.itinerary_of_obey hle (by rwa [hcurrent]) (by rwa [hcurrent]) hobey n
        rw [hitinerary] at hT
        rw [htrail] at hfirst
        rw [hvisited, List.append_nil, readStep_of_command hc,
          obey_reads (Survey.obey_eq_some hobey).1]
        exact follows_obey hT (fun t ht => hfirst t (List.mem_cons_of_mem _ ht))
          (hplays.congr (place_greeted r)) (by rw [place_greeted]; exact hposition)
          (by rw [trackLoop_greeted]; exact hloop) hobey
  · -- patterns
    cases n with
    | zero => exact hend rfl
    | succ n =>
      rw [(readStep_of_no_command hnone).2.1]
      exact follows_readStep_of_assigns hT hfirst hplays hle hposition hloop hnone hassigns

/-! ## Runs of moves -/

/-- Whether a move is one of a row, of its ticks or of a track in it, or the one
    with which a sub-song begins to play. -/
def Move.isQuiet : Move → Bool
  | .countTick | .startRow | .enter _ | .word _ | .stop _ | .enable _ => true
  | _ => false

theorem trackLoop_channelOff (n : Nat) (m : Machine) :
    (m.channelOff n).master.trackLoop = m.master.trackLoop :=
  Machine.trackLoop_of_board (m.board_channelOff n)

theorem trackLoop_grant? (score : Score) (m : Machine) (request : Option Request) :
    (m.grant? score request).master.trackLoop = m.master.trackLoop := by
  cases request with
  | none => rfl
  | some request =>
    cases request with
    | endSong => exact congrArg (·.master.trackLoop) m.hushed_reachEnd
    | _ => rfl

/-- Quiet moves leave the loop of the song as it is. -/
theorem trackLoop_apply {mv : Move} (hmv : mv.isQuiet = true) :
    (mv.apply score rate r).machine.master.trackLoop = r.machine.master.trackLoop := by
  cases mv with
  | enter i =>
    rw [Move.apply, enterTrack]
    split
    · rfl
    · rfl
    · exact trackLoop_channelOff _ _
  | word i => exact trackLoop_grant? score r.machine _
  | countTick | startRow | stop | enable => rfl
  | _ => cases hmv

/-- Some moves assign patterns just where a survey goes on. -/
def Kept (score : Score) (rate : UInt32) (song : SubSong) (T : List Nat) (before after : Nat)
    (ms : List Move) (r : Replay) : Prop :=
  ∀ V, Follows score song T V before r →
    Follows score song T (V ++ visits score rate ms r) after (run score rate ms r)

variable {before between after ahead : Nat} {ms ns : List Move}

theorem kept_nil : Kept score rate song T ahead ahead [] r := fun V h => by
  rwa [visits, List.append_nil]

theorem Kept.append (hms : Kept score rate song T before between ms r)
    (hns : Kept score rate song T between after ns (run score rate ms r)) :
    Kept score rate song T before after (ms ++ ns) r := by
  intro V h
  rw [visits_append, run_append, ← List.append_assoc]
  exact hns _ (hms V h)

theorem Kept.cons {mv : Move} (hmv : Kept score rate song T before between [mv] r)
    (hms : Kept score rate song T between after ms (mv.apply score rate r)) :
    Kept score rate song T before after (mv :: ms) r := Kept.append hmv hms

theorem visited_of_isQuiet {mv : Move} (hmv : mv.isQuiet = true) : r.visited score mv = [] := by
  cases mv with
  | readStep => cases hmv
  | _ => rfl

theorem visits_of_isQuiet : ∀ (ms : List Move) {r : Replay}, ms.all Move.isQuiet = true →
    visits score rate ms r = []
  | [], _, _ => rfl
  | mv :: ms, r, hms => by
    rw [List.all_cons, Bool.and_eq_true] at hms
    rw [visits, visited_of_isQuiet hms.1, visits_of_isQuiet ms hms.2]
    rfl

theorem kept_quiet {mv : Move} (hmv : mv.isQuiet = true) :
    Kept score rate song T ahead ahead [mv] r := by
  intro V h
  rw [visits, visited_of_isQuiet hmv, visits, List.append_nil, List.append_nil]
  refine h.congr (place_apply ?_ ?_ ?_) (trackLoop_apply hmv)
  · cases mv <;> first | rfl | cases hmv
  · rintro rfl
    cases hmv
  · rintro rfl
    cases hmv

theorem kept_quiets : ∀ (ms : List Move) {r : Replay}, ms.all Move.isQuiet = true →
    Kept score rate song T ahead ahead ms r
  | [], _, _ => kept_nil
  | mv :: ms, r, hms => by
    rw [List.all_cons, Bool.and_eq_true] at hms
    exact (kept_quiet hms.1).cons (kept_quiets ms hms.2)

/-- A search for a track step that plays patterns, which finds one. -/
theorem kept_stepMoves : ∀ (n : Nat) {r : Replay}, .giveUp ∉ stepMoves score n r →
    Kept score rate song T 0 1 (stepMoves score n r) r
  | 0, _, hn => absurd List.mem_cons_self hn
  | n + 1, r, hn => by
    intro V h
    have hread := h.readStep
    rw [stepMoves] at hn ⊢
    rw [visits, run_cons, ← List.append_assoc]
    split
    · next hreads =>
      rw [if_pos hreads] at hread hn
      exact kept_stepMoves n (fun hmem => hn (List.mem_cons_of_mem _ hmem)) _ hread
    · next hreads =>
      rw [if_neg hreads] at hread
      rwa [visits, List.append_nil]

theorem kept_leaveMoves (hends : .giveUp ∉ leaveMoves score r) :
    Kept score rate song T 1 1 (leaveMoves score r) r := by
  have hleave : Kept score rate song T 1 0 [.leave] r := fun V h => by
    rw [visits, visits]
    exact (List.append_nil V).symm ▸ h.leave
  exact hleave.cons (kept_stepMoves _ fun hmem => hends (List.mem_cons_of_mem _ hmem))

/-! ### Rows -/

theorem all_isQuiet_tracksMoves (is : List Slot) (r : Replay) :
    (tracksMoves score is r).all Move.isQuiet = true :=
  all_tracksMoves (fun mv h => by cases mv <;> first | rfl | cases h) is r

theorem kept_rowsMoves : ∀ (n : Nat) {r : Replay}, .giveUp ∉ rowsMoves score n r →
    Kept score rate song T 1 1 (rowsMoves score n r) r
  | 0, _, _ => kept_nil
  | n + 1, r, hn => by
    rw [rowsMoves] at hn ⊢
    refine (kept_quiets _ (all_isQuiet_tracksMoves _ _)).append ?_
    rw [run_tracksMoves]
    rcases hplay : playTracks score Slot.all r with ⟨r', _ | _⟩
    · exact kept_nil
    · rw [hplay] at hn
      simp only [List.mem_append, not_or] at hn
      refine (kept_leaveMoves hn.2.1).append ?_
      rw [run_leaveMoves]
      exact kept_rowsMoves n hn.2.2

theorem kept_sequencerMoves (hends : .giveUp ∉ sequencerMoves score r) :
    Kept score rate song T 1 1 (sequencerMoves score r) r := by
  rw [sequencerMoves] at hends ⊢
  refine (kept_quiet rfl).cons ?_
  split
  · exact kept_nil
  · next hcount =>
    rw [if_neg hcount, rowMoves] at hends
    simp only [List.mem_cons, List.mem_append, not_or] at hends
    refine (kept_quiet rfl).cons ((kept_rowsMoves _ hends.2.2.1).append ?_)
    have hrun : run score rate (rowsMoves score restartBound r.countTick.startRow)
        r.countTick.startRow = playRows score restartBound r.countTick.startRow :=
      run_rowsMoves _ _
    show Kept score rate song T 1 1 _ (run score rate (rowsMoves score restartBound
      r.countTick.startRow) r.countTick.startRow)
    rw [hrun]
    split
    · next hstopped =>
      rw [if_pos hstopped] at hends
      exact kept_leaveMoves hends.2.2.2
    · exact kept_nil

/-! ## A sub-song -/

/-- The moves of some turns of the sequencer. -/
def turnsMoves (score : Score) : Nat → Replay → List Move
  | 0, _ => []
  | k + 1, r => sequencerMoves score r ++ turnsMoves score k (r.tickTracks score)

theorem run_turnsMoves : ∀ (k : Nat) (r : Replay),
    run score rate (turnsMoves score k r) r = (tickTracks score)^[k] r
  | 0, _ => rfl
  | k + 1, r => by
    rw [turnsMoves, run_append, run_sequencerMoves, Function.iterate_succ_apply]
    exact run_turnsMoves k _

/-- The moves that start a sub-song, and those of some turns of the sequencer
    after them. -/
def songMoves (score : Score) (n k : Nat) (r : Replay) : List Move :=
  .select n :: (seekMoves score (r.selectSong score n) ++
    .enable n :: turnsMoves score k (r.start score n))

theorem run_songMoves (n k : Nat) (r : Replay) :
    run score rate (songMoves score n k r) r = (tickTracks score)^[k] (r.start score n) := by
  rw [songMoves, run_cons, run_append, Move.apply, run_seekMoves, run_cons, ← run_turnsMoves]
  rfl

theorem kept_turnsMoves : ∀ (k : Nat) {r : Replay}, .giveUp ∉ turnsMoves score k r →
    Kept score rate song T 1 1 (turnsMoves score k r) r
  | 0, _, _ => kept_nil
  | k + 1, r, hn => by
    rw [turnsMoves] at hn ⊢
    simp only [List.mem_append, not_or] at hn
    refine (kept_sequencerMoves hn.1).append ?_
    rw [run_sequencerMoves]
    exact kept_turnsMoves k hn.2

/-- A survey of a sub-song and playback of it come to the same positions.  Of the
    positions whose patterns they play, in order, one list begins with the
    other, so the longer one begins with the shorter one, for as long as the
    survey is not before the sub-song, and as playback does not give up its
    search for a track step that plays patterns. -/
theorem itinerary_agrees {n : Nat} (hsong : score.subSong? n = some song) (r : Replay)
    (rate : UInt32) (m k : Nat)
    (hfirst : ∀ s ∈ Survey.trail score song m (Survey.ofSong song),
      song.first.toNat ≤ s.position)
    (hends : .giveUp ∉ songMoves score n k r) :
    ((Survey.itinerary score song m (Survey.ofSong song)).length ≤
        (visits score rate (songMoves score n k r) r).length →
      Survey.itinerary score song m (Survey.ofSong song) <+:
        visits score rate (songMoves score n k r) r) ∧
    ((visits score rate (songMoves score n k r) r).length ≤
        (Survey.itinerary score song m (Survey.ofSong song)).length →
      visits score rate (songMoves score n k r) r <+:
        Survey.itinerary score song m (Survey.ofSong song)) := by
  obtain ⟨hplays, hcurrent, hloop⟩ : (r.selectSong score n).Plays song ∧
      (r.selectSong score n).place.current = song.first ∧
        (r.selectSong score n).machine.master.trackLoop = -1 := by
    unfold selectSong enterSong
    simp only [hsong]
    exact ⟨⟨rfl, rfl⟩, rfl, rfl⟩
  -- the survey and playback both begin at the first position
  have hbegin : Follows score song (Survey.itinerary score song m (Survey.ofSong song)) [] 0
      (r.selectSong score n) :=
    .inr ⟨m, _, rfl, hfirst, hplays, by rw [hcurrent]; rfl, by rw [hloop]; rfl⟩
  simp only [songMoves, List.mem_cons, List.mem_append, not_or] at hends
  have hkept : Kept score rate song (Survey.itinerary score song m (Survey.ofSong song)) 0 1
      (seekMoves score (r.selectSong score n) ++ .enable n :: turnsMoves score k (r.start score n))
      (r.selectSong score n) := by
    refine (kept_stepMoves _ hends.2.1).append ((kept_quiet rfl).cons ?_)
    rw [← seekMoves, run_seekMoves]
    show Kept score rate song _ 1 1 _ (((r.selectSong score n).seekStep score).enable n)
    rw [← Player.start_eq]
    exact kept_turnsMoves k hends.2.2.2
  rcases (hkept [] hbegin).begins with h | h
  · exact ⟨fun _ => h, fun hle => (h.eq_of_length_le hle) ▸ List.prefix_rfl⟩
  · exact ⟨fun hle => (h.eq_of_length_le hle) ▸ List.prefix_rfl, fun _ => h⟩

/-! ## Tracks that play for ever -/

/-- All tracks go on with what they play, which is nothing. -/
def Idles (ts : Tracks) : Prop := ∀ i : Slot, ts[i].base = 0 ∧ ts[i].number = 0x80

/-- A track step with pattern 0x80 on all tracks leaves them idle. -/
theorem idles_assignAll {ts : Tracks} {t : TrackStep} (hbase : ∀ i : Slot, ts[i].base = 0)
    (hpattern : ∀ i, t.patternOf i = 0x80) : Idles (assignAll score t ts) := by
  intro i
  rw [assignAll, Octet.getElem_ofFn, hpattern i]
  exact ⟨hbase i, rfl⟩

theorem enter_of_idles {ts : Tracks} (h : Idles ts) (i : Slot) : Tracks.enter i ts = .idle ts := by
  obtain ⟨hbase, hnumber⟩ := h i
  unfold Tracks.enter
  simp only [hbase, hnumber]
  rfl

theorem tracksMoves_of_idles (score : Score) (h : Idles r.tracks) : ∀ is : List Slot,
    (tracksMoves score is r).all Move.isQuiet = true ∧ playTracks score is r = (r, false) := by
  intro is
  refine ⟨all_isQuiet_tracksMoves is r, ?_⟩
  induction is with
  | nil => rfl
  | cons i is ih =>
    rw [playTracks, Tracks.playRow, enter_of_idles h]
    exact ih

theorem rowsMoves_of_idles (score : Score) (h : Idles r.tracks) (n : Nat) :
    (rowsMoves score n r).all Move.isQuiet = true ∧ playRows score n r = r := by
  cases n with
  | zero => exact ⟨rfl, rfl⟩
  | succ n =>
    obtain ⟨hquiet, hplay⟩ := tracksMoves_of_idles score h Slot.all
    rw [rowsMoves, playRows, List.all_append, hquiet, hplay]
    exact ⟨rfl, rfl⟩

/-- Tracks that idle never come to the end of their position. -/
theorem sequencerMoves_of_idles (score : Score) (h : Idles r.tracks) :
    (sequencerMoves score r).all Move.isQuiet = true ∧ Idles (r.tickTracks score).tracks := by
  have hrow : Idles r.countTick.startRow.tracks := h
  obtain ⟨hquiet, hplay⟩ := rowsMoves_of_idles score hrow restartBound
  have hstopped : Tracks.allStopped r.countTick.startRow.tracks = false := by
    by_contra hall
    rw [Bool.not_eq_false, Tracks.allStopped, Octet.all_eq_true_iff] at hall
    have h0 := hall 0
    rw [Track.isStopped, (hrow 0).2] at h0
    exact absurd h0 (by decide)
  constructor
  · rw [sequencerMoves, List.all_cons]
    split
    · rfl
    · rw [rowMoves, List.all_cons, List.all_append, hquiet, hplay, hstopped]
      rfl
  · have htick : r.tickTracks score = if r.machine.master.speedCount ≠ 0 then r.countTick else
        if Tracks.allStopped (playRows score restartBound r.countTick.startRow).tracks then
          (playRows score restartBound r.countTick.startRow).endPosition score
        else playRows score restartBound r.countTick.startRow := rfl
    rw [htick, hplay, hstopped]
    split
    · exact h
    · exact hrow

/-- A track step that plays patterns is the only one that is read. -/
theorem seekMoves_of_no_command (h : score.command? r.place.current = none) :
    seekMoves score r = [.readStep] := by
  have hbound : stepBound = 0xfff + 1 := rfl
  rw [seekMoves, hbound, stepMoves, (readStep_of_no_command h).2.1]
  rfl

theorem seekStep_of_no_command (h : score.command? r.place.current = none) :
    r.seekStep score = (r.readStep score).1 := by
  have hrun : run score 0 (seekMoves score r) r = r.seekStep score := run_seekMoves r
  rw [← hrun, seekMoves_of_no_command h]
  rfl

theorem all_isQuiet_turnsMoves (score : Score) : ∀ (k : Nat) {r : Replay}, Idles r.tracks →
    (turnsMoves score k r).all Move.isQuiet = true
  | 0, _, _ => rfl
  | k + 1, r, h => by
    obtain ⟨hquiet, htick⟩ := sequencerMoves_of_idles score h
    rw [turnsMoves, List.all_append, hquiet, all_isQuiet_turnsMoves score k htick]
    rfl

end Replay

namespace Player

/-- A tune of four positions, of which the second one leads to the last one; each
    pattern takes a row. -/
def roundTune : ByteArray :=
  let step : List UInt16 := 0 :: List.replicate 7 0xff00
  songTune 3 1 [step, [0xeffe, 1, 3, 1], step, step] [[0xf3000000, 0xf0000000]] []

/-- After five turns of the sequencer playback has come to all the positions that
    a survey of the sub-song comes to, and once more to the first one. -/
theorem agrees_roundTune : ∃ tune song, load roundTune (some ⟨#[]⟩) = .ok tune ∧
    tune.score.subSong? 0 = some song ∧
      (∀ s ∈ Survey.trail tune.score song Survey.stepBound (Survey.ofSong song),
        song.first.toNat ≤ s.position) ∧
      .giveUp ∉ Replay.songMoves tune.score 0 5 (Replay.initial false) ∧
      Survey.itinerary tune.score song Survey.stepBound (Survey.ofSong song) = [0, 3] ∧
      Survey.itinerary tune.score song Survey.stepBound (Survey.ofSong song) <+:
        Replay.visits tune.score minRate (Replay.songMoves tune.score 0 5 (Replay.initial false))
          (Replay.initial false) := by
  have h : ((load roundTune (some ⟨#[]⟩)).toOption.map fun tune => (tune.score.subSong? 0,
      Survey.itinerary tune.score ⟨0, 3, 1⟩ Survey.stepBound (Survey.ofSong ⟨0, 3, 1⟩),
      Replay.visits tune.score minRate (Replay.songMoves tune.score 0 5 (Replay.initial false))
        (Replay.initial false),
      (Replay.songMoves tune.score 0 5 (Replay.initial false)).all fun
        | .giveUp => false
        | _ => true)) =
      some (some ⟨0, 3, 1⟩, [0, 3], [0, 3, 0], true) := by decide +kernel
  obtain ⟨tune, hload, h⟩ := Option.map_eq_some_iff.1 h
  simp only [Prod.mk.injEq] at h
  obtain ⟨hsong, hsurvey, hvisits, hmoves⟩ := h
  have hfirst : ∀ s ∈ Survey.trail tune.score ⟨0, 3, 1⟩ Survey.stepBound
      (Survey.ofSong ⟨0, 3, 1⟩), (⟨0, 3, 1⟩ : SubSong).first.toNat ≤ s.position :=
    fun s _ => Nat.zero_le _
  have hends : .giveUp ∉ Replay.songMoves tune.score 0 5 (Replay.initial false) := fun hmem => by
    have h := List.all_eq_true.1 hmoves _ hmem
    cases h
  obtain ⟨hagrees, -⟩ := Replay.itinerary_agrees hsong (Replay.initial false) minRate
    Survey.stepBound 5 hfirst hends
  refine ⟨tune, _, eq_ok_of_toOption hload, hsong, hfirst, hends, hsurvey, hagrees ?_⟩
  rw [hsurvey, hvisits]
  decide

/-- A tune of two positions, of which the first one leaves all tracks with what
    they play, which is nothing at the start of the song. -/
def endlessTune : ByteArray :=
  songTune 1 1 [List.replicate 8 0x8000, [0]] [[0xf0000000]] []

/-- A survey goes on to the second position when it has counted rows enough, and
    playback stays at the first one for ever. -/
theorem endless_position : ∃ tune song, load endlessTune (some ⟨#[]⟩) = .ok tune ∧
    tune.score.subSong? 0 = some song ∧ song.first ≤ song.last ∧
      Survey.itinerary tune.score song Survey.stepBound (Survey.ofSong song) = [0, 1] ∧
      ∀ r rate k, Replay.visits tune.score rate (Replay.songMoves tune.score 0 k r) r = [0] := by
  have h : ((load endlessTune (some ⟨#[]⟩)).toOption.map fun tune =>
      (tune.score.subSong? 0, [0, 1].map tune.score.trackStep?)) =
        some (some ⟨0, 1, 1⟩, [some ⟨⟨#v[0x8000, 0x8000, 0x8000, 0x8000, 0x8000, 0x8000, 0x8000,
          0x8000]⟩⟩, some ⟨⟨#v[0, 0, 0, 0, 0, 0, 0, 0]⟩⟩]) := by decide +kernel
  obtain ⟨tune, hload, h⟩ := Option.map_eq_some_iff.1 h
  simp only [Prod.mk.injEq, List.map_cons, List.map_nil, List.cons.injEq, and_true] at h
  obtain ⟨hsong, h0, h1⟩ := h
  have ha0 : tune.score.assigns 0 = true := by rw [Score.assigns, h0]; decide
  have ha1 : tune.score.assigns 1 = true := by rw [Score.assigns, h1]; decide
  have hc0 : tune.score.command? 0 = none := by rw [Score.command?, h0]; decide
  refine ⟨tune, _, eq_ok_of_toOption hload, hsong, by decide, ?_, fun r rate k => ?_⟩
  · have hbound : Survey.stepBound = 0xfffe + 1 + 1 := rfl
    have hle : ∀ s : Survey, s.position ≤ 1 → s.position ≤ (⟨0, 1, 1⟩ : SubSong).last.toNat :=
      fun _ h => h
    obtain ⟨s₁, h₁, -, hfirst, -⟩ := Survey.exists_itinerary_of_assigns
      (hle (Survey.ofSong ⟨0, 1, 1⟩) (by decide)) ha0 (0xfffe + 1)
    have h₁ : s₁.position = 1 := h₁
    obtain ⟨s₂, h₂, -, hsecond, -⟩ := Survey.exists_itinerary_of_assigns (hle _ h₁.le)
      (by rw [h₁]; exact ha1) 0xfffe
    rw [hbound, hfirst, hsecond, Survey.itinerary_of_gt (by rw [h₂, h₁]; decide), h₁]
    rfl
  · have hcurrent : (r.selectSong tune.score 0).place.current = 0 ∧
        ∀ i : Slot, (r.selectSong tune.score 0).greeted.tracks[i].base = 0 := by
      rw [Replay.tracks_greeted]
      unfold Replay.selectSong Replay.enterSong
      simp only [hsong, Octet.getElem_map]
      exact ⟨rfl, fun _ => trivial⟩
    have hcommand : tune.score.command? (r.selectSong tune.score 0).place.current = none := by
      rw [hcurrent.1, hc0]
    have hidles : Replay.Idles (r.start tune.score 0).tracks := by
      rw [Player.start_eq, Replay.seekStep_of_no_command hcommand, Replay.readStep_eq,
        hcurrent.1, h0]
      exact Replay.idles_assignAll hcurrent.2 (by decide)
    have hquiet : (.enable 0 :: Replay.turnsMoves tune.score k (r.start tune.score 0)).all
        Replay.Move.isQuiet = true := Replay.all_isQuiet_turnsMoves tune.score k hidles
    rw [Replay.songMoves, Replay.seekMoves_of_no_command hcommand, Replay.visits,
      List.singleton_append, Replay.visits, Replay.visits_of_isQuiet _ hquiet]
    simp only [Replay.visited, Replay.Move.apply, hcurrent.1, ha0, if_true]
    rfl

end Player

end PaulaReplay
