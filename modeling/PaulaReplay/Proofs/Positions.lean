/-
  Positions: where in its sub-song the replay is.

  The position goes on to the next one when its patterns are over and after
  most commands.  Only where the patterns are over it is looked whether it was
  the last one of the sub-song, so a command there leads out of the sub-song.

  * `StepCommand.goesOn` and `StepCommand.destination`: where a command leads,
    and `current_obey` that it does;
  * `Replay.Within`: the position is one of the sub-song; `Replay.oversteps`:
    a move goes on from the last position;
  * `Score.LoopsWithin`: the loop commands of a sub-song stay inside it;
  * `within_apply_iff`, `along_within_iff`: what moves, and runs of them, leave
    the sub-song;
  * `Player.start_within`: from the start of a sub-song on the position is one
    of it, unless a command at the last one goes on.
-/
import PaulaReplay.Proofs.Layout

namespace PaulaReplay

/-! ## Commands -/

/-- Whether a command goes on to the position that comes next, with the jumps
    that the track loop in hand still makes. -/
def StepCommand.goesOn (jumps : Int16) : StepCommand → Bool
  | .stop => false
  | .loop _ _ => jumps == 0
  | .speed _ _ | .timeShare _ | .fade _ _ | .idle => true

/-- The command at a position, if there is one. -/
def Score.command? (score : Score) (position : UInt16) : Option StepCommand :=
  (score.trackStep? position).bind TrackStep.command?

/-- The loop commands of a sub-song lead to positions of it. -/
def Score.LoopsWithin (score : Score) (s : SubSong) : Prop :=
  ∀ position target count, s.first ≤ position → position ≤ s.last →
    score.command? position = some (.loop target count) → s.first ≤ target ∧ target ≤ s.last

namespace Replay

variable {r : Replay} {score : Score} {rate : UInt32} {s : SubSong}

/-- The replay plays a sub-song. -/
structure Plays (s : SubSong) (r : Replay) : Prop where
  first : r.place.first = s.first
  last : r.place.last = s.last

theorem Plays.congr {r' : Replay} (h : r.Plays s) (hp : r'.place = r.place) : r'.Plays s :=
  ⟨by rw [hp]; exact h.first, by rw [hp]; exact h.last⟩

/-- A command leads to its destination, and leaves the sub-song what it is. -/
theorem current_obey (r : Replay) (c : StepCommand) :
    (r.obey c).1.place.current = c.destination r.place r.machine.master.trackLoop :=
  congrArg (·.place.current) (hushed_obey r c)

theorem Plays.obey (h : r.Plays s) (c : StepCommand) : (r.obey c).1.Plays s :=
  ⟨(congrArg (·.place.first) (hushed_obey r c)).trans h.first,
    (congrArg (·.place.last) (hushed_obey r c)).trans h.last⟩

/-! ## Track steps -/

/-- The replay as the track step at its position is read. -/
def greeted (r : Replay) : Replay := { r.greetFirst with age := 0 }

theorem place_greeted (r : Replay) : r.greeted.place = r.place :=
  congrArg (·.place) (hushed_greetFirst r)

theorem tracks_greeted (r : Replay) : r.greeted.tracks = r.tracks :=
  congrArg (·.tracks) (hushed_greetFirst r)

theorem trackLoop_reachEnd (r : Replay) :
    r.reachEnd.machine.master.trackLoop = r.machine.master.trackLoop :=
  congrArg (·.machine.master.trackLoop) (hushed_reachEnd r)

theorem trackLoop_greeted (r : Replay) :
    r.greeted.machine.master.trackLoop = r.machine.master.trackLoop :=
  congrArg (·.machine.master.trackLoop) (hushed_greetFirst r)

theorem readStep_eq (r : Replay) (score : Score) :
    r.readStep score = match score.trackStep? r.place.current with
      | none => (r.greeted.reachEnd, false)
      | some t => match t.command? with
        | some c => r.greeted.obey c
        | none => ({ r.greeted with tracks := assignAll score t r.greeted.tracks }, false) := by
  rw [← place_greeted r]
  rfl

/-- A track step with a command is obeyed. -/
theorem readStep_of_command {c : StepCommand} (h : score.command? r.place.current = some c) :
    r.readStep score = r.greeted.obey c := by
  obtain ⟨t, ht, hc⟩ := Option.bind_eq_some_iff.1 h
  simp only [readStep_eq, ht, hc]

/-- One without leaves the position, and no other one is read. -/
theorem readStep_of_no_command (h : score.command? r.place.current = none) :
    (r.readStep score).1.place = r.place ∧ (r.readStep score).2 = false ∧
      (r.readStep score).1.machine.master.trackLoop = r.machine.master.trackLoop := by
  have hplace := place_greeted r
  have hloop := trackLoop_greeted r
  cases ht : score.trackStep? r.place.current with
  | none =>
    simp only [readStep_eq, ht]
    exact ⟨hplace, trivial, (trackLoop_reachEnd _).trans hloop⟩
  | some t =>
    have hc : t.command? = none := by rwa [Score.command?, ht] at h
    simp only [readStep_eq, ht, hc]
    exact ⟨hplace, trivial, hloop⟩

theorem Plays.readStep (h : r.Plays s) (score : Score) : (r.readStep score).1.Plays s := by
  cases hc : score.command? r.place.current with
  | none => exact h.congr (readStep_of_no_command hc).1
  | some c =>
    rw [readStep_of_command hc]
    exact (h.congr (place_greeted r)).obey c

/-! ## The positions of a sub-song -/

/-- The position is one of the sub-song. -/
def Within (r : Replay) : Prop := r.place.first ≤ r.place.current ∧ r.place.current ≤ r.place.last

/-- At the last position a track step is read that goes on to the next one. -/
def oversteps (score : Score) (r : Replay) : Move → Bool
  | .readStep => r.place.current == r.place.last &&
      (score.command? r.place.current).any (·.goesOn r.machine.master.trackLoop)
  | _ => false

theorem Within.congr {r' : Replay} (h : r.Within) (hp : r'.place = r.place) : r'.Within := by
  rw [Within, hp]
  exact h

theorem max_eq_of_le {a b : UInt16} (h : b ≤ a) : max a b = a := by
  show (if a ≤ b then b else a) = a
  split
  · next hab => exact UInt16.le_antisymm h hab
  · rfl

/-- From any position but the last one, the next one is one of the sub-song
    too; from the last one it never is. -/
theorem le_next_iff {first current last : UInt16} (h : first ≤ current ∧ current ≤ last)
    (hlast : last.toNat < 0xffff) :
    (first ≤ current + 1 ∧ current + 1 ≤ last) ↔ current ≠ last := by
  have hnext : (current + 1).toNat = (current.toNat + 1) % 65536 := UInt16.toNat_add _ _
  simp only [UInt16.le_iff_toNat_le, ne_eq, ← UInt16.toNat_inj] at h ⊢
  omega

theorem Within.leave (h : r.Within) (hlast : r.place.last.toNat < 0xffff) : r.leave.Within := by
  unfold Replay.leave
  split
  · next he => exact ⟨UInt16.le_refl _, UInt16.le_trans h.1 h.2⟩
  · next he => exact (le_next_iff h hlast).2 he

/-- A track step leads out of the sub-song just where it oversteps. -/
theorem within_readStep_iff (hloops : score.LoopsWithin s) (hs : s.last.toNat < 0xffff)
    (hp : r.Plays s) (h : r.Within) : (r.readStep score).1.Within ↔
      r.oversteps score .readStep = false := by
  obtain ⟨hfirst, hlast⟩ := hp
  cases hc : score.command? r.place.current with
  | none =>
    refine iff_of_true (h.congr (readStep_of_no_command hc).1) ?_
    rw [oversteps, hc]
    exact Bool.and_false _
  | some c =>
    have hplays := (Plays.congr ⟨hfirst, hlast⟩ (place_greeted r)).obey c
    have hcurrent := current_obey r.greeted c
    rw [place_greeted, trackLoop_greeted] at hcurrent
    rw [readStep_of_command hc, Within, hplays.first, hplays.last, ← hfirst, ← hlast, hcurrent,
      oversteps, hc]
    have hnext : (r.place.first ≤ r.place.current + 1 ∧ r.place.current + 1 ≤ r.place.last) ↔
        (r.place.current == r.place.last && true) = false := by
      rw [Bool.and_true, beq_eq_false_iff_ne]
      exact le_next_iff h (hlast ▸ hs)
    cases c with
    | stop => exact iff_of_true h (Bool.and_false _)
    | loop target count =>
      simp only [StepCommand.destination, Option.any_some, StepCommand.goesOn]
      split
      · next hj =>
        rw [hj]
        exact hnext
      · next hj =>
        -- the target is not below the first position, so it is taken as it is
        obtain ⟨hge, hle⟩ := hloops _ target count (hfirst ▸ h.1) (hlast ▸ h.2) hc
        have hmax : max target r.place.first = target := max_eq_of_le (hfirst ▸ hge)
        refine iff_of_true ?_ (by simp [hj])
        rw [hmax, hfirst, hlast]
        exact ⟨hge, hle⟩
    | speed | timeShare | fade | idle => exact hnext

/-! ## Moves -/

/-- Whether a move leaves it to the song where it plays: all do but those of a
    host that chooses a sub-song or a position. -/
def Move.stays : Move → Bool
  | .reset _ | .select _ | .aim _ _ => false
  | _ => true

/-- But for the end of a position and for track steps, the place stays. -/
theorem place_apply {mv : Move} (hmv : mv.stays = true) (hleave : mv ≠ .leave)
    (hread : mv ≠ .readStep) : (mv.apply score rate r).place = r.place := by
  cases mv with
  | reset | select | aim => cases hmv
  | leave => exact absurd rfl hleave
  | readStep => exact absurd rfl hread
  | enter i =>
    rw [Move.apply, enterTrack]
    split <;> rfl
  | _ => rfl

theorem Plays.apply (h : r.Plays s) {mv : Move} (hmv : mv.stays = true) :
    (mv.apply score rate r).Plays s := by
  by_cases hleave : mv = .leave
  · subst hleave
    rw [Move.apply, leave]
    split <;> exact ⟨h.first, h.last⟩
  · by_cases hread : mv = .readStep
    · subst hread
      exact h.readStep score
    · exact h.congr (place_apply hmv hleave hread)

/-- A move leads out of the sub-song just where it oversteps. -/
theorem within_apply_iff (hloops : score.LoopsWithin s) (hs : s.last.toNat < 0xffff)
    (hp : r.Plays s) (h : r.Within) {mv : Move} (hmv : mv.stays = true) :
    (mv.apply score rate r).Within ↔ r.oversteps score mv = false := by
  by_cases hleave : mv = .leave
  · subst hleave
    exact iff_of_true (h.leave (hp.last ▸ hs)) rfl
  · by_cases hread : mv = .readStep
    · subst hread
      exact within_readStep_iff hloops hs hp h
    · refine iff_of_true (h.congr (place_apply hmv hleave hread)) ?_
      cases mv with
      | readStep => exact absurd rfl hread
      | _ => rfl

/-- Some moves stay in the sub-song just where none of them oversteps. -/
theorem along_within_iff (hloops : score.LoopsWithin s) (hs : s.last.toNat < 0xffff) :
    ∀ (ms : List Move) {r : Replay}, ms.all Move.stays = true → r.Plays s → r.Within →
      (Along score rate (fun r mv => (mv.apply score rate r).Within) ms r ↔
        Along score rate (fun r mv => r.oversteps score mv = false) ms r) := by
  intro ms
  induction ms with
  | nil => exact fun _ _ _ => Iff.rfl
  | cons mv ms ih =>
    intro r hms hp h
    rw [List.all_cons, Bool.and_eq_true] at hms
    have hmove : (mv.apply score rate r).Within ↔ _ := within_apply_iff hloops hs hp h hms.1
    rw [Along, Along, hmove]
    exact and_congr_right fun hw => ih hms.2 (hp.apply hms.1) (hmove.2 hw)

/-- A last position whose track step plays patterns, or stops the song, is
    never overstepped. -/
theorem oversteps_eq_false (hstop : ∀ c, score.command? s.last = some c → c = .stop)
    (hp : r.Plays s) (mv : Move) : r.oversteps score mv = false := by
  cases mv with
  | readStep =>
    rw [oversteps]
    by_cases he : r.place.current = r.place.last
    · rw [he, hp.last]
      cases hc : score.command? s.last with
      | none => exact Bool.and_false _
      | some c =>
        rw [hstop c hc]
        exact Bool.and_false _
    · rw [beq_false_of_ne he, Bool.false_and]
  | _ => rfl

/-- What holds of all moves in a sub-song holds of each of some. -/
theorem Plays.along {Q : Replay → Move → Prop} (hQ : ∀ r mv, r.Plays s → Q r mv) :
    ∀ (ms : List Move) {r : Replay}, ms.all Move.stays = true → r.Plays s →
      Along score rate Q ms r
  | [], _, _, _ => trivial
  | mv :: ms, r, hms, h => by
    rw [List.all_cons, Bool.and_eq_true] at hms
    exact ⟨hQ r mv h, Plays.along hQ ms hms.2 (h.apply hms.1)⟩

theorem Plays.run : ∀ (ms : List Move) {r : Replay}, ms.all Move.stays = true → r.Plays s →
    (run score rate ms r).Plays s
  | [], _, _, h => h
  | mv :: ms, _, hms, h => by
    rw [List.all_cons, Bool.and_eq_true] at hms
    exact Plays.run ms hms.2 (h.apply hms.1)

/-- After moves that stay in the sub-song the position is one of it. -/
theorem Within.run : ∀ (ms : List Move) {r : Replay}, r.Within →
    Along score rate (fun r mv => (mv.apply score rate r).Within) ms r →
      (run score rate ms r).Within
  | [], _, h, _ => h
  | _ :: ms, _, _, ⟨h, hms⟩ => Within.run ms h hms

/-! ## The moves of a tick -/

theorem Move.stays_of_ofSong {mv : Move} (h : mv.ofSong = true) : mv.stays = true := by
  cases mv with
  | reset | select | aim => cases h
  | _ => rfl

theorem all_stays_stepMoves (n : Nat) (r : Replay) : (stepMoves score n r).all Move.stays = true :=
  all_stepMoves rfl rfl n r

/-- No move of a tick chooses another sub-song or position. -/
theorem all_stays_tickMoves (r : Replay) : (tickMoves score rate r).all Move.stays = true :=
  all_tickMoves rfl (fun _ => rfl) (fun _ => Move.stays_of_ofSong) rfl r

end Replay

namespace Player

variable {p q : Player} {s : SubSong} {song : Nat}

/-! ## Ticks -/

/-- The moves of some ticks. -/
def ticksMoves : Nat → Player → List Replay.Move
  | 0, _ => []
  | k + 1, p => p.tickMoves ++ p.tick.ticksMoves k

theorem ticksMoves_add : ∀ (j k : Nat) (p : Player),
    p.ticksMoves (j + k) = p.ticksMoves j ++ (tick^[j] p).ticksMoves k
  | 0, k, p => by rw [Nat.zero_add]; rfl
  | j + 1, k, p => by
    rw [Nat.succ_add, ticksMoves, ticksMoves, List.append_assoc, Function.iterate_succ_apply,
      ticksMoves_add j k p.tick]

theorem run_ticksMoves : ∀ (k : Nat) (p : Player), p.run (p.ticksMoves k) = (tick^[k] p).replay
  | 0, _ => rfl
  | k + 1, p => by
    rw [ticksMoves, Player.run, Replay.run_append, ← Player.run, run_tickMoves,
      Function.iterate_succ_apply]
    exact run_ticksMoves k p.tick

theorem all_stays_ticksMoves : ∀ (k : Nat) (p : Player),
    (p.ticksMoves k).all Replay.Move.stays = true
  | 0, _ => rfl
  | k + 1, p => by
    rw [ticksMoves, List.all_append, tickMoves, Replay.all_stays_tickMoves]
    exact all_stays_ticksMoves k p.tick

/-! ## From the start of a sub-song -/

/-- The moves from the start of a sub-song up to the end of some ticks. -/
def playMoves (p : Player) (song : Nat) (q : Player) (k : Nat) : List Replay.Move :=
  p.startMoves song ++ q.ticksMoves k

theorem run_playMoves (h : p.start song = .ok q) (k : Nat) :
    p.run (p.playMoves song q k) = (tick^[k] q).replay := by
  have htune : q.tune = p.tune := start_tune h
  obtain ⟨hrate, -⟩ := start_eq_ok h
  rw [playMoves, Player.run, Replay.run_append, ← Player.run, run_startMoves h, ← run_ticksMoves,
    Player.run, htune, hrate]

/-- Where a sub-song is entered. -/
theorem plays_selectSong {score : Score} (r : Replay) (hs : score.subSong? song = some s)
    (hle : s.first ≤ s.last) :
    (r.selectSong score song).Plays s ∧ (r.selectSong score song).Within := by
  unfold Replay.selectSong Replay.enterSong
  simp only [hs]
  exact ⟨⟨rfl, rfl⟩, UInt16.le_refl _, hle⟩

/-- The moves after the sub-song is entered. -/
theorem exists_playMoves (p : Player) (song : Nat) (q : Player) (k : Nat) :
    ∃ ms, p.playMoves song q k =
        .reset (decide (p.tune.format = .sevenVoices)) :: .select song :: ms ∧
      ms.all Replay.Move.stays = true := by
  let r := (Replay.initial (p.tune.format = .sevenVoices)).reset.selectSong p.tune.score song
  refine ⟨Replay.seekMoves p.tune.score r ++ [.enable song] ++ q.ticksMoves k,
    by simp only [playMoves, startMoves, List.cons_append, r], ?_⟩
  rw [List.all_append, List.all_append, Replay.seekMoves, Replay.all_stays_stepMoves,
    all_stays_ticksMoves]
  rfl

/-- From the start of a sub-song up to the end of some ticks, each move leads
    to a position of the sub-song. -/
def StaysWithin (p : Player) (song : Nat) (q : Player) (k : Nat) : Prop :=
  Replay.Along p.tune.score p.rate (fun r mv => (mv.apply p.tune.score p.rate r).Within)
    (p.playMoves song q k) p.replay

/-- From the start of a sub-song up to the end of some ticks, no track step at
    the last position goes on to the next one. -/
def NeverOversteps (p : Player) (song : Nat) (q : Player) (k : Nat) : Prop :=
  Replay.Along p.tune.score p.rate (fun r mv => r.oversteps p.tune.score mv = false)
    (p.playMoves song q k) p.replay

/-- From the start of a sub-song on, the position is one of it at every move,
    just where no track step at the last position goes on to the next one.
    None does where the last position plays patterns or stops the song. -/
theorem start_within {music : ByteArray} {samples : Option ByteArray}
    (hload : load music samples = .ok p.tune) (h : p.start song = .ok q)
    (hs : p.tune.score.subSong? song = some s) (hle : s.first ≤ s.last)
    (hlast : s.last.toNat < p.tune.score.trackSteps.size) (hloops : p.tune.score.LoopsWithin s)
    (k : Nat) :
    (tick^[k] q).replay.Plays s ∧
      (p.StaysWithin song q k ↔ p.NeverOversteps song q k) ∧
      (p.NeverOversteps song q k → (tick^[k] q).replay.place.first ≤
        (tick^[k] q).replay.place.current ∧
          (tick^[k] q).replay.place.current ≤ (tick^[k] q).replay.place.last) ∧
      ((∀ c, p.tune.score.command? s.last = some c → c = .stop) → p.NeverOversteps song q k) := by
  have hrun := run_playMoves h k
  obtain ⟨ms, hms, hstays⟩ := exists_playMoves p song q k
  obtain ⟨hp, hw⟩ := plays_selectSong (Replay.initial (p.tune.format = .sevenVoices)).reset hs hle
  have hbound : s.last.toNat < 0xffff := by
    have hsteps := (laidOut_of_load hload).trackSteps
    have hmax : maxMusicSize = 65532 := rfl
    omega
  have hiff : Replay.Along p.tune.score p.rate _ ms _ ↔ _ :=
    Replay.along_within_iff hloops hbound ms hstays hp hw
  have hreset : (Replay.initial (p.tune.format = .sevenVoices)).reset.Within :=
    ⟨UInt16.le_refl 0, UInt16.le_refl 0⟩
  rw [StaysWithin, NeverOversteps, hms]
  rw [hms] at hrun
  refine ⟨?_, and_congr (iff_of_true hreset rfl) (and_congr (iff_of_true hw rfl) hiff),
    fun halong => ?_, fun hstop => ⟨rfl, rfl, ?_⟩⟩
  · rw [← hrun]
    exact hp.run ms hstays
  · rw [← hrun]
    exact hw.run ms (hiff.2 halong.2.2)
  · exact hp.along (fun r mv hr => Replay.oversteps_eq_false hstop hr mv) ms hstays

/-- A tune of three positions, of which the second one makes the first one play
    two more times. -/
def loopingTune : ByteArray :=
  songTune 2 1 [[0], [0xeffe, 1, 0, 2], [0]] [[0xf0000000]] []

/-- It stays in its sub-song for ever. -/
theorem within_loopingTune : ∃ tune p q, load loopingTune (some ⟨#[]⟩) = .ok tune ∧
    Player.new tune minRate = .ok p ∧ p.start 0 = .ok q ∧
      tune.score.subSong? 0 = some ⟨0, 2, 1⟩ ∧ tune.score.trackSteps.size = 3 ∧
      tune.score.LoopsWithin ⟨0, 2, 1⟩ ∧ tune.score.command? 1 = some (.loop 0 2) ∧
      ∀ k, (tick^[k] q).replay.Within := by
  have h : ((load loopingTune (some ⟨#[]⟩)).toOption.bind fun tune =>
      (Player.new tune minRate).toOption.map fun p => ((p.start 0).toOption.isSome,
        p.tune.score.subSong? 0, p.tune.score.trackSteps.size,
        [0, 1, 2].map p.tune.score.command?)) =
        some (true, some ⟨0, 2, 1⟩, 3, [none, some (.loop 0 2), none]) := by decide +kernel
  obtain ⟨tune, p, hload, hnew, h⟩ := exists_new h
  obtain rfl := new_tune hnew
  simp only [Prod.mk.injEq, List.map_cons, List.map_nil, List.cons.injEq, and_true] at h
  obtain ⟨hstart, hs, hsize, h0, h1, h2⟩ := h
  obtain ⟨q, hq⟩ := Option.isSome_iff_exists.1 hstart
  have hq := eq_ok_of_toOption hq
  have hloops : p.tune.score.LoopsWithin ⟨0, 2, 1⟩ := by
    intro position target count _ hle hc
    have hle : position.toNat ≤ 2 := UInt16.le_iff_toNat_le.1 hle
    obtain rfl | rfl | rfl : position = 0 ∨ position = 1 ∨ position = 2 := by
      simp only [← UInt16.toNat_inj]
      show position.toNat = 0 ∨ position.toNat = 1 ∨ position.toNat = 2
      omega
    · rw [h0] at hc; cases hc
    · rw [h1] at hc; cases hc; decide
    · rw [h2] at hc; cases hc
  refine ⟨p.tune, p, q, hload, hnew, hq, hs, hsize, hloops, h1, fun k => ?_⟩
  obtain ⟨-, -, hwithin, hnever⟩ := start_within hload hq hs (by decide) (by rw [hsize]; decide)
    hloops k
  exact hwithin (hnever fun c hc => by rw [h2] at hc; cases hc)

/-- A tune whose only position is a command without effect, with a track step
    behind it that belongs to no sub-song. -/
def overstepTune : ByteArray :=
  songTune 0 1 [[0xeffe, 9], [0]] [[0xf3ff0000, 0xf0000000]] []

/-- There the position is not one of the sub-song from the start on, though no
    loop command leads out of it. -/
theorem out_of_song : ∃ tune p s, load overstepTune (some ⟨#[]⟩) = .ok tune ∧
    Player.new tune minRate = .ok p ∧ tune.score.subSong? 0 = some s ∧ s.first ≤ s.last ∧
      s.last.toNat < tune.score.trackSteps.size ∧ tune.score.LoopsWithin s ∧
      p.replay.Plays s ∧ s.last < p.replay.place.current ∧
      s.last < p.tick.replay.place.current := by
  have h : ((load overstepTune (some ⟨#[]⟩)).toOption.bind fun tune =>
      (Player.new tune minRate).toOption.map fun p => (p.tune.score.subSong? 0,
        p.tune.score.trackSteps.size, p.tune.score.command? 0, [p.replay.place.first,
          p.replay.place.last, p.replay.place.current, p.tick.replay.place.current])) =
        some (some ⟨0, 0, 1⟩, 2, some .idle, [0, 0, 1, 1]) := by decide +kernel
  obtain ⟨tune, p, hload, hnew, h⟩ := exists_new h
  obtain rfl := new_tune hnew
  simp only [Prod.mk.injEq, List.cons.injEq, and_true] at h
  obtain ⟨hs, hsize, hc, hfirst, hlast, hcurrent, htick⟩ := h
  refine ⟨p.tune, p, ⟨0, 0, 1⟩, hload, hnew, hs, by decide, by rw [hsize]; decide, ?_,
    ⟨hfirst, hlast⟩, by rw [hcurrent]; decide, by rw [htick]; decide⟩
  intro position target count _ hle hloop
  obtain rfl : position = 0 := UInt16.le_antisymm hle (UInt16.zero_le)
  rw [hc] at hloop
  cases hloop

end Player

end PaulaReplay
