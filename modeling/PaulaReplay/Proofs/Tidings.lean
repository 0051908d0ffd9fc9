/-
  Tidings: what a replay tells of its speed and its tempo.

  In a row the speed and the tempo change only where the host is told so, and the
  ticks to the next row are set with the speed.  So what a row does to them can be
  read off its notices.

  * `Tidings`: the speed, the ticks to the next row, the tempo, the sub-song, and the
    notices; `Tidings.hear` is what a notice makes of them;
  * `Replay.Tells`: the one replay comes from the other by notices alone;
  * `tells_obey`, `tells_readStep`, `tells_apply`: so it is for commands, track steps
    and all moves of a row, and `tells_run` for a run of such moves;
  * `Replay.Playing`: the replay is enabled and plays a sub-song, of which no notice
    tells; `Reachable.playing` is for all players that a host comes to.
-/
import PaulaReplay.Proofs.Bearings

namespace PaulaReplay

/-- The speed of a replay and the ticks to its next row, its tempo, the sub-song and
    whether it is enabled, and the notices for the host. -/
structure Tidings where
  speed : UInt16
  count : UInt16
  tempo : UInt32
  song : Int32
  enabled : Bool
  notices : List Notice

/-- What a notice makes of them: it waits for the host, and what it tells holds. -/
def Tidings.hear (t : Tidings) (n : Notice) : Tidings :=
  let t := { t with notices := enqueue t.notices n }
  match n with
  | .speed ticks => { t with speed := ticks, count := ticks }
  | .tempo beats => { t with tempo := beats }
  | .position _ | .ended => t

/-- What each notice keeps, all of them keep. -/
theorem Tidings.foldl_hear {P : Tidings → Prop} (hP : ∀ t n, P t → P (t.hear n)) :
    ∀ (ns : List Notice) {t : Tidings}, P t → P (ns.foldl hear t)
  | [], _, h => h
  | n :: ns, t, h => foldl_hear hP ns (hP t n h)

namespace Replay

variable {score : Score} {rate : UInt32} {r r' r'' : Replay}

/-- The tidings of a replay. -/
def tidings (r : Replay) : Tidings where
  speed := r.place.speed
  count := r.machine.master.speedCount
  tempo := bpm r.machine.master.clocks
  song := r.song
  enabled := r.machine.master.enabled
  notices := r.machine.notices

/-- From the one replay to the other there is nothing new but what was told. -/
def Tells (r r' : Replay) : Prop :=
  ∃ ns : List Notice, r'.tidings = ns.foldl Tidings.hear r.tidings

theorem tells_of_eq (h : r'.tidings = r.tidings) : r.Tells r' := ⟨[], h⟩

theorem tells_of_hear {n : Notice} (h : r'.tidings = r.tidings.hear n) : r.Tells r' := ⟨[n], h⟩

theorem Tells.trans (h : r.Tells r') (h' : r'.Tells r'') : r.Tells r'' := by
  obtain ⟨ns, hns⟩ := h
  obtain ⟨ns', hns'⟩ := h'
  refine ⟨ns ++ ns', ?_⟩
  rw [hns', hns, List.foldl_append]

/-- What is told as long as something holds is told. -/
theorem Tells.keeps {P : Tidings → Prop} (hP : ∀ t n, P t → P (t.hear n)) (h : r.Tells r')
    (hr : P r.tidings) : P r'.tidings := by
  obtain ⟨ns, hns⟩ := h
  rw [hns]
  exact Tidings.foldl_hear hP ns hr

/-! ## Commands -/

theorem tells_moveTo (r : Replay) (position : UInt16) : r.Tells (r.moveTo position) :=
  tells_of_hear (n := .position (position - r.place.first)) rfl

theorem tells_reachEnd (r : Replay) : r.Tells r.reachEnd := by
  unfold reachEnd Machine.reachEnd onMachine
  simp only
  split
  · exact tells_of_eq rfl
  · exact tells_of_hear (n := .ended) rfl

theorem tells_ends (n : Nat) (r : Replay) : r.Tells (reachEnd^[n] r) := by
  induction n generalizing r with
  | zero => exact tells_of_eq rfl
  | succ n ih => exact (tells_reachEnd r).trans (ih r.reachEnd)

theorem tells_setClocks (r : Replay) (clocks : UInt16) : r.Tells (r.setClocks clocks) :=
  tells_of_hear (n := .tempo (bpm clocks)) rfl

theorem tells_obeySpeed (r : Replay) (ticks tempo : UInt16) :
    r.Tells (r.obeySpeed ticks tempo) := by
  have hspeed : r.Tells (notify { r with
      place.speed := ticks, machine.master.speedCount := ticks } (.speed ticks)) :=
    tells_of_hear (n := .speed ticks) rfl
  unfold obeySpeed
  cases speedClocks? tempo with
  | none => exact hspeed.trans (tells_moveTo _ _)
  | some clocks => exact hspeed.trans ((tells_setClocks _ clocks).trans (tells_moveTo _ _))

theorem tells_obey (r : Replay) (c : StepCommand) : r.Tells (r.obey c).1 := by
  cases c with
  | stop => exact tells_reachEnd r
  | loop target count =>
    rw [obey, obeyLoop_eq]
    refine ((tells_of_eq ?_).trans (tells_ends _ _)).trans (tells_moveTo _ _)
    rfl
  | speed ticks tempo => exact tells_obeySpeed r ticks tempo
  | timeShare tempo =>
    rw [obey, obeyTimeShare]
    cases timeShareClocks? tempo with
    | none => exact tells_moveTo r _
    | some clocks =>
      have h₁ : r.Tells { r with machine.multi := true } := tells_of_eq rfl
      exact h₁.trans ((tells_setClocks _ clocks).trans (tells_moveTo _ _))
  | fade speed target => exact (tells_of_eq rfl).trans (tells_moveTo _ _)
  | idle => exact tells_moveTo r _

/-! ## Moves of a row -/

theorem tells_greeted (r : Replay) : r.Tells r.greeted := by
  rw [greeted, greetFirst_eq]
  refine ((tells_of_eq ?_).trans (tells_ends _ _)).trans (tells_of_eq rfl)
  rfl

theorem tells_readStep (r : Replay) (score : Score) : r.Tells (r.readStep score).1 := by
  rw [readStep_eq]
  refine (tells_greeted r).trans ?_
  split
  · exact tells_reachEnd _
  · split
    · exact tells_obey _ _
    · exact tells_of_eq rfl

theorem tells_leave (r : Replay) : r.Tells r.leave := by
  unfold leave
  split
  · exact (tells_of_hear (n := .position 0) rfl).trans (tells_reachEnd _)
  · exact tells_moveTo r _

theorem tells_enterTrack (r : Replay) (i : Slot) : r.Tells (r.enterTrack i) := by
  rw [enterTrack]
  split
  · exact tells_of_eq rfl
  · exact tells_of_eq rfl
  · refine tells_of_eq ?_
    unfold tidings Machine.channelOff
    simp only
    split
    · split <;> rfl
    · rfl

theorem tells_runWord (r : Replay) (score : Score) (i : Slot) : r.Tells (r.runWord score i) := by
  unfold runWord
  extract_lets s
  cases hs : s.request with
  | none => exact tells_of_eq rfl
  | some request =>
    cases request with
    | endSong => exact (tells_reachEnd r).trans (tells_of_eq rfl)
    | _ => exact tells_of_eq rfl

/-- A move of a row tells what it changes. -/
theorem tells_apply {mv : Move} (h : mv.ofRow = true) (r : Replay) :
    r.Tells (mv.apply score rate r) := by
  cases mv with
  | enter i => exact tells_enterTrack r i
  | word i => exact tells_runWord r score i
  | stop i => exact tells_of_eq rfl
  | leave => exact tells_leave r
  | readStep => exact tells_readStep r score
  | giveUp => exact tells_reachEnd r
  | _ => cases h

theorem tells_run : ∀ (ms : List Move) {r : Replay}, ms.all Move.ofRow = true →
    r.Tells (run score rate ms r)
  | [], _, _ => tells_of_eq rfl
  | mv :: ms, r, h => by
    rw [List.all_cons, Bool.and_eq_true] at h
    exact (tells_apply h.1 r).trans (tells_run ms h.2)

/-! ## Playing -/

/-- The replay is enabled and plays a sub-song. -/
structure Playing (r : Replay) : Prop where
  enabled : r.machine.master.enabled = true
  song : 0 ≤ r.song

theorem Tells.playing (h : r.Tells r') (hr : r.Playing) : r'.Playing := by
  obtain ⟨henabled, hsong⟩ := h.keeps (P := fun t => t.enabled = true ∧ 0 ≤ t.song)
    (fun t n ht => by cases n <;> exact ht) ⟨hr.enabled, hr.song⟩
  exact ⟨henabled, hsong⟩

/-- Whether a move is one of the start of a sub-song. -/
def Move.begins : Move → Bool
  | .reset _ | .select _ | .enable _ => true
  | _ => false

/-- Only the start of a sub-song ends what is played. -/
theorem Playing.apply (h : r.Playing) {mv : Move} (hmv : mv.begins = false) :
    (mv.apply score rate r).Playing := by
  by_cases hrow : mv.ofRow = true
  · exact (tells_apply hrow r).playing h
  · cases mv with
    | reset | select | enable => cases hmv
    | machine mv =>
      have hboard := Machine.board_apply score rate r.machine mv
      exact ⟨(congrArg (fun b => b.1.enabled) hboard).trans h.enabled, h.song⟩
    | aim position e =>
      rw [Move.apply, aim]
      simp only
      split <;> exact ⟨h.enabled, h.song⟩
    | begin | countTick | startRow | render | announce | reserve | drain =>
      exact ⟨h.enabled, h.song⟩
    | _ => exact absurd rfl hrow

theorem Playing.run : ∀ (ms : List Move) {r : Replay}, ms.all (!·.begins) = true → r.Playing →
    (run score rate ms r).Playing
  | [], _, _, h => h
  | mv :: ms, r, hms, h => by
    rw [List.all_cons, Bool.and_eq_true, Bool.not_eq_true'] at hms
    exact Playing.run ms hms.2 (h.apply hms.1)

theorem Move.not_begins_of_ofSong {mv : Move} (h : mv.ofSong = true) : (!mv.begins) = true := by
  cases mv with
  | reset | select | enable => cases h
  | _ => rfl

end Replay

/-! ## Players -/

theorem stopIndex_le (steps : Nat) : ∀ (ss : List SubSong) (zeros i : Nat),
    stopIndex steps zeros i ss ≤ i + ss.length
  | [], _, _ => le_rfl
  | s :: rest, zeros, i => by
    rw [stopIndex, List.length_cons]
    generalize (if s.first = 0 then zeros - 1 else zeros) = left
    have hrest := stopIndex_le steps rest left (i + 1)
    split <;> omega

theorem Score.songCount_le (score : Score) : score.songCount ≤ 32 := by
  have h := stopIndex_le score.trackSteps.size score.songs.toList 2 0
  rw [Vector.length_toList] at h
  unfold songCount
  omega

namespace Player

variable {p q : Player}

theorem playing_start {song : Nat} (h : p.start song = .ok q) : q.replay.Playing := by
  obtain ⟨-, -, -, -, hreplay⟩ := start_eq_ok h
  have hcount := p.tune.score.songCount_le
  unfold start at h
  split at h
  · cases h
  · next hsong =>
    rw [hreplay]
    refine ⟨rfl, ?_⟩
    show 0 ≤ Int32.ofNat song
    rw [Int32.le_iff_toInt_le, Int32.toInt_ofNat_of_lt (by omega)]
    exact Int.natCast_nonneg song

theorem playing_tick (h : p.replay.Playing) : p.tick.replay.Playing := by
  rw [← p.run_tickMoves]
  exact h.run _ (Replay.all_tickMoves rfl (fun _ => rfl)
    (fun _ => Replay.Move.not_begins_of_ofSong) rfl _)

theorem all_not_begins_aimMoves (p : Player) (position : Nat) (e : Timeline.Entry) :
    (p.aimMoves position e).all (!·.begins) = true := by
  rw [aimMoves, List.all_cons, List.all_append, Replay.seekMoves, Replay.all_stepMoves rfl rfl]
  rfl

theorem playing_seek (h : p.replay.Playing) (position : Nat) (e : Timeline.Entry) :
    (p.seek position e).replay.Playing := by
  rw [← p.run_aimMoves]
  exact h.run _ (p.all_not_begins_aimMoves position e)

/-- A player that a host comes to plays a sub-song. -/
theorem Reachable.playing {allowed : Player → Action → Prop} (h : Reachable allowed p) :
    p.replay.Playing := by
  induction h with
  | new h =>
    unfold Player.new at h
    split at h
    · cases h
    · exact playing_start h
  | @perform p action _ _ ih =>
    rcases p.perform_cases action with ⟨-, he⟩ | ⟨song, hs⟩ | ⟨n, loops, out, hf⟩ |
      ⟨position, e, he⟩ | ⟨m, hm, he⟩
    · rw [he]
      exact playing_tick ih
    · exact playing_start hs
    · refine (fill_eq_ok_iff.1 hf).preserves (P := fun p => p.replay.Playing)
        (fun p hp => ?_) (fun _ _ hp => hp) ih
      have ht := playing_tick hp
      rcases refill_cases p loops with ⟨-, he⟩ | ⟨-, he⟩ <;> rw [he] <;> exact ht
    · rw [he]
      exact playing_seek ih position e
    · rw [he]
      exact ⟨(congrArg Master.enabled hm).trans ih.enabled, ih.song⟩
  | restore _ _ _ ihq => exact ⟨ihq.enabled, ihq.song⟩

end Player

end PaulaReplay
