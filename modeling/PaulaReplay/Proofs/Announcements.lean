/-
  Announcements: whether the host is told the speed and the tempo that hold.

  What is told in a row holds when it is told, and the queue only loses the oldest
  notices.  A seek tells the tempo that it has come to, but the speed that its entry
  says, which the commands on the way may have changed.

  * `LastTold`: the last that the notices tell of a thing, if they tell of it at all;
  * `Tidings.SpeedTold`, `Tidings.TempoTold`: it is what holds; `Tidings.Lasts` is what
    both have in common;
  * `Replay.news_apply`, `lasts_perform`: what lasts so, lasts whatever a host does but
    seek;
  * `Player.speedsTo`: the speeds that are commanded on the way of a seek, and
    `Player.speed_seek` which of them is left;
  * `Player.Candid`: a seek after which the speed of its entry holds;
    `Reachable.announcements_law`: tempos are always told as they are, and speeds as
    long as seeks are candid.
-/
import PaulaReplay.Proofs.Seeking
import PaulaReplay.Proofs.Tidings

namespace PaulaReplay

/-! ## Notices -/

/-- The speed that a notice tells. -/
def Notice.speed? : Notice → Option UInt16
  | .speed ticks => some ticks
  | _ => none

/-- The tempo that a notice tells. -/
def Notice.tempo? : Notice → Option UInt32
  | .tempo beats => some beats
  | _ => none

section LastTold

variable {α : Type} {f : Notice → Option α} {ns : List Notice} {n : Notice} {x : α}

/-- The last that notices tell of something is `x`, if they tell of it at all. -/
def LastTold (f : Notice → Option α) (ns : List Notice) (x : α) : Prop :=
  ∀ y, (ns.filterMap f).getLast? = some y → y = x

theorem lastTold_nil (f : Notice → Option α) (x : α) : LastTold f [] x := nofun

theorem LastTold.tail (h : LastTold f ns x) : LastTold f ns.tail x := by
  cases ns with
  | nil => exact h
  | cons n ns =>
    intro y hy
    refine h y ?_
    rw [List.filterMap_cons]
    cases f n with
    | none => exact hy
    | some z => rw [List.getLast?_cons, show (ns.filterMap f).getLast? = some y from hy]; rfl

/-- A notice of other things tells nothing new. -/
theorem LastTold.enqueue_none (h : LastTold f ns x) (hn : f n = none) :
    LastTold f (enqueue ns n) x := by
  rw [enqueue, LastTold, List.filterMap_append, List.filterMap_cons_none hn, List.filterMap_nil,
    List.append_nil]
  split
  · exact h.tail
  · exact h

/-- The newest notice is the last one. -/
theorem getLast?_enqueue (hn : f n = some x) (ns : List Notice) :
    ((enqueue ns n).filterMap f).getLast? = some x := by
  rw [enqueue, List.filterMap_append, List.filterMap_cons_some hn, List.filterMap_nil,
    List.getLast?_concat]

theorem lastTold_enqueue_some (hn : f n = some x) (ns : List Notice) {y : α} :
    LastTold f (enqueue ns n) y ↔ x = y := by
  rw [LastTold, getLast?_enqueue hn]
  exact ⟨fun h => h x rfl, fun h z hz => (Option.some.inj hz).symm.trans h⟩

/-- Two notices in a row both wait, whatever makes room for them. -/
theorem exists_enqueue_enqueue (ns : List Notice) (n n' : Notice) :
    ∃ before, enqueue (enqueue ns n) n' = before ++ [n, n'] := by
  rw [enqueue]
  split
  · next hfull =>
    rw [enqueue] at hfull ⊢
    generalize (if noticeLimit ≤ ns.length then ns.tail else ns) = kept at hfull ⊢
    cases kept with
    | nil => exact absurd hfull (Nat.not_le.2 (Nat.lt_of_sub_ne_zero nofun))
    | cons k kept =>
      refine ⟨kept, ?_⟩
      rw [List.cons_append, List.tail_cons, List.append_assoc]
      rfl
  · exact ⟨_, List.append_assoc ..⟩

/-- The newest notice stays the last one of its kind as a notice of other things comes
    behind it. -/
theorem getLast?_enqueue_enqueue {n' : Notice} (hn : f n = some x) (hn' : f n' = none)
    (ns : List Notice) : ((enqueue (enqueue ns n) n').filterMap f).getLast? = some x := by
  obtain ⟨before, hbefore⟩ := exists_enqueue_enqueue ns n n'
  rw [hbefore, List.filterMap_append, List.filterMap_cons_some hn, List.filterMap_cons_none hn',
    List.filterMap_nil, List.getLast?_concat]

theorem lastTold_enqueue_enqueue {n' : Notice} (hn : f n = some x) (hn' : f n' = none)
    (ns : List Notice) {y : α} : LastTold f (enqueue (enqueue ns n) n') y ↔ x = y := by
  rw [LastTold, getLast?_enqueue_enqueue hn hn']
  exact ⟨fun h => h x rfl, fun h z hz => (Option.some.inj hz).symm.trans h⟩

end LastTold

/-! ## Tidings -/

namespace Tidings

/-- What a host can know of the speed and the tempo, and what it is told. -/
def news (t : Tidings) : UInt16 × UInt32 × List Notice := (t.speed, t.tempo, t.notices)

/-- The last speed that is told is the one that holds. -/
def SpeedTold (t : Tidings) : Prop := LastTold Notice.speed? t.notices t.speed

/-- The last tempo that is told is the one that holds. -/
def TempoTold (t : Tidings) : Prop := LastTold Notice.tempo? t.notices t.tempo

/-- What is so of the news while nothing waits for the host, and stays so as
    something comes that holds. -/
structure Lasts (P : Tidings → Prop) : Prop where
  news {t t' : Tidings} : t'.news = t.news → P t → P t'
  nil {t : Tidings} : t.notices = [] → P t
  hear {t : Tidings} (n : Notice) : P t → P (t.hear n)

theorem lasts_speedTold : Lasts SpeedTold where
  news {t t'} h ht := by
    obtain ⟨hspeed, -, hnotices⟩ : t'.speed = t.speed ∧ t'.tempo = t.tempo ∧
      t'.notices = t.notices := by simpa only [Tidings.news, Prod.mk.injEq] using h
    rwa [SpeedTold, hspeed, hnotices]
  nil {t} h := by
    rw [SpeedTold, h]
    exact lastTold_nil _ _
  hear n ht := by
    cases n with
    | speed ticks => exact (lastTold_enqueue_some (f := Notice.speed?) (x := ticks) rfl _).2 rfl
    | tempo | position | ended => exact LastTold.enqueue_none ht rfl

theorem lasts_tempoTold : Lasts TempoTold where
  news {t t'} h ht := by
    obtain ⟨-, htempo, hnotices⟩ : t'.speed = t.speed ∧ t'.tempo = t.tempo ∧
      t'.notices = t.notices := by simpa only [Tidings.news, Prod.mk.injEq] using h
    rwa [TempoTold, htempo, hnotices]
  nil {t} h := by
    rw [TempoTold, h]
    exact lastTold_nil _ _
  hear n ht := by
    cases n with
    | tempo beats => exact (lastTold_enqueue_some (f := Notice.tempo?) (x := beats) rfl _).2 rfl
    | speed | position | ended => exact LastTold.enqueue_none ht rfl

end Tidings

/-! ## Moves -/

namespace Replay

variable {P : Tidings → Prop} {score : Score} {rate : UInt32} {r : Replay} {mv : Move}

/-- Whether a move is one of the host's to a position. -/
def Move.seeks : Move → Bool
  | .aim .. | .announce _ => true
  | _ => false

theorem notices_reset : ∀ multi, (initial multi).reset.machine.notices = [] := by
  decide +kernel

/-- All other moves tell what they change, or leave nothing that waits for the host. -/
theorem news_apply (score : Score) (rate : UInt32) (r : Replay) (hmv : mv.seeks = false) :
    (mv.apply score rate r).machine.notices = [] ∨
      ∃ ns : List Notice, (mv.apply score rate r).tidings.news =
        (ns.foldl Tidings.hear r.tidings).news := by
  by_cases hrow : mv.ofRow = true
  · obtain ⟨ns, hns⟩ : r.Tells (mv.apply score rate r) := tells_apply hrow r
    exact .inr ⟨ns, congrArg Tidings.news hns⟩
  · cases mv with
    | aim | announce => cases hmv
    | drain => exact .inl rfl
    | reset multi => exact .inl (notices_reset multi)
    | machine mv =>
      have hboard := Machine.board_apply score rate r.machine mv
      have hclocks := congrArg (fun b => bpm b.1.clocks) hboard
      have hnotices := congrArg (fun b => b.2.2.2) hboard
      exact .inr ⟨[], Prod.ext rfl (Prod.ext hclocks hnotices)⟩
    | select n =>
      refine .inr ?_
      rw [Move.apply, selectSong]
      cases hs : score.subSong? n with
      | none => exact ⟨[.tempo (bpm usualClocks)], rfl⟩
      | some s =>
        exact ⟨[.speed (tempoTiming s.tempo).2, .tempo (bpm (tempoTiming s.tempo).1)], rfl⟩
    | begin | countTick | startRow | render | enable | reserve => exact .inr ⟨[], rfl⟩
    | _ => exact absurd rfl hrow

theorem lasts_apply (hP : Tidings.Lasts P) (hmv : mv.seeks = false) (h : P r.tidings) :
    P (mv.apply score rate r).tidings := by
  rcases news_apply score rate r hmv with hnil | ⟨ns, hns⟩
  · exact hP.nil hnil
  · exact hP.news hns (Tidings.foldl_hear (fun _ n ht => hP.hear n ht) ns h)

theorem lasts_run (hP : Tidings.Lasts P) : ∀ (ms : List Move) {r : Replay},
    ms.all (!·.seeks) = true → P r.tidings → P (run score rate ms r).tidings
  | [], _, _, h => h
  | mv :: ms, _, hms, h => by
    rw [List.all_cons, Bool.and_eq_true, Bool.not_eq_true'] at hms
    exact lasts_run hP ms hms.2 (lasts_apply hP hms.1 h)

/-! ## The speeds of a search -/

end Replay

/-- The speeds that are commanded where replays stand. -/
def Score.speedsAt (score : Score) (rs : List Replay) : List UInt16 :=
  rs.filterMap fun r => (score.command? r.place.current).bind StepCommand.speed?

namespace Replay

/-- A track step that is read sets the speed that it commands. -/
theorem speed_readStep (score : Score) (r : Replay) : (r.readStep score).1.place.speed =
    ((score.command? r.place.current).bind StepCommand.speed?).getD r.place.speed := by
  cases hc : score.command? r.place.current with
  | none =>
    obtain ⟨hbearing, -⟩ := bearing_readStep_of_no_command hc
    exact congrArg (·.place.speed) hbearing
  | some c =>
    rw [readStep_of_command hc, Option.bind_some, ← place_greeted r]
    exact congrArg (·.place.speed) (hushed_obey r.greeted c)

theorem speed_reachEnd (r : Replay) : r.reachEnd.place.speed = r.place.speed :=
  congrArg (·.place.speed) (bearing_reachEnd r)

/-- A search leaves the last speed that it was commanded. -/
theorem speed_readSteps (score : Score) (rate : UInt32) : ∀ (n : Nat) (r : Replay),
    (readSteps score n r).place.speed =
      (score.speedsAt (readings score rate (stepMoves score n r) r)).getLast?.getD r.place.speed
  | 0, r => speed_reachEnd r
  | n + 1, r => by
    have hread := speed_readStep score r
    rw [readings_stepMoves_succ, Score.speedsAt, List.filterMap_cons]
    cases hreads : (r.readStep score).2 with
    | false =>
      rw [readSteps_of_rests n hreads, hread]
      cases (score.command? r.place.current).bind StepCommand.speed? <;> rfl
    | true =>
      rw [readSteps_of_reads n hreads, speed_readSteps score rate n, hread, if_pos rfl,
        Score.speedsAt]
      cases (score.command? r.place.current).bind StepCommand.speed? with
      | none => rfl
      | some ticks =>
        rw [List.getLast?_cons]
        rfl

end Replay

/-! ## Players -/

namespace Player

variable {P : Tidings → Prop} {p q : Player} {action : Action}

theorem lasts_tick (hP : Tidings.Lasts P) (h : P p.replay.tidings) : P p.tick.replay.tidings := by
  rw [← p.run_tickMoves]
  exact Replay.lasts_run hP _ (Replay.all_tickMoves rfl (fun _ => rfl)
    (fun mv hmv => by cases mv <;> first | rfl | cases hmv) rfl _) h

theorem lasts_start (hP : Tidings.Lasts P) {song : Nat} (h : p.start song = .ok q) :
    P q.replay.tidings := by
  have hreset (multi : Bool) : P (Replay.initial multi).reset.tidings := by
    refine hP.nil ?_
    rw [Replay.tidings, Replay.notices_reset]
  rw [← run_startMoves h, run, startMoves, Replay.run_cons, Replay.Move.apply]
  refine Replay.lasts_run hP _ ?_ (hreset _)
  rw [List.all_cons, List.all_append, Replay.seekMoves, Replay.all_stepMoves rfl rfl]
  rfl

/-- What lasts, lasts whatever a host does but seek. -/
theorem lasts_perform (hP : Tidings.Lasts P) (haction : ∀ position e, action ≠ .seek position e)
    (h : P p.replay.tidings) : P (p.perform action).replay.tidings := by
  cases action with
  | start song =>
    rw [perform]
    split
    · next hs => exact lasts_start hP hs
    · exact h
  | tick => exact lasts_tick hP h
  | fill n loops =>
    rw [perform]
    split
    · next hf =>
      refine (fill_eq_ok_iff.1 hf).preserves (P := fun p => P p.replay.tidings)
        (fun p hp => ?_) (fun _ _ hp => hp) h
      have ht := lasts_tick hP hp
      rcases refill_cases p loops with ⟨-, he⟩ | ⟨-, he⟩ <;> rw [he] <;> exact ht
    · exact h
  | seek position e => exact absurd rfl (haction position e)
  | playEffect channel word priority =>
    rw [perform]
    rcases p.playEffect_eq channel word priority with he | ⟨i, code, -, he⟩ <;> rw [he] <;> exact h
  | drain => exact hP.nil rfl

/-- The speeds that are commanded on the way of a seek. -/
def speedsTo (p : Player) (position : Nat) (e : Timeline.Entry) : List UInt16 :=
  p.tune.score.speedsAt (p.walk [.aim position e])

/-- A seek leaves the last speed that is commanded on its way, or else its entry's. -/
theorem speed_seek (p : Player) (position : Nat) (e : Timeline.Entry) :
    (p.seek position e).replay.place.speed = (p.speedsTo position e).getLast?.getD e.speed := by
  rw [seek_replay]
  exact Replay.speed_readSteps p.tune.score p.rate Replay.stepBound (p.replay.aim position e)

/-- The host seeks to where the last speed commanded on the way is its entry's. -/
def Candid (p : Player) (action : Action) : Prop :=
  ∀ position e, action = .seek position e →
    ∀ ticks, (p.speedsTo position e).getLast? = some ticks → ticks = e.speed

theorem speedTold_seek (p : Player) (position : Nat) (e : Timeline.Entry) :
    (p.seek position e).replay.tidings.SpeedTold ↔ p.Candid (.seek position e) := by
  have hspeed := p.speed_seek position e
  have htold : (p.seek position e).replay.tidings.SpeedTold ↔
      e.speed = (p.seek position e).replay.place.speed := by
    rw [Tidings.SpeedTold, seek_replay]
    exact lastTold_enqueue_enqueue (f := Notice.speed?) (x := e.speed) rfl rfl _
  rw [htold, hspeed]
  constructor
  · rintro h position' e' ⟨⟩ ticks hticks
    rw [hticks] at h
    exact h.symm
  · intro h
    cases hlast : (p.speedsTo position e).getLast? with
    | none => rfl
    | some ticks => exact (h position e rfl ticks hlast).symm

theorem tempoTold_seek (p : Player) (position : Nat) (e : Timeline.Entry) :
    (p.seek position e).replay.tidings.TempoTold := by
  rw [Tidings.TempoTold, seek_replay]
  exact (lastTold_enqueue_some (f := Notice.tempo?) rfl _).2 rfl

theorem seek_or_not (action : Action) :
    (∃ position e, action = .seek position e) ∨ ∀ position e, action ≠ .seek position e := by
  cases action with
  | seek position e => exact .inl ⟨position, e, rfl⟩
  | _ => exact .inr nofun

/-- Where the last speed that was told holds, it does so after an action that is candid,
    and after no other. -/
theorem speedTold_perform (action : Action) (h : p.replay.tidings.SpeedTold) :
    (p.perform action).replay.tidings.SpeedTold ↔ p.Candid action := by
  rcases seek_or_not action with ⟨position, e, rfl⟩ | hseek
  · exact p.speedTold_seek position e
  · exact iff_of_true (lasts_perform Tidings.lasts_speedTold hseek h)
      fun position e he => absurd he (hseek position e)

theorem tempoTold_perform (action : Action) (h : p.replay.tidings.TempoTold) :
    (p.perform action).replay.tidings.TempoTold := by
  rcases seek_or_not action with ⟨position, e, rfl⟩ | hseek
  · exact p.tempoTold_seek position e
  · exact lasts_perform Tidings.lasts_tempoTold hseek h

theorem told_new {tune : Tune} {rate : UInt32} (h : Player.new tune rate = .ok p) :
    p.replay.tidings.SpeedTold ∧ p.replay.tidings.TempoTold := by
  unfold Player.new at h
  split at h
  · cases h
  · exact ⟨lasts_start Tidings.lasts_speedTold h, lasts_start Tidings.lasts_tempoTold h⟩

theorem Reachable.tempoTold {allowed : Player → Action → Prop} (h : Reachable allowed p) :
    p.replay.tidings.TempoTold := by
  induction h with
  | new h => exact (told_new h).2
  | perform action _ _ ih => exact tempoTold_perform action ih
  | restore _ _ _ ihq => exact ihq

theorem Reachable.speedTold (h : Reachable Candid p) : p.replay.tidings.SpeedTold := by
  induction h with
  | new h => exact (told_new h).1
  | perform action _ hcandid ih => exact (speedTold_perform action ih).2 hcandid
  | restore _ _ _ ihq => exact ihq

/-- Whatever a host does, the last tempo that it is told is the one that holds.  So
    is the last speed, as long as the host seeks to positions on whose way no other
    speed than that of the entry is commanded last, and no longer: after any other
    seek it is told a speed that does not hold. -/
theorem Reachable.announcements_law (h : Reachable AtWill p) :
    p.replay.tidings.TempoTold ∧ (Reachable Candid p → p.replay.tidings.SpeedTold) ∧
      (∀ action, p.replay.tidings.SpeedTold →
        ((p.perform action).replay.tidings.SpeedTold ↔ p.Candid action)) ∧
      ∀ position e, (p.seek position e).replay.tidings.SpeedTold ↔ p.Candid (.seek position e) :=
  ⟨h.tempoTold, Reachable.speedTold, fun action => speedTold_perform action, p.speedTold_seek⟩

/-- The speeds of a seek: those commanded on the way, the last one told, and the one
    that holds. -/
structure SeekSpeeds where
  commanded : List UInt16
  told : Option UInt16
  held : UInt16
deriving DecidableEq

def seekSpeeds (p : Player) (position : Nat) (e : Timeline.Entry) : SeekSpeeds where
  commanded := p.speedsTo position e
  told := ((p.seek position e).replay.machine.notices.filterMap Notice.speed?).getLast?
  held := (p.seek position e).replay.place.speed

theorem seekSpeeds_briskTune : ((load briskTune (some ⟨#[]⟩)).toOption.bind fun tune =>
    (Player.new tune minRate).toOption.map fun p => [0, 1].map fun k =>
      (Timeline.ofSong p.tune.score 0).entries[k]?.map (p.seekSpeeds k)) =
      some [some ⟨[3], some 1, 3⟩, some ⟨[], some 3, 3⟩] := by
  decide +kernel

theorem exists_briskTune : ∃ (tune : Tune) (p : Player) (e e' : Timeline.Entry),
    load briskTune (some ⟨#[]⟩) = .ok tune ∧ Player.new tune minRate = .ok p ∧
      (Timeline.ofSong tune.score 0).entries[0]? = some e ∧
      (Timeline.ofSong tune.score 0).entries[1]? = some e' ∧
      p.seekSpeeds 0 e = ⟨[3], some 1, 3⟩ ∧ p.seekSpeeds 1 e' = ⟨[], some 3, 3⟩ := by
  obtain ⟨tune, p, hload, hnew, h⟩ := exists_new seekSpeeds_briskTune
  obtain rfl := new_tune hnew
  simp only [List.map_cons, List.map_nil, List.cons.injEq, and_true] at h
  obtain ⟨e, he, h₀⟩ := Option.map_eq_some_iff.1 h.1
  obtain ⟨e', he', h₁⟩ := Option.map_eq_some_iff.1 h.2
  exact ⟨p.tune, p, e, e', hload, hnew, he, he', h₀, h₁⟩

/-- A seek to the second position of this tune, on whose way no speed is commanded. -/
theorem announcements_briskTune : ∃ (tune : Tune) (p : Player) (e : Timeline.Entry),
    load briskTune (some ⟨#[]⟩) = .ok tune ∧ Player.new tune minRate = .ok p ∧
      (Timeline.ofSong tune.score 0).entries[1]? = some e ∧ Reachable AtWill p ∧
      p.Candid (.seek 1 e) ∧ Reachable Candid (p.perform (.seek 1 e)) ∧
      (p.perform (.seek 1 e)).replay.tidings.SpeedTold ∧
      (p.perform (.seek 1 e)).replay.tidings.TempoTold ∧
      ((p.seek 1 e).replay.machine.notices.filterMap Notice.speed?).getLast? = some 3 ∧
      (p.seek 1 e).replay.place.speed = 3 := by
  obtain ⟨tune, p, -, e, hload, hnew, -, he, -, hseek⟩ := exists_briskTune
  have hspeeds : p.speedsTo 1 e = [] := congrArg SeekSpeeds.commanded hseek
  have hlast := congrArg SeekSpeeds.told hseek
  have hcandid : p.Candid (.seek 1 e) := by
    rintro position' e' ⟨⟩ ticks hticks
    rw [hspeeds] at hticks
    cases hticks
  have hr : Reachable AtWill (p.perform (.seek 1 e)) := .perform (.seek 1 e) (.new hnew) trivial
  have hc : Reachable Candid (p.perform (.seek 1 e)) := .perform (.seek 1 e) (.new hnew) hcandid
  obtain ⟨htempo, hspeed, -, -⟩ := Reachable.announcements_law hr
  exact ⟨tune, p, e, hload, hnew, he, .new hnew, hcandid, hc, hspeed hc, htempo, hlast,
    (hspeed hc 3 hlast).symm⟩

/-- A seek to the first position of the tune, with its entry of the timeline: the last
    speed that is told is the one before the command there, and not the one that
    holds. -/
theorem misleads_briskTune : ∃ (tune : Tune) (p : Player) (e : Timeline.Entry),
    load briskTune (some ⟨#[]⟩) = .ok tune ∧ Player.new tune minRate = .ok p ∧
      (Timeline.ofSong tune.score 0).entries[0]? = some e ∧ Reachable AtWill (p.seek 0 e) ∧
      ((p.seek 0 e).replay.machine.notices.filterMap Notice.speed?).getLast? = some 1 ∧
      (p.seek 0 e).replay.place.speed = 3 ∧ ¬(p.seek 0 e).replay.tidings.SpeedTold := by
  obtain ⟨tune, p, e, -, hload, hnew, he, -, hseek, -⟩ := exists_briskTune
  have hlast := congrArg SeekSpeeds.told hseek
  have hspeed := congrArg SeekSpeeds.held hseek
  refine ⟨tune, p, e, hload, hnew, he, .perform (.seek 0 e) (.new hnew) trivial, hlast, hspeed,
    fun h => ?_⟩
  have hone : (1 : UInt16) = 3 := (h 1 hlast).trans hspeed
  exact absurd hone (by decide)

end Player

end PaulaReplay
