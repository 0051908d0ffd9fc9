/-
  What a host may do with a player, in any order.

  * `Player.Action`: what it may do, one at a time; `Player.perform` is the
    player after it, and `Player.restore` is apart, as it needs the snapshot
    of another player;
  * `Player.AtWill` allows everything; `Player.InStep` keeps a host from
    rendering a tick that is shorter than what buffers still expect of the
    last one;
  * `Player.Reachable`: the players that a host comes to;
  * `Player.Orderly`: what holds of all of them, and `Reachable.intact` what
    holds of those that stay in step.
-/
import PaulaReplay.Proofs.Filling

namespace PaulaReplay.Player

/-- What a host may do with a player. -/
inductive Action where
  | start (song : Nat)
  | tick
  | fill (n loops : Nat)
  | seek (position : Nat) (e : Timeline.Entry)
  | playEffect (channel : Nat) (word priority : UInt32)
  | drain

/-- The player after an action; one that is refused or fails leaves it as it
    is. -/
def perform (p : Player) : Action → Player
  | .start song => match p.start song with
    | .ok q => q
    | .error _ => p
  | .tick => p.tick
  | .fill n loops => match p.fill n loops with
    | some (.ok (_, q)) => q
    | _ => p
  | .seek position e => p.seek position e
  | .playEffect channel word priority => (p.playEffect channel word priority).2
  | .drain => p.drain.2

/-- A host may do anything at any time. -/
def AtWill (_ : Player) (_ : Action) : Prop := True

/-- No tick is rendered that is shorter than the one buffers are filled
    from. -/
def InStep (p : Player) (action : Action) : Prop :=
  action = .tick → p.available ≤ p.tick.mix.stereo.size

/-- The players that a host comes to by actions that are `allowed`; a
    snapshot may be that of any other of them. -/
inductive Reachable (allowed : Player → Action → Prop) : Player → Prop where
  | new {tune rate p} : Player.new tune rate = .ok p → Reachable allowed p
  | perform {p} (action : Action) : Reachable allowed p → allowed p action →
      Reachable allowed (p.perform action)
  | restore {p q} : Reachable allowed p → Reachable allowed q →
      Reachable allowed (p.restore q.snapshot)

variable {allowed : Player → Action → Prop} {p q : Player}

/-! ## One action -/

theorem start_eq_ok {song : Nat} (h : p.start song = .ok q) :
    q.rate = p.rate ∧ q.mix = p.mix ∧ q.consumed = 0 ∧ q.available = 0 ∧
      q.replay = (Replay.initial (p.tune.format = .sevenVoices)).reset.start p.tune.score song := by
  unfold start at h
  split at h
  · cases h
  · cases h; exact ⟨rfl, rfl, rfl, rfl, rfl⟩

theorem steady_start {song : Nat} (h : p.start song = .ok q) (hr : minRate ≤ p.rate) :
    q.Steady := by
  obtain ⟨hrate, -, -, -, hreplay⟩ := start_eq_ok h
  have hreset : (Replay.initial (p.tune.format = .sevenVoices)).reset.clock.remainder = 0 := rfl
  have ht : q.replay.InTime 0 := by
    rw [hreplay]; exact Replay.inTime_start hreset _ _
  have h0 : q.replay.clock.remainder = 0 := by rw [ht.clock]
  refine ⟨by rwa [hrate], by rwa [h0], ?_⟩
  rw [TickClock.carries_iff, h0]
  exact Nat.zero_le _

theorem new_eq_ok {tune : Tune} {rate : UInt32} (h : Player.new tune rate = .ok p) :
    p.Steady ∧ p.mix = Mix.empty ∧ p.consumed = 0 ∧ p.available = 0 := by
  unfold Player.new at h
  split at h
  · cases h
  · next hr =>
    obtain ⟨-, hmix, hc, ha, -⟩ := start_eq_ok h
    have hrate : minRate ≤ rate := UInt32.not_lt.1 fun hlt => hr (.inl hlt)
    exact ⟨steady_start h hrate, hmix, hc, ha⟩

theorem Steady.seek (h : p.Steady) (position : Nat) (e : Timeline.Entry) :
    (p.seek position e).Steady := by
  unfold Player.seek
  extract_lets _ _ _ r₁ _ _ _ _ r₂ r₃ r₄
  have h₁ : r₁.InTime p.replay.clock.remainder := by
    by_cases he : e.clocks ≠ 0
    · rw [show r₁ = _ from if_pos he]
      exact ⟨rfl, he⟩
    · rw [show r₁ = _ from if_neg he]
      exact h.inTime
  have h₂ : r₂.InTime p.replay.clock.remainder := h₁.congr rfl rfl
  have h₃ : r₃.InTime p.replay.clock.remainder := h₂.seekStep p.tune.score
  have h₄ : r₄.InTime p.replay.clock.remainder := (h₃.notify _).notify _
  have hleft : r₄.clock.remainder = p.replay.clock.remainder := by rw [h₄.clock]
  refine ⟨h.rate, by rwa [hleft], ?_⟩
  rw [TickClock.carries_iff, hleft]
  exact TickClock.carries_iff.1 h.carries

/-- An effect changes a channel at most. -/
theorem playEffect_cases (p : Player) (channel : Nat) (word priority : UInt32) :
    (p.playEffect channel word priority).2 = p ∨
      ∃ i c, (p.playEffect channel word priority).2 =
        { p with replay.machine := p.replay.machine.setChannel i c } := by
  unfold playEffect
  simp only
  split
  · split
    · exact .inl rfl
    · exact .inr ⟨_, _, rfl⟩
  · exact .inl rfl

/-- What an action makes of a player: but for ticks, buffers, starts and jumps
    it is the machine that changes, and none of its tempo. -/
theorem perform_cases (p : Player) (action : Action) :
    (action = .tick ∧ p.perform action = p.tick) ∨
      (∃ song, p.start song = .ok (p.perform action)) ∨
      (∃ n loops out, p.fill n loops = some (.ok (out, p.perform action))) ∨
      (∃ position e, p.perform action = p.seek position e) ∨
      ∃ m : Machine, m.master = p.replay.machine.master ∧
        p.perform action = { p with replay.machine := m } := by
  have hself : ∃ m : Machine, m.master = p.replay.machine.master ∧
      p = { p with replay.machine := m } := ⟨_, rfl, rfl⟩
  cases action with
  | tick => exact .inl ⟨rfl, rfl⟩
  | start song =>
    rw [perform]
    split
    · next q hq => exact .inr (.inl ⟨song, hq⟩)
    · exact .inr (.inr (.inr (.inr hself)))
  | fill n loops =>
    rw [perform]
    split
    · next out q hq => exact .inr (.inr (.inl ⟨n, loops, out, hq⟩))
    · exact .inr (.inr (.inr (.inr hself)))
  | seek position e => exact .inr (.inr (.inr (.inl ⟨position, e, rfl⟩)))
  | playEffect channel word priority =>
    refine .inr (.inr (.inr (.inr ?_)))
    rw [perform]
    rcases p.playEffect_cases channel word priority with he | ⟨i, c, he⟩
    · rw [he]; exact hself
    · exact ⟨p.replay.machine.setChannel i c, rfl, he⟩
  | drain =>
    exact .inr (.inr (.inr (.inr ⟨{ p.replay.machine with notices := [] }, rfl, rfl⟩)))

/-! ## Invariants -/

/-- What holds of a player whatever is done with it. -/
structure Orderly (p : Player) : Prop where
  steady : p.Steady
  consumed : p.consumed ≤ p.available
  wellSized : p.mix.WellSized

theorem orderly_new {tune : Tune} {rate : UInt32} (h : Player.new tune rate = .ok p) :
    p.Orderly := by
  obtain ⟨hs, hmix, hc, ha⟩ := new_eq_ok h
  exact ⟨hs, by rw [hc, ha], by rw [hmix]; exact Mix.wellSized_empty⟩

theorem Orderly.perform (h : p.Orderly) (action : Action) : (p.perform action).Orderly := by
  rcases p.perform_cases action with ⟨-, he⟩ | ⟨song, hs⟩ | ⟨n, loops, out, hf⟩ |
    ⟨position, e, he⟩ | ⟨m, hm, he⟩
  · rw [he]
    exact ⟨h.steady.tick, h.consumed, p.wellSized_tick⟩
  · obtain ⟨-, hmix, hc, ha, -⟩ := start_eq_ok hs
    exact ⟨steady_start hs h.steady.rate, by rw [hc, ha], by rw [hmix]; exact h.wellSized⟩
  · have hf := fill_eq_ok_iff.1 hf
    exact ⟨hf.steady h.steady, hf.consumed_le h.consumed, hf.wellSized h.wellSized⟩
  · rw [he]
    exact ⟨h.steady.seek position e, le_rfl, h.wellSized⟩
  · rw [he]
    have hin : ({ p.replay with machine := m } : Replay).InTime p.replay.clock.remainder :=
      h.steady.inTime.congr rfl (congrArg Master.clocks hm)
    exact ⟨⟨h.steady.rate, hin, h.steady.carries⟩, h.consumed, h.wellSized⟩

theorem Orderly.restore (hp : p.Orderly) (hq : q.Orderly) : (p.restore q.snapshot).Orderly :=
  ⟨⟨hp.steady.rate, hq.steady.inTime, hq.steady.carries⟩, le_rfl, hp.wellSized⟩

theorem Reachable.fill {n loops : Nat} {out : Array Int16} (h : Reachable allowed p)
    (ha : allowed p (.fill n loops)) (hf : p.fill n loops = some (.ok (out, q))) :
    Reachable allowed q := by
  have hq : p.perform (.fill n loops) = q := by rw [Player.perform, hf]
  exact hq ▸ h.perform _ ha

theorem Reachable.orderly (h : Reachable allowed p) : p.Orderly := by
  induction h with
  | new h => exact orderly_new h
  | perform action _ _ ih => exact ih.perform action
  | restore _ _ ihp ihq => exact ihp.restore ihq

/-! ## The last tick -/

theorem intact_of_empty (hc : p.consumed = 0) (ha : p.available = 0) : p.Intact :=
  ⟨by omega, by omega⟩

theorem intact_restore (p q : Player) : (p.restore q.snapshot).Intact := intact_of_empty rfl rfl

theorem intact_new {tune : Tune} {rate : UInt32} (h : Player.new tune rate = .ok p) :
    p.Intact := by
  obtain ⟨-, -, hc, ha⟩ := new_eq_ok h
  exact intact_of_empty hc ha

/-- Only a tick can take away what is left of the one before it. -/
theorem Intact.perform_iff (h : p.Intact) (action : Action) :
    (p.perform action).Intact ↔ InStep p action := by
  by_cases ht : action = .tick
  · subst ht
    exact ⟨fun hi _ => hi.available, fun hs => ⟨h.consumed, hs rfl⟩⟩
  · refine iff_of_true ?_ fun he => absurd he ht
    rcases p.perform_cases action with ⟨he, -⟩ | ⟨song, hs⟩ | ⟨n, loops, out, hf⟩ |
      ⟨position, e, he⟩ | ⟨m, -, he⟩
    · exact absurd he ht
    · obtain ⟨-, -, hc, ha, -⟩ := start_eq_ok hs
      exact intact_of_empty hc ha
    · exact (fill_eq_ok_iff.1 hf).intact h
    · rw [he]
      exact intact_of_empty rfl rfl
    · rw [he]
      exact ⟨h.consumed, h.available⟩

theorem Reachable.intact (h : Reachable InStep p) : p.Intact := by
  induction h with
  | new h => exact intact_new h
  | perform action _ ha ih => exact (ih.perform_iff action).2 ha
  | restore => exact intact_restore _ _

end PaulaReplay.Player
