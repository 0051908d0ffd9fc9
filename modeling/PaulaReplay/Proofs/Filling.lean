/-
  Filling: which buffers can be filled, and with what.

  * `Fills.steady`, `Fills.intact`, `Fills.size_eq`: what the filling of a
    buffer leaves;
  * `Steady.exists_fills_iff`: the filling of a buffer ends well if, and only
    if, the last tick has what it asks for;
  * `Fills.append`: two buffers in a row are one buffer; `fillEach` fills any
    number of them, and `Steady.exists_fillEach` says with what;
  * `Player.sound` is the sound to come, and `Fills.eq_sound` finds it in a
    buffer.
-/
import PaulaReplay.Proofs.Buffer

namespace PaulaReplay.Player

variable {loops n m : Nat} {p q r : Player} {out a b : Array Int16}

/-! ## What the filling leaves -/

/-- What refilling and taking keep, the filling of a buffer keeps. -/
theorem Fills.preserves {P : Player → Prop} (hrefill : ∀ p, P p → P (p.refill loops).1)
    (hskip : ∀ p n, P p → P (p.skip n)) (h : Fills loops n p out q) : P p → P q := by
  induction h with
  | full => exact id
  | ended _ _ hr => intro hp; have := hrefill _ hp; rwa [hr] at this
  | refill _ _ hr _ ih => intro hp; have := hrefill _ hp; rw [hr] at this; exact ih this
  | take _ _ ht _ ih =>
    obtain ⟨-, -, -, rfl⟩ := take_eq_ok_iff.1 ht
    intro hp; exact ih (hskip _ _ hp)

theorem Steady.congr (h : p.Steady) (hrate : q.rate = p.rate) (hreplay : q.replay = p.replay) :
    q.Steady :=
  ⟨by rw [hrate]; exact h.rate, by rw [hreplay]; exact h.inTime, by rw [hreplay]; exact h.carries⟩

theorem Steady.refill (h : p.Steady) (loops : Nat) : (p.refill loops).1.Steady := by
  rcases refill_cases p loops with ⟨-, he⟩ | ⟨-, he⟩ <;> rw [he] <;> exact h.tick.congr rfl rfl

theorem Fills.steady (h : Fills loops n p out q) : p.Steady → q.Steady :=
  h.preserves (fun _ hp => hp.refill loops) fun _ _ hp => hp.congr rfl rfl

theorem intact_refill (p : Player) (loops : Nat) : (p.refill loops).1.Intact := by
  rcases refill_cases p loops with ⟨-, he⟩ | ⟨-, he⟩ <;> rw [he]
  · exact ⟨le_rfl, Nat.zero_le _⟩
  · exact ⟨Nat.zero_le _, le_rfl⟩

theorem Intact.skip (h : p.Intact) (n : Nat) : (p.skip n).Intact :=
  ⟨by have := h.consumed; simp only [Player.skip]; omega, h.available⟩

theorem Fills.intact (h : Fills loops n p out q) : p.Intact → q.Intact :=
  h.preserves (fun p _ => intact_refill p loops) fun _ n hp => hp.skip n

theorem Fills.consumed_le (h : Fills loops n p out q) :
    p.consumed ≤ p.available → q.consumed ≤ q.available :=
  h.preserves (P := fun p => p.consumed ≤ p.available)
    (fun p _ => (intact_refill p loops).consumed)
    fun _ _ hp => by simp only [Player.skip]; omega

theorem wellSized_refill (p : Player) (loops : Nat) : (p.refill loops).1.mix.WellSized := by
  rcases refill_cases p loops with ⟨-, he⟩ | ⟨-, he⟩ <;> rw [he] <;> exact p.wellSized_tick

theorem Fills.wellSized (h : Fills loops n p out q) : p.mix.WellSized → q.mix.WellSized :=
  h.preserves (P := fun p => p.mix.WellSized) (fun p _ => p.wellSized_refill loops)
    fun _ _ hp => hp

/-- A song that was over stays over. -/
theorem Fills.isOver (h : Fills loops n p out q) : p.isOver = true → q.isOver = true := by
  refine h.preserves (P := fun p => p.isOver = true) (fun p hp => ?_) fun _ _ hp => hp
  rcases refill_cases p loops with ⟨-, he⟩ | ⟨-, he⟩ <;> rw [he]
  exact hp

theorem Fills.size_eq (h : Fills loops n p out q) : out.size = n := by
  induction h with
  | full => rfl
  | ended => exact Array.size_replicate
  | refill _ _ _ _ ih => exact ih
  | take _ _ ht _ ih =>
    have hs := size_of_take ht
    rw [Array.size_append, ih]
    omega

/-! ## The filling ends -/

/-- Where every buffer can be filled from the middle of a tick, it can also be
    filled from the end of one: each tick without frames leaves less to be
    carried over. -/
theorem Steady.exists_fills_of_boundary (hn : n ≠ 0)
    (hmid : ∀ {q : Player}, q.Steady → q.Intact → q.consumed ≠ q.available →
      ∃ out r, Fills loops n q out r) :
    ∀ (k : Nat) {p : Player}, p.Steady → p.consumed = p.available →
      357955 ≤ p.replay.clock.remainder.toNat + k → ∃ out r, Fills loops n p out r := by
  intro k
  induction k using Nat.strong_induction_on with
  | _ k ih =>
    intro p h hc hk
    rcases refill_cases p loops with ⟨-, hr⟩ | ⟨-, hr⟩
    · exact ⟨_, _, .ended hn hc hr⟩
    · have hq : ({ p.tick with consumed := 0, available := p.tick.mix.stereo.size } :
          Player).Steady := h.tick.congr rfl rfl
      by_cases hz : p.tick.mix.stereo.size = 0
      · have hstereo := p.wellSized_tick.stereo
        have hrem := h.remainder_of_idle (by omega)
        have hcar := TickClock.carries_iff.1 h.tick.carries
        obtain ⟨out, r, hf⟩ := ih (k - 2000) (by omega) hq hz.symm
          (show 357955 ≤ p.tick.replay.clock.remainder.toNat + (k - 2000) by omega)
        exact ⟨out, r, .refill hn hc hr hf⟩
      · obtain ⟨out, r, hf⟩ := hmid hq ⟨Nat.zero_le _, le_rfl⟩ (Ne.symm hz)
        exact ⟨out, r, .refill hn hc hr hf⟩

theorem Intact.take_eq (h : p.Intact) (n : Nat) : ∃ samples, p.take n = .ok (samples, p.skip n) :=
  ⟨_, take_eq_ok_iff.2 ⟨h.consumed, by have := h.consumed; have := h.available; omega, rfl, rfl⟩⟩

/-- A buffer can be filled where what is left of the last tick is there. -/
theorem Steady.exists_fills (loops : Nat) : ∀ (n : Nat) {p : Player}, p.Steady → p.Intact →
    ∃ out q, Fills loops n p out q := by
  intro n
  induction n using Nat.strong_induction_on with
  | _ n ih =>
    intro p h hi
    by_cases hn : n = 0
    · subst hn; exact ⟨_, _, .full⟩
    have hmid : ∀ {q : Player}, q.Steady → q.Intact → q.consumed ≠ q.available →
        ∃ out r, Fills loops n q out r := by
      intro q hq hqi hc
      obtain ⟨samples, ht⟩ := hqi.take_eq n
      have hs := size_of_take ht
      have hle := hqi.consumed
      obtain ⟨out, r, hf⟩ := ih (n - samples.size) (by omega)
        (hq.congr (q := q.skip n) rfl rfl) (hqi.skip n)
      exact ⟨_, _, .take hn hc ht hf⟩
    by_cases hc : p.consumed = p.available
    · exact h.exists_fills_of_boundary hn hmid 357955 hc (Nat.le_add_left _ _)
    · exact hmid h hi hc

/-- The filling of a buffer ends well if, and only if, the last tick has what
    it asks for. -/
theorem Steady.exists_fills_iff (h : p.Steady) (hle : p.consumed ≤ p.available) (n loops : Nat) :
    (∃ out q, Fills loops n p out q) ↔ ¬ p.Overruns n := by
  constructor
  · rintro ⟨out, q, hf⟩ ho
    have hfill := fill_eq_ok_iff.2 hf
    rw [fill_of_overruns ho] at hfill
    cases hfill
  · intro ho
    by_cases hn : n = 0
    · subst hn; exact ⟨_, _, .full⟩
    by_cases hc : p.consumed = p.available
    · exact h.exists_fills_of_boundary hn (fun hq hi _ => hq.exists_fills loops n hi) 357955 hc
        (Nat.le_add_left _ _)
    have hstop : p.consumed + min n (p.available - p.consumed) ≤ p.mix.stereo.size :=
      Nat.not_lt.1 fun hlt => ho ⟨by omega, by omega, hlt⟩
    obtain ⟨samples, ht⟩ : ∃ samples, p.take n = .ok (samples, p.skip n) :=
      ⟨_, take_eq_ok_iff.2 ⟨hle, hstop, rfl, rfl⟩⟩
    by_cases hrest : n ≤ p.available - p.consumed
    · -- the buffer is full before the tick is used up
      have hfull : n - samples.size = 0 := by
        rw [size_of_take ht, Nat.min_eq_left hrest, Nat.sub_self]
      exact ⟨_, _, .take hn hc ht (by rw [hfull]; exact .full)⟩
    · -- the tick is used up, and so it is all there
      exact h.exists_fills loops n ⟨hle, by omega⟩

/-- A buffer that is no longer than the next tick is filled from it alone. -/
theorem fills_of_tick (hc : p.consumed = p.available) (h0 : n ≠ 0)
    (hn : n ≤ p.tick.mix.stereo.size) :
    Fills 0 n p (p.tick.mix.stereo.extract 0 n)
      { p.tick with consumed := n, available := p.tick.mix.stereo.size } := by
  rcases refill_cases p 0 with ⟨hl, -⟩ | ⟨-, hr⟩
  · exact absurd hl.1 (Nat.lt_irrefl 0)
  have hstop : 0 + min n (p.tick.mix.stereo.size - 0) = n := by omega
  have ht : ({ p.tick with consumed := 0, available := p.tick.mix.stereo.size } : Player).take n =
      .ok (p.tick.mix.stereo.extract 0 n,
        { p.tick with consumed := n, available := p.tick.mix.stereo.size }) :=
    take_eq_ok_iff.2 ⟨Nat.zero_le _, by rwa [hstop], by rw [hstop], by rw [skip, hstop]⟩
  have hfull : n - (p.tick.mix.stereo.extract 0 n).size = 0 := by
    rw [Array.size_extract_of_le hn, Nat.sub_zero, Nat.sub_self]
  have hne : 0 ≠ p.tick.mix.stereo.size := by omega
  have hf := Fills.refill h0 hc hr (.take h0 hne ht (by rw [hfull]; exact .full))
  rwa [Array.append_empty] at hf

/-! ## Buffers in a row -/

/-- Once the song has ended often enough, there is only silence. -/
theorem Fills.silent (h : Fills loops n p out q) (hl : 0 < loops ∧ loops ≤ p.loopCount)
    (hc : p.consumed = p.available) : out = Array.replicate n 0 := by
  cases h with
  | full => rfl
  | ended => rfl
  | refill _ _ hr =>
    have hle := p.loopCount_le_tick
    exact absurd ⟨hl.1, hl.2.trans hle⟩ (refill_eq_true hr).1
  | take _ hne => exact absurd hc hne

theorem Fills.of_zero (h : Fills loops 0 p out q) : out = #[] ∧ q = p := by
  cases h with
  | full => exact ⟨rfl, rfl⟩
  | ended hn => exact absurd rfl hn
  | refill hn => exact absurd rfl hn
  | take hn => exact absurd rfl hn

/-- A buffer that goes on where another one has ended within a tick. -/
theorem Fills.after_take (hb : Fills loops m q b r) {samples : Array Int16} (hn : n ≠ 0)
    (ht : p.take n = .ok (samples, q)) (hlt : n < p.available - p.consumed) :
    Fills loops (n + m) p (samples ++ b) r := by
  have hsize := size_of_take ht
  have hc : p.consumed ≠ p.available := by omega
  have hq : q.consumed ≠ q.available := by
    obtain ⟨-, -, -, rfl⟩ := take_eq_ok_iff.1 ht
    simp only [skip]
    omega
  cases hb with
  | full =>
    have hz : n + 0 - samples.size = 0 := by omega
    exact .take hn hc ht (by rw [hz]; exact .full)
  | ended _ hcq => exact absurd hcq hq
  | refill _ hcq => exact absurd hcq hq
  | @take _ _ samples' _ _ _ hm _ ht' hrest =>
    have hleft : n + m - (samples ++ samples').size = m - samples'.size := by
      rw [Array.size_append]; omega
    rw [← Array.append_assoc]
    exact .take (by omega) hc (take_add ht hlt.le ht') (by rw [hleft]; exact hrest)

/-- Two buffers in a row are one buffer, and the song is over after both or
    after neither; where no end is asked for, the player is the same. -/
theorem Fills.append (ha : Fills loops n p a q) :
    Fills loops m q b r →
      ∃ s, Fills loops (n + m) p (a ++ b) s ∧ s.isOver = r.isOver ∧ (loops = 0 → s = r) := by
  induction ha with
  | full =>
    intro hb
    rw [Nat.zero_add, Array.empty_append]
    exact ⟨r, hb, rfl, fun _ => rfl⟩
  | @ended n p q hn hc hr =>
    intro hb
    obtain ⟨hl, rfl⟩ := refill_eq_false hr
    rw [hb.silent hl rfl, Array.replicate_append_replicate]
    exact ⟨_, .ended (by omega) hc hr, (hb.isOver rfl).symm, fun h0 => absurd hl.1 (by omega)⟩
  | refill hn hc hr _ ih =>
    intro hb
    obtain ⟨s, hs, ho, he⟩ := ih hb
    exact ⟨s, .refill (by omega) hc hr hs, ho, he⟩
  | @take n p samples q out r' hn hc ht hrest ih =>
    intro hb
    have hsize := size_of_take ht
    by_cases hle : p.available - p.consumed ≤ n
    · -- the tick is used up by the first buffer
      obtain ⟨s, hs, ho, he⟩ := ih hb
      rw [take_eq_take hle (hle.trans (Nat.le_add_right n m))] at ht
      rw [← Nat.sub_add_comm (by omega)] at hs
      rw [Array.append_assoc]
      exact ⟨s, .take (by omega) hc ht hs, ho, he⟩
    · -- the first buffer ends within the tick
      have hz : n - samples.size = 0 := by omega
      rw [hz] at hrest
      obtain ⟨rfl, rfl⟩ := hrest.of_zero
      rw [Array.append_empty]
      exact ⟨r, hb.after_take hn ht (Nat.lt_of_not_le hle), rfl, fun _ => rfl⟩

/-- Fill buffers of these lengths in a row; what is in them, put together. -/
def fillEach (loops : Nat) : List Nat → Player → Option Filled
  | [], p => some (.ok (#[], p))
  | n :: ns, p =>
    match p.fill n loops with
    | some (.ok (out, q)) =>
      match fillEach loops ns q with
      | some (.ok (rest, r)) => some (.ok (out ++ rest, r))
      | result => result
    | result => result

theorem fillEach_cons {ns : List Nat} (hp : p.fill n loops = some (.ok (a, q)))
    (hq : fillEach loops ns q = some (.ok (b, r))) :
    fillEach loops (n :: ns) p = some (.ok (a ++ b, r)) := by
  simp only [fillEach, hp, hq]

/-- Nothing is left of the last tick, or what is left of it is there. -/
def Whole (p : Player) : Prop := p.consumed = p.available ∨ p.Intact

theorem Whole.consumed_le (h : p.Whole) : p.consumed ≤ p.available := by
  rcases h with hc | hi
  · exact hc.le
  · exact hi.consumed

theorem Whole.not_overruns (h : p.Whole) (n : Nat) : ¬ p.Overruns n := by
  rcases h with hc | hi
  · rintro ⟨-, hlt, -⟩
    omega
  · exact hi.not_overruns n

theorem Whole.skip (h : p.Whole) (n : Nat) : (p.skip n).Whole := by
  rcases h with hc | hi
  · refine .inl ?_
    simp only [Player.skip]
    omega
  · exact .inr (hi.skip n)

theorem Fills.whole (h : Fills loops n p out q) : p.Whole → q.Whole :=
  h.preserves (fun p _ => .inr (intact_refill p loops)) fun _ n hp => hp.skip n

/-- Buffers in a row hold what one buffer holds, and the song is over after
    them as after the one. -/
theorem Steady.exists_fillEach_isOver (loops : Nat) : ∀ (ns : List Nat) {p : Player}, p.Steady →
    p.Whole → ∃ out q s, fillEach loops ns p = some (.ok (out, q)) ∧
      Fills loops ns.sum p out s ∧ s.isOver = q.isOver ∧ (loops = 0 → s = q)
  | [], p, _, _ => ⟨#[], p, p, rfl, .full, rfl, fun _ => rfl⟩
  | n :: ns, p, h, hw => by
    obtain ⟨a, q, ha⟩ := (h.exists_fills_iff hw.consumed_le n loops).2 (hw.not_overruns n)
    obtain ⟨b, r, s, heach, hb, ho, hs⟩ :=
      exists_fillEach_isOver loops ns (ha.steady h) (ha.whole hw)
    obtain ⟨t, hab, ho', ht⟩ := ha.append hb
    rw [List.sum_cons]
    exact ⟨a ++ b, r, t, fillEach_cons (fill_eq_ok_iff.2 ha) heach, hab, ho'.trans ho,
      fun h0 => (ht h0).trans (hs h0)⟩

/-- Buffers in a row hold what one buffer holds. -/
theorem Steady.exists_fillEach (loops : Nat) (ns : List Nat) {p : Player} (h : p.Steady)
    (hi : p.Intact) : ∃ out q s, fillEach loops ns p = some (.ok (out, q)) ∧
      Fills loops ns.sum p out s ∧ (loops = 0 → s = q) := by
  obtain ⟨out, q, s, heach, hf, -, hs⟩ := h.exists_fillEach_isOver loops ns (.inr hi)
  exact ⟨out, q, s, heach, hf, hs⟩

/-! ## The sound to come -/

/-- The sound of the next `k` ticks. -/
def played : Nat → Player → Array Int16
  | 0, _ => #[]
  | k + 1, p => p.tick.mix.stereo ++ played k p.tick

/-- What is left of the last tick, and the sound of the next `k` ticks. -/
def sound (k : Nat) (p : Player) : Array Int16 := p.pending ++ played k p

theorem played_add (i j : Nat) : ∀ p : Player,
    played (i + j) p = played i p ++ played j (tick^[i] p) := by
  induction i with
  | zero => intro p; rw [Nat.zero_add]; exact Array.empty_append.symm
  | succ i ih =>
    intro p
    rw [Nat.add_right_comm, played, ih, played, Function.iterate_succ_apply, Array.append_assoc]

/-- A tick does not read what buffers have taken, and so no later one does. -/
theorem played_congr (k : Nat) : ∀ (p : Player) (consumed available : Nat),
    played k { p with consumed, available } = played k p := by
  induction k with
  | zero => intro _ _ _; rfl
  | succ k ih =>
    intro p consumed available
    rw [played, played, tick_consumed, ih]

/-- More ticks do not change what is heard before them. -/
theorem extract_sound {i j : Nat} (hij : i ≤ j) (hn : n ≤ (p.sound i).size) :
    (p.sound j).extract 0 n = (p.sound i).extract 0 n := by
  obtain ⟨k, rfl⟩ := Nat.exists_eq_add_of_le hij
  rw [sound, played_add, ← Array.append_assoc, ← sound, Array.extract_append,
    Nat.sub_eq_zero_of_le hn, Nat.zero_sub, Array.extract_zero, Array.append_empty]

theorem sound_refill (k : Nat) (hc : p.consumed = p.available)
    (hr : p.refill loops = (q, true)) : p.sound (k + 1) = q.sound k := by
  obtain ⟨-, rfl⟩ := refill_eq_true hr
  have hnone : p.pending = #[] := by
    rw [pending, hc]
    exact Array.extract_eq_empty_of_le (Nat.min_le_left _ _)
  rw [sound, hnone, Array.empty_append, played, sound, pending, Array.extract_size]
  exact congrArg (p.tick.mix.stereo ++ ·) (played_congr k p.tick _ _).symm

theorem sound_take (k : Nat) {samples : Array Int16} (ht : p.take n = .ok (samples, q)) :
    p.sound k = samples ++ q.sound k := by
  obtain ⟨hle, -, rfl, rfl⟩ := take_eq_ok_iff.1 ht
  have hpending : p.pending = p.mix.stereo.extract p.consumed
      (p.consumed + min n (p.available - p.consumed)) ++ (p.skip n).pending := by
    have hstop : p.consumed + min n (p.available - p.consumed) ≤ p.available := by omega
    rw [pending, pending, skip, Array.extract_append_extract,
      Nat.min_eq_left (Nat.le_add_right _ _), Nat.max_eq_right hstop]
  have hplayed : played k (p.skip n) = played k p := played_congr k p _ _
  rw [sound, sound, hpending, hplayed, Array.append_assoc]

/-- A buffer holds the sound to come, where no end is asked for. -/
theorem Fills.exists_sound (h : Fills loops n p out q) :
    loops = 0 → ∃ k, n ≤ (p.sound k).size ∧ out = (p.sound k).extract 0 n := by
  induction h with
  | full => intro _; exact ⟨0, Nat.zero_le _, Array.extract_zero.symm⟩
  | ended _ _ hr => intro h0; exact absurd (refill_eq_false hr).1.1 (by omega)
  | refill _ hc hr _ ih =>
    intro h0
    obtain ⟨k, hk, ho⟩ := ih h0
    exact ⟨k + 1, by rwa [sound_refill k hc hr], by rwa [sound_refill k hc hr]⟩
  | @take n _ samples _ out _ _ _ ht _ ih =>
    intro h0
    obtain ⟨k, hk, ho⟩ := ih h0
    have hs := size_of_take ht
    refine ⟨k, ?_, ?_⟩
    · rw [sound_take k ht, Array.size_append]
      omega
    · rw [sound_take k ht, Array.extract_append, Array.extract_eq_self_of_le (by omega),
        Nat.zero_sub, ← ho]

/-- A buffer holds the sound to come, however many ticks of it are looked
    at. -/
theorem Fills.eq_sound (h : Fills 0 n p out q) :
    (∃ k, n ≤ (p.sound k).size) ∧ ∀ k, n ≤ (p.sound k).size → out = (p.sound k).extract 0 n := by
  obtain ⟨i, hi, ho⟩ := h.exists_sound rfl
  refine ⟨⟨i, hi⟩, ?_⟩
  intro k hk
  rcases Nat.le_total i k with hik | hki
  · rw [ho, extract_sound hik hi]
  · rw [ho, extract_sound hki hk]

end PaulaReplay.Player
