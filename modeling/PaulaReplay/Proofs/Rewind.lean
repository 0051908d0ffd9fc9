/-
  Rewinding: buffers before and after a state is come back to.

  A state that a host keeps holds the whole replay, but not how often the song
  has ended in the ears of the host, nor that it is over.  With these the
  filling of buffers decides where the song ends.

  * `Player.EndsWithin`: the song ends before a buffer is full;
  * `Fills.isOver_iff`, `Fills.sample_of_endsWithin` and
    `Fills.exists_sample_eq`: what is in a buffer, sample by sample;
  * `Player.Later`: what a host makes of a player in the meantime;
  * `Player.Echoes`: buffers of some lengths hold the same for two players,
    and `Steady.echoes_iff` where they do;
  * `Reachable.echoes_restored`: a player that comes back to a state plays the
    same ticks, but buffers hold the same just where the song is not over yet,
    and ends within the same buffers.
-/
import PaulaReplay.Proofs.Alike

namespace PaulaReplay.Player

variable {loops n m : Nat} {p q : Player} {out : Array Int16}

/-! ## Where the song ends -/

/-- Before a buffer of `n` samples is full, a tick is due after which the song
    has ended `loops` times. -/
def EndsWithin (loops n : Nat) (p : Player) : Prop :=
  0 < loops ∧ ∃ i, (p.sound i).size < n ∧ loops ≤ (tick^[i + 1] p).loopCount

/-- Ticks do not read what buffers have taken. -/
theorem iterate_consumed (p : Player) (consumed available : Nat) : ∀ k : Nat,
    tick^[k] { p with consumed, available } = { tick^[k] p with consumed, available }
  | 0 => rfl
  | k + 1 => by
    rw [Function.iterate_succ_apply', Function.iterate_succ_apply',
      iterate_consumed p consumed available k, tick_consumed]

theorem loopCount_iterate_consumed (p : Player) (consumed available k : Nat) :
    (tick^[k] { p with consumed, available }).loopCount = (tick^[k] p).loopCount := by
  rw [iterate_consumed]

theorem pending_of_eq (hc : p.consumed = p.available) : p.pending = #[] := by
  rw [pending, hc]
  exact Array.extract_eq_empty_of_le (Nat.min_le_left _ _)

theorem sound_of_eq (hc : p.consumed = p.available) (k : Nat) : p.sound k = played k p := by
  rw [sound, pending_of_eq hc, Array.empty_append]

/-- A song that has ended often enough ends within any buffer. -/
theorem endsWithin_of_tick (hc : p.consumed = p.available) (hn : n ≠ 0)
    (hl : 0 < loops ∧ loops ≤ p.tick.loopCount) : EndsWithin loops n p := by
  refine ⟨hl.1, 0, ?_, hl.2⟩
  rw [sound_of_eq hc]
  exact Nat.pos_of_ne_zero hn

/-- A tick that is not the end leaves the end where it is. -/
theorem endsWithin_refill (hc : p.consumed = p.available) (hr : p.refill loops = (q, true)) :
    EndsWithin loops n p ↔ EndsWithin loops n q := by
  have hsound := fun i => congrArg Array.size (sound_refill i hc hr)
  obtain ⟨hl, rfl⟩ := refill_eq_true hr
  constructor
  · rintro ⟨h0, i, hs, hi⟩
    cases i with
    | zero => exact absurd ⟨h0, hi⟩ hl
    | succ i =>
      refine ⟨h0, i, by rwa [← hsound], ?_⟩
      rwa [loopCount_iterate_consumed, ← Function.iterate_succ_apply]
  · rintro ⟨h0, i, hs, hi⟩
    refine ⟨h0, i + 1, by rwa [hsound], ?_⟩
    rwa [loopCount_iterate_consumed, ← Function.iterate_succ_apply] at hi

/-- Samples that are taken bring the end nearer. -/
theorem endsWithin_take {samples : Array Int16} (ht : p.take n = .ok (samples, q)) :
    EndsWithin loops m p ↔ EndsWithin loops (m - samples.size) q := by
  have hsound := fun i => congrArg Array.size (sound_take i ht)
  have hcount : ∀ k, (tick^[k] q).loopCount = (tick^[k] p).loopCount := by
    obtain ⟨-, -, -, rfl⟩ := take_eq_ok_iff.1 ht
    exact loopCount_iterate_consumed p _ _
  simp only [Array.size_append] at hsound
  constructor
  · rintro ⟨h0, i, hs, hi⟩
    exact ⟨h0, i, by have := hsound i; omega, by rwa [hcount]⟩
  · rintro ⟨h0, i, hs, hi⟩
    exact ⟨h0, i, by have := hsound i; omega, by rwa [hcount] at hi⟩

theorem size_sound_mono (p : Player) {i j : Nat} (h : i ≤ j) :
    (p.sound i).size ≤ (p.sound j).size := by
  obtain ⟨k, rfl⟩ := Nat.exists_eq_add_of_le h
  simp only [sound, played_add, Array.size_append]
  omega

/-! ## What is in a buffer -/

/-- After a buffer the song is over if it was before, or has ended within the
    buffer. -/
theorem Fills.isOver_iff (h : Fills loops n p out q) :
    q.isOver = true ↔ p.isOver = true ∨ EndsWithin loops n p := by
  induction h with
  | full => simp [EndsWithin]
  | ended hn hc hr =>
    obtain ⟨hl, rfl⟩ := refill_eq_false hr
    exact iff_of_true rfl (.inr (endsWithin_of_tick hc hn hl))
  | refill hn hc hr _ ih =>
    rw [ih, endsWithin_refill hc hr]
    obtain ⟨-, rfl⟩ := refill_eq_true hr
    rfl
  | take hn hc ht _ ih =>
    rw [ih, endsWithin_take ht]
    obtain ⟨-, -, -, rfl⟩ := take_eq_ok_iff.1 ht
    rfl

/-- From where the song ends there is silence. -/
theorem Fills.sample_of_endsWithin (h : Fills loops n p out q) {j : Nat} (hj : j < n)
    (he : EndsWithin loops (j + 1) p) : out[j]? = some 0 := by
  induction h generalizing j with
  | full => omega
  | ended => simp [hj]
  | refill hn hc hr _ ih => exact ih hj ((endsWithin_refill hc hr).1 he)
  | @take n p samples q out r hn hc ht hrest ih =>
    have he := (endsWithin_take ht).1 he
    have hs := size_of_take ht
    obtain ⟨-, i, hlt, -⟩ := id he
    rw [Array.getElem?_append_right (by omega)]
    exact ih (by omega) (by rwa [Nat.sub_add_comm (by omega)] at he)

/-- Up to there it is the sound to come. -/
theorem Fills.exists_sample_eq (h : Fills loops n p out q) {j : Nat} (hj : j < n)
    (he : ¬ EndsWithin loops (j + 1) p) : ∃ k, ∀ i, k ≤ i → out[j]? = (p.sound i)[j]? := by
  induction h generalizing j with
  | full => omega
  | ended hn hc hr =>
    obtain ⟨hl, -⟩ := refill_eq_false hr
    exact absurd (endsWithin_of_tick hc (Nat.succ_ne_zero j) hl) he
  | refill hn hc hr _ ih =>
    obtain ⟨k, hk⟩ := ih hj (mt (endsWithin_refill hc hr).2 he)
    refine ⟨k + 1, fun i hi => ?_⟩
    obtain ⟨i, rfl⟩ := Nat.exists_eq_add_of_le' hi
    rw [← Nat.add_assoc, sound_refill _ hc hr]
    exact hk _ (by omega)
  | @take n p samples q out r hn hc ht hrest ih =>
    rcases Nat.lt_or_ge j samples.size with hlt | hge
    · refine ⟨0, fun i _ => ?_⟩
      rw [sound_take i ht, Array.getElem?_append_left hlt, Array.getElem?_append_left hlt]
    · have he' : ¬ EndsWithin loops (j - samples.size + 1) q := by
        rw [← Nat.sub_add_comm hge]
        exact mt (endsWithin_take ht).2 he
      obtain ⟨k, hk⟩ := ih (by omega) he'
      refine ⟨k, fun i hi => ?_⟩
      rw [sound_take i ht, Array.getElem?_append_right hge, Array.getElem?_append_right hge]
      exact hk i hi

/-- Buffers of two players with the same sound to come are equal where the song
    ends for both at the same place. -/
theorem Fills.eq_of_endsWithin_iff {p' q' : Player} {out' : Array Int16}
    (h : Fills loops n p out q) (h' : Fills loops n p' out' q')
    (hs : ∀ k, p.sound k = p'.sound k)
    (he : ∀ m ≤ n, EndsWithin loops m p ↔ EndsWithin loops m p') : out = out' := by
  have hsize := h.size_eq.trans h'.size_eq.symm
  refine Array.ext_getElem? fun j => ?_
  rcases Nat.lt_or_ge j n with hj | hj
  · by_cases hend : EndsWithin loops (j + 1) p
    · rw [h.sample_of_endsWithin hj hend, h'.sample_of_endsWithin hj ((he _ hj).1 hend)]
    · obtain ⟨k, hk⟩ := h.exists_sample_eq hj hend
      obtain ⟨k', hk'⟩ := h'.exists_sample_eq hj (mt (he _ hj).2 hend)
      rw [hk _ (Nat.le_max_left k k'), hk' _ (Nat.le_max_right k k'), hs]
  · rw [Array.getElem?_eq_none (by rw [h.size_eq]; exact hj),
      Array.getElem?_eq_none (by rw [h'.size_eq]; exact hj)]

/-- Where the song ends within a buffer, it has ended often enough after it. -/
theorem Fills.loops_le (h : Fills loops n p out q) :
    EndsWithin loops n p → loops ≤ q.loopCount := by
  induction h with
  | full => rintro ⟨-, i, hs, -⟩; exact absurd hs (Nat.not_lt_zero _)
  | ended _ _ hr =>
    obtain ⟨hl, rfl⟩ := refill_eq_false hr
    exact fun _ => hl.2
  | refill _ hc hr _ ih => exact fun he => ih ((endsWithin_refill hc hr).1 he)
  | take _ _ ht _ ih => exact fun he => ih ((endsWithin_take ht).1 he)

/-! ## Two players alike -/

/-- The song ends for both in the same ticks. -/
theorem Alike.loopCount {p q : Player} (h : Alike p q) : ∀ k : Nat,
    (Player.tick^[k] p).loopCount + q.loopCount = (Player.tick^[k] q).loopCount + p.loopCount
  | 0 => Nat.add_comm _ _
  | k + 1 => by
    have ih := h.loopCount k
    have hk := h.iterate k
    have hended := hk.advanced_eq
    rw [Function.iterate_succ_apply', Function.iterate_succ_apply', loopCount_tick, loopCount_tick,
      hended, hk.replay]
    split <;> omega

/-- Of two players that are alike, and of which nothing of a tick is left, the
    song ends for both within the same buffers if it has ended for both as
    often. -/
theorem Alike.endsWithin_iff (h : Alike p q) (hp : p.consumed = p.available)
    (hq : q.consumed = q.available) (hl : p.loopCount = q.loopCount) :
    EndsWithin loops n p ↔ EndsWithin loops n q := by
  have hsound : ∀ k, p.sound k = q.sound k := fun k => by
    rw [sound_of_eq hp, sound_of_eq hq, h.played_eq]
  have hcount : ∀ k, (Player.tick^[k] p).loopCount = (Player.tick^[k] q).loopCount := fun k => by
    have := h.loopCount k
    omega
  simp only [EndsWithin, hsound, hcount]

/-! ## What a host does in the meantime -/

/-- What a host makes of a player: it may do anything with it, and put it to
    any state. -/
inductive Later (p : Player) : Player → Prop where
  | refl : Later p p
  | perform {q : Player} (action : Action) : Later p q → Later p (q.perform action)
  | restore {q : Player} (r : Replay) : Later p q → Later p (q.restore r)

theorem Fills.tune_rate (h : Fills loops n p out q) : q.tune = p.tune ∧ q.rate = p.rate := by
  refine h.preserves (P := fun q => q.tune = p.tune ∧ q.rate = p.rate) (fun q hq => ?_)
    (fun _ _ hq => hq) ⟨rfl, rfl⟩
  rcases refill_cases q loops with ⟨-, he⟩ | ⟨-, he⟩ <;> rw [he] <;> exact hq

/-- The tune and the rate stay. -/
theorem Later.tune_rate (h : Later p q) : q.tune = p.tune ∧ q.rate = p.rate := by
  induction h with
  | refl => exact ⟨rfl, rfl⟩
  | restore r _ ih => exact ih
  | @perform q action _ ih =>
    rcases q.perform_cases action with ⟨-, he⟩ | ⟨song, hs⟩ | ⟨n, loops, out, hf⟩ |
      ⟨position, e, he⟩ | ⟨m, -, he⟩
    · rw [he]; exact ih
    · exact ⟨(start_tune hs).trans ih.1, (start_eq_ok hs).1.trans ih.2⟩
    · obtain ⟨ht, hr⟩ := (fill_eq_ok_iff.1 hf).tune_rate
      exact ⟨ht.trans ih.1, hr.trans ih.2⟩
    · rw [he]; exact ih
    · rw [he]; exact ih

/-- A player that is put back to where it was is alike. -/
theorem Later.alike (h : Later p q) : Alike (q.restore p.snapshot) p :=
  ⟨h.tune_rate.1, h.tune_rate.2, rfl⟩

/-- Put back to a steady state it is steady, whatever was done with it. -/
theorem Later.steady (h : Later p q) (hp : p.Steady) : (q.restore p.snapshot).Steady :=
  hp.congr h.tune_rate.2 rfl

/-! ## Buffers after coming back -/

/-- Buffers of these lengths hold the same for two players, and after them the
    song is over for both or for neither. -/
def Echoes (loops : Nat) (ns : List Nat) (p q : Player) : Prop :=
  ∃ out a b, fillEach loops ns p = some (.ok (out, a)) ∧
    fillEach loops ns q = some (.ok (out, b)) ∧ a.isOver = b.isOver

/-- After buffers in a row the song is over if it was before, or has ended
    within them. -/
theorem Steady.fillEach_isOver_iff (h : p.Steady) (hw : p.Whole) {ns : List Nat}
    (hf : fillEach loops ns p = some (.ok (out, q))) :
    q.isOver = true ↔ p.isOver = true ∨ EndsWithin loops ns.sum p := by
  obtain ⟨out', q', s, heach, hs, ho, -⟩ := h.exists_fillEach_isOver loops ns hw
  rw [hf] at heach
  cases heach
  rw [← ho]
  exact hs.isOver_iff

/-- Buffers of every length hold the same for two players with the same sound
    to come just where the song is over for both or for neither, and ends for
    both within the same buffers. -/
theorem Steady.echoes_iff (hp : p.Steady) (hq : q.Steady) (hpw : p.Whole) (hqw : q.Whole)
    (hs : ∀ k, p.sound k = q.sound k) (ho : p.isOver = false) :
    (∀ ns, Echoes loops ns p q) ↔
      q.isOver = false ∧ ∀ n, EndsWithin loops n p ↔ EndsWithin loops n q := by
  constructor
  · intro h
    have hover : q.isOver = false := by
      obtain ⟨out, a, b, ha, hb, he⟩ := h []
      cases ha
      cases hb
      exact he.symm.trans ho
    refine ⟨hover, fun n => ?_⟩
    obtain ⟨out, a, b, ha, hb, he⟩ := h [n]
    have ha := hp.fillEach_isOver_iff hpw ha
    have hb := hq.fillEach_isOver_iff hqw hb
    rw [he, hb] at ha
    simpa [ho, hover] using ha.symm
  · rintro ⟨hover, hends⟩ ns
    obtain ⟨out, a, s, ha, hfa, hoa, -⟩ := hp.exists_fillEach_isOver loops ns hpw
    obtain ⟨out', b, t, hb, hfb, hob, -⟩ := hq.exists_fillEach_isOver loops ns hqw
    obtain rfl : out = out' := hfa.eq_of_endsWithin_iff hfb hs fun m _ => hends m
    refine ⟨out, a, b, ha, hb, ?_⟩
    rw [← hoa, ← hob, Bool.eq_iff_iff, hfa.isOver_iff, hfb.isOver_iff, ho, hover, hends]

/-- A player that stands at the end of a tick, whose song is not over, and
    that a host comes back to after doing anything with it.  It plays the same
    ticks again.  But how often the song has ended is counted on, and a song
    that is over stays over.  So buffers hold what they held, and leave the
    song over where it was, just where it is not over yet and ends within the
    same buffers: so it is where no end is asked for, or where the song has
    not ended in the meantime.  Where it has ended `loops` times, all is
    silent. -/
theorem Reachable.echoes_restored (hp : Reachable AtWill p) (hc : p.consumed = p.available)
    (ho : p.isOver = false) (h : Later p q) (loops : Nat) :
    (∀ k, played k (q.restore p.snapshot) = played k p) ∧
      ((∀ ns, Echoes loops ns p (q.restore p.snapshot)) ↔ q.isOver = false ∧
        ∀ n, EndsWithin loops n p ↔ EndsWithin loops n (q.restore p.snapshot)) ∧
      (q.isOver = false → loops = 0 ∨ q.loopCount = p.loopCount →
        ∀ ns, Echoes loops ns p (q.restore p.snapshot)) ∧
      (0 < loops → loops ≤ q.loopCount → ∀ n, ∃ r,
        (q.restore p.snapshot).fill n loops = some (.ok (Array.replicate n 0, r))) := by
  have halike := h.alike
  have hsteady := hp.orderly.steady
  have hback : (q.restore p.snapshot).Whole := .inl rfl
  have hsound : ∀ k, p.sound k = (q.restore p.snapshot).sound k := fun k => by
    rw [sound_of_eq hc, sound_of_eq rfl, halike.played_eq]
  have hiff : (∀ ns, Echoes loops ns p (q.restore p.snapshot)) ↔ _ :=
    hsteady.echoes_iff (h.steady hsteady) (.inl hc) hback hsound ho
  refine ⟨halike.played_eq, hiff, ?_, ?_⟩
  · intro hover hl
    refine hiff.2 ⟨hover, fun n => ?_⟩
    rcases hl with rfl | hl
    · exact iff_of_false (fun he => Nat.lt_irrefl 0 he.1) fun he => Nat.lt_irrefl 0 he.1
    · exact (halike.endsWithin_iff rfl hc hl).symm
  · intro h0 hl n
    obtain ⟨out, r, hf⟩ := ((h.steady hsteady).exists_fills_iff le_rfl n loops).2
      (hback.not_overruns n)
    obtain rfl := hf.silent ⟨h0, hl⟩ rfl
    exact ⟨r, fill_eq_ok_iff.2 hf⟩

/-! ## A tune that ends -/

/-- A tune that is heard in its second tick and ends in its seventh. -/
def chime : ByteArray :=
  smallTune 0x1000 [0x10000000, 0xf3000000, 0xf0000000]
    [0x02000000, 0x03000004, 0x17000100, 0x01000000, 0x0e000040, 0x07000000]

/-- Eight samples of one height. -/
def chimeSamples : ByteArray := ⟨Array.replicate 8 0x40⟩

theorem exists_chime : ∃ tune p, load chime (some chimeSamples) = .ok tune ∧
    Player.new tune minRate = .ok p ∧ p.isOver = false ∧ (p.sound 2).size = 8 ∧
      (p.sound 6).size = 28 ∧ (p.sound 2)[4]? = some 8192 ∧ p.loopCount = 0 ∧
      p.tick.loopCount = 0 ∧ p.tick.tick.loopCount = 0 ∧ (Player.tick^[7] p).loopCount = 1 := by
  have h : ((load chime (some chimeSamples)).toOption.bind fun tune =>
      (Player.new tune minRate).toOption.map fun p =>
        (p.isOver, [(p.sound 2).size, (p.sound 6).size], (p.sound 2)[4]?,
          [p.loopCount, p.tick.loopCount, p.tick.tick.loopCount,
            (Player.tick^[7] p).loopCount])) =
        some (false, [8, 28], some 8192, [0, 0, 0, 1]) := by decide +kernel
  obtain ⟨tune, p, hload, hnew, h⟩ := exists_new h
  simp only [Prod.mk.injEq, List.cons.injEq, and_true, and_assoc] at h
  exact ⟨tune, p, hload, hnew, h⟩

/-- After two ticks of it a host comes back to its start: all buffers hold
    what they would have held. -/
theorem echoes_restored_chime : ∃ tune p, load chime (some chimeSamples) = .ok tune ∧
    Player.new tune minRate = .ok p ∧ Reachable AtWill p ∧ p.consumed = p.available ∧
      p.isOver = false ∧ Later p p.tick.tick ∧
      ∀ ns, Echoes 1 ns p (p.tick.tick.restore p.snapshot) := by
  obtain ⟨tune, p, hload, hnew, ho, -, -, -, h0, -, h2, -⟩ := exists_chime
  obtain ⟨-, -, hc, ha⟩ := new_eq_ok hnew
  have hr : Reachable AtWill p := .new hnew
  have hlater : Later p p.tick.tick := .perform .tick (.perform .tick .refl)
  obtain ⟨-, -, hechoes, -⟩ := Reachable.echoes_restored hr (hc.trans ha.symm) ho hlater 1
  exact ⟨tune, p, hload, hnew, hr, hc.trans ha.symm, ho, hlater,
    hechoes ho (.inr (h2.trans h0.symm))⟩

/-- After a buffer that the song has ended in, a host comes back to its start:
    the song is over, and the same buffer is silent. -/
theorem silent_after_restore : ∃ tune p q r out out', load chime (some chimeSamples) = .ok tune ∧
    Player.new tune minRate = .ok p ∧ Reachable AtWill p ∧ p.consumed = p.available ∧
      p.isOver = false ∧ p.fill 40 1 = some (.ok (out, q)) ∧
      (q.restore p.snapshot).isOver = true ∧
      (q.restore p.snapshot).fill 40 1 = some (.ok (out', r)) ∧
      out[4]? = some 8192 ∧ out' = Array.replicate 40 0 ∧ out ≠ out' := by
  obtain ⟨tune, p, hload, hnew, ho, h8, h28, hheard, -, h1, h2, h7⟩ := exists_chime
  obtain ⟨hsteady, -, hc, ha⟩ := new_eq_ok hnew
  have hca : p.consumed = p.available := hc.trans ha.symm
  obtain ⟨out, q, hf⟩ := hsteady.exists_fills 1 40 (intact_new hnew)
  have hends : EndsWithin 1 40 p := ⟨Nat.one_pos, 6, by omega, h7.ge⟩
  have hq : Later p q := by
    have hperform : p.perform (.fill 40 1) = q := by rw [perform, fill_eq_ok_iff.2 hf]
    exact hperform ▸ .perform _ .refl
  have hback := hq.steady hsteady
  obtain ⟨out', r, hf'⟩ := hback.exists_fills 1 40 (intact_restore q p)
  have hsilent := hf'.silent ⟨Nat.one_pos, hf.loops_le hends⟩ rfl
  have hsound : out[4]? = some 8192 := by
    -- the song is heard in its second tick, and does not end before its seventh
    have hnot : ¬ EndsWithin 1 5 p := by
      rintro ⟨-, i, hs, hi⟩
      rcases Nat.lt_or_ge i 2 with hlt | hge
      · interval_cases i
        · exact absurd (hi.trans_eq h1) (by decide)
        · exact absurd (hi.trans_eq h2) (by decide)
      · have := p.size_sound_mono hge
        omega
    obtain ⟨k, hk⟩ := hf.exists_sample_eq (by decide) hnot
    have hlast := hk (max k 2) (Nat.le_max_left _ _)
    obtain ⟨j, hj⟩ := Nat.exists_eq_add_of_le (Nat.le_max_right k 2)
    rw [hlast, hj, sound, played_add, ← Array.append_assoc, ← sound,
      Array.getElem?_append_left (by omega), hheard]
  refine ⟨tune, p, q, r, out, out', hload, hnew, .new hnew, hca, ho, fill_eq_ok_iff.2 hf,
    hf.isOver_iff.2 (.inr hends), fill_eq_ok_iff.2 hf', hsound, hsilent, ?_⟩
  rintro rfl
  rw [hsilent, Array.getElem?_replicate] at hsound
  exact absurd hsound (by decide)

end PaulaReplay.Player
