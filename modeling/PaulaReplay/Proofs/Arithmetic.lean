/-
  Arithmetic: no number of a replay is out of range, but for one product.

  A build that looks at its results stops at the first one that is out of
  range; one that does not look goes on with what is left of it.

  * `Replay.Sound` is what keeps results in range, `Sound.apply` says that all
    moves keep it;
  * `Sound.inRange_move`, `Sound.fits_move`: the results of a move;
  * `Player.checkedTicks` are ticks that stop at a result out of range;
  * `Reachable.reckons` is what holds of all that a host comes to;
  * `stops_in_longSway`: a tune with a product out of range.
-/
import PaulaReplay.Proofs.Alike
import PaulaReplay.Proofs.Reading
import PaulaReplay.Proofs.Reckoning

namespace PaulaReplay

open Reckoning

/-! ## Moves -/

namespace Replay

variable {r : Replay} {score : Score} {rate : UInt32}

/-! ### What is carried over -/

theorem remainder_obey (r : Replay) (c : StepCommand) :
    (r.obey c).1.clock.remainder = r.clock.remainder := by
  refine (congrArg (·.clock.remainder) (hushed_obey r c)).trans ?_
  show (c.clocks?.elim r.clock r.clock.withClocks).remainder = _
  cases c.clocks? <;> rfl

theorem remainder_readStep (r : Replay) (score : Score) :
    (r.readStep score).1.clock.remainder = r.clock.remainder := by
  have hg : r.greetFirst.clock.remainder = r.clock.remainder :=
    congrArg (·.clock.remainder) (hushed_greetFirst r)
  unfold readStep
  simp only
  split
  · exact hg
  · split
    · exact (remainder_obey _ _).trans hg
    · exact hg

/-- A move but the sound of a tick leaves what is carried over, or begins with
    nothing. -/
theorem remainder_apply (r : Replay) (score : Score) (rate : UInt32) {mv : Move}
    (hmv : mv ≠ .render) : (mv.apply score rate r).clock.remainder = r.clock.remainder ∨
      (mv.apply score rate r).clock.remainder = 0 := by
  cases mv with
  | render => exact absurd rfl hmv
  | reset multi => exact .inr rfl
  | enter i =>
    refine .inl ?_
    rw [Move.apply, enterTrack]
    split <;> rfl
  | leave => exact .inl (congrArg (·.clock.remainder) (hushed_leave r))
  | readStep => exact .inl (remainder_readStep r score)
  | select n =>
    refine .inl ?_
    unfold Move.apply selectSong enterSong
    simp only
    split <;> rfl
  | aim position e =>
    refine .inl ?_
    rw [Move.apply, aim]
    simp only
    split <;> rfl
  | _ => exact .inl rfl

/-! ### Moves -/

/-- What keeps results in range. -/
structure Sound (r : Replay) : Prop where
  ranged : r.Ranged
  carries : r.clock.Carries

theorem Sound.apply (h : r.Sound) (mv : Move) : (mv.apply score rate r).Sound := by
  refine ⟨h.ranged.apply mv, ?_⟩
  by_cases hmv : mv = .render
  · rw [hmv]
    exact h.carries.tick rate
  · rcases remainder_apply r score rate hmv with he | he <;> rw [TickClock.Carries, he]
    · exact h.carries
    · exact UInt64.zero_le

/-- What a move reckons is in range, but for what changes in a channel from
    tick to tick. -/
theorem Sound.inRange_move (h : r.Sound) (hs : score.trackStart < 2 ^ 32) {mv : Move}
    (hmv : ∀ i, mv ≠ .machine (.bend i)) : InRange (mv.reckonings score rate r) := by
  cases mv with
  | machine mv =>
    exact Machine.inRange_move h.ranged fun i he => hmv i (congrArg Move.machine he)
  | word i =>
    refine (inRange_fetch _ _).append ?_
    split
    · exact Machine.inRange_dispatch _ _
    · exact inRange_nil
  | readStep =>
    refine (Score.inRange_step hs _).append ?_
    split
    · exact inRange_timeShare _
    · exact inRange_nil
  | render =>
    exact (h.carries.inRange rate).append (inRange_flatMap fun i _ => Voice.inRange_render _ _ _)
  | _ => exact inRange_nil

theorem Sound.fits_move (h : r.Sound) (hs : score.trackStart < 2 ^ 32) (mv : Move)
    {x : Reckoning} (hx : x ∈ mv.reckonings score rate r) : x.Fits ∨ x.Excessive := by
  by_cases hmv : ∃ i, mv = .machine (.bend i)
  · obtain ⟨i, rfl⟩ := hmv
    rw [Move.reckonings, Machine.Move.reckonings] at hx
    split at hx
    · exact Channel.fits_bend hx
    · cases hx
  · exact .inl (h.inRange_move hs (fun i he => hmv ⟨i, he⟩) x hx)

/-! ### Runs -/

theorem reckonings_append (ms ns : List Move) : ∀ r : Replay,
    reckonings score rate (ms ++ ns) r =
      reckonings score rate ms r ++ reckonings score rate ns (run score rate ms r) := by
  induction ms with
  | nil => exact fun _ => rfl
  | cons mv ms ih =>
    intro r
    rw [List.cons_append, reckonings, reckonings, ih, run_cons, List.append_assoc]

/-- What holds of the results of each move of some, holds of all their
    results. -/
theorem Sound.forall_reckonings {Q : Reckoning → Prop} :
    ∀ (ms : List Move) {r : Replay}, r.Sound →
      (∀ mv ∈ ms, ∀ r : Replay, r.Sound → ∀ x ∈ mv.reckonings score rate r, Q x) →
      ∀ x ∈ reckonings score rate ms r, Q x
  | [], _, _, _ => List.forall_mem_nil _
  | mv :: ms, r, h, hq =>
    List.forall_mem_append.2 ⟨hq mv List.mem_cons_self r h,
      forall_reckonings ms (h.apply mv) fun mv hmv => hq mv (List.mem_cons_of_mem _ hmv)⟩

theorem mem_stepMoves {mv : Move} : ∀ (n : Nat) {r : Replay}, mv ∈ stepMoves score n r →
    mv = .readStep ∨ mv = .giveUp
  | 0, _, h => .inr (List.mem_singleton.1 h)
  | n + 1, r, h => by
    rw [stepMoves] at h
    rcases List.mem_cons.1 h with rfl | h
    · exact .inl rfl
    · split at h
      · exact mem_stepMoves n h
      · cases h

end Replay

/-! ## Tunes -/

theorem tableBase_lt {v : UInt32} {usual base : Nat} (h : tableBase v usual = .ok base)
    (hu : usual < 2 ^ 32) : base < 2 ^ 32 := by
  have hv := v.toNat_lt
  unfold tableBase at h
  split at h
  · rwa [← Except.ok.inj h]
  · split at h
    · cases h
    · have hb := Except.ok.inj h
      omega

/-- A tune that is accepted has its track steps at an offset of 32 bits. -/
theorem trackStart_lt_of_load {music : ByteArray} {samples : Option ByteArray} {tune : Tune}
    (h : load music samples = .ok tune) : tune.score.trackStart < 2 ^ 32 := by
  obtain ⟨p, -, hread, -⟩ := load_eq_ok_iff.1 h
  obtain ⟨v, -, hbase⟩ := exists_of_bind_eq_ok hread.trackStart
  exact tableBase_lt hbase (by decide)

/-! ## Players -/

/-- What is made with some results by a build that looks at them: it stops at
    the first one that is out of range. -/
def Reckoning.checked {α : Type} (xs : List Reckoning) (a : α) : Except Reckoning α :=
  match xs.find? fun x => ¬ x.Fits with
  | some x => .error x
  | none => .ok a

theorem Reckoning.checked_of_inRange {α : Type} {xs : List Reckoning} (h : InRange xs) (a : α) :
    checked xs a = .ok a := by
  have hnone : xs.find? (fun x => ¬ x.Fits) = none :=
    List.find?_eq_none.2 fun x hx => by simpa using h x hx
  rw [checked, hnone]

theorem Reckoning.inRange_of_checked {α : Type} {xs : List Reckoning} {a b : α}
    (h : checked xs a = .ok b) : InRange xs ∧ b = a := by
  unfold checked at h
  split at h
  · cases h
  · next hnone =>
    cases h
    exact ⟨fun x hx => by simpa using List.find?_eq_none.1 hnone x hx, rfl⟩

theorem Reckoning.mem_of_checked {α : Type} {xs : List Reckoning} {a : α} {x : Reckoning}
    (h : checked xs a = .error x) : x ∈ xs ∧ ¬ x.Fits := by
  unfold checked at h
  split at h
  · next y hy =>
    cases h
    exact ⟨List.mem_of_find?_eq_some hy, by simpa using List.find?_some hy⟩
  · cases h

namespace Player

variable {p : Player} {allowed : Player → Action → Prop}

/-- The results of some moves of a player. -/
def reckonings (p : Player) (ms : List Replay.Move) : List Reckoning :=
  Replay.reckonings p.tune.score p.rate ms p.replay

/-- A tick that stops at a result out of range. -/
def checkedTick (p : Player) : Except Reckoning Player :=
  Reckoning.checked (p.reckonings p.tickMoves) p.tick

/-- So many ticks that stop at a result out of range. -/
def checkedTicks : Nat → Player → Except Reckoning Player
  | 0, p => .ok p
  | k + 1, p => p.checkedTick.bind (checkedTicks k)

theorem checkedTicks_eq_ok_iff : ∀ (k : Nat) {p q : Player}, p.checkedTicks k = .ok q ↔
    q = tick^[k] p ∧ ∀ i < k, InRange ((tick^[i] p).reckonings (tick^[i] p).tickMoves)
  | 0, p, q => by
    rw [checkedTicks]
    constructor
    · intro h
      cases h
      exact ⟨rfl, fun i hi => absurd hi (Nat.not_lt_zero i)⟩
    · rintro ⟨rfl, -⟩
      rfl
  | k + 1, p, q => by
    have hsucc : (∀ i < k + 1, InRange ((tick^[i] p).reckonings (tick^[i] p).tickMoves)) ↔
        InRange (p.reckonings p.tickMoves) ∧
          ∀ i < k, InRange ((tick^[i] p.tick).reckonings (tick^[i] p.tick).tickMoves) :=
      Nat.forall_lt_succ_left
    rw [checkedTicks, checkedTick, hsucc, Function.iterate_succ_apply]
    constructor
    · intro h
      obtain ⟨r, hr, h⟩ := exists_of_bind_eq_ok h
      obtain ⟨hin, rfl⟩ := Reckoning.inRange_of_checked hr
      obtain ⟨hq, hall⟩ := (checkedTicks_eq_ok_iff k).1 h
      exact ⟨hq, hin, hall⟩
    · rintro ⟨hq, hin, hall⟩
      rw [Reckoning.checked_of_inRange hin]
      exact (checkedTicks_eq_ok_iff k).2 ⟨hq, hall⟩

theorem checkedTicks_eq_error : ∀ (k : Nat) {p : Player} {x : Reckoning},
    p.checkedTicks k = .error x →
      ¬ x.Fits ∧ ∃ i < k, x ∈ (tick^[i] p).reckonings (tick^[i] p).tickMoves
  | 0, _, _, h => by cases h
  | k + 1, p, x, h => by
    rw [checkedTicks, checkedTick] at h
    cases hc : Reckoning.checked (p.reckonings p.tickMoves) p.tick with
    | error y =>
      rw [hc] at h
      cases h
      obtain ⟨hx, hfits⟩ := Reckoning.mem_of_checked hc
      exact ⟨hfits, 0, Nat.succ_pos k, hx⟩
    | ok q =>
      obtain ⟨-, rfl⟩ := Reckoning.inRange_of_checked hc
      rw [hc] at h
      obtain ⟨hfits, i, hi, hx⟩ := checkedTicks_eq_error k h
      exact ⟨hfits, i + 1, Nat.succ_lt_succ hi, hx⟩

theorem Reachable.sound (h : Reachable allowed p) : p.replay.Sound :=
  ⟨h.ranged, h.orderly.steady.carries⟩

theorem Reachable.iterate (h : Reachable AtWill p) : ∀ k : Nat, Reachable AtWill (tick^[k] p)
  | 0 => h
  | k + 1 => by
    rw [Function.iterate_succ_apply']
    exact (h.iterate k).perform .tick trivial

/-- The filling of a buffer makes ticks, and does nothing else to the
    replay. -/
theorem Fills.exists_alike {loops n : Nat} {out : Array Int16} {q : Player}
    (h : Fills loops n p out q) : ∃ k, Alike q (tick^[k] p) := by
  refine h.preserves (P := fun q => ∃ k, Alike q (tick^[k] p)) ?_ ?_ ⟨0, rfl, rfl, rfl⟩
  · rintro q ⟨k, hk⟩
    refine ⟨k + 1, ?_⟩
    rw [Function.iterate_succ_apply']
    have ht := hk.tick.1
    rcases refill_cases q loops with ⟨-, he⟩ | ⟨-, he⟩ <;> rw [he] <;>
      exact ⟨ht.tune, ht.rate, ht.replay⟩
  · rintro q n ⟨k, hk⟩
    exact ⟨k, hk.tune, hk.rate, hk.replay⟩

theorem fits_of_mem_reckonings (h : p.replay.Sound) (hs : p.tune.score.trackStart < 2 ^ 32)
    (ms : List Replay.Move) : ∀ x ∈ p.reckonings ms, x.Fits ∨ x.Excessive :=
  h.forall_reckonings ms fun mv _ _ hr _ hx => hr.fits_move hs mv hx

theorem inRange_startMoves (h : p.replay.Sound) (hs : p.tune.score.trackStart < 2 ^ 32)
    (song : Nat) : InRange (p.reckonings (p.startMoves song)) := by
  refine h.forall_reckonings _ fun mv hmv r hr => hr.inRange_move hs ?_
  rintro i rfl
  simp only [startMoves, List.mem_cons, List.mem_append, reduceCtorEq, false_or, or_false,
    List.not_mem_nil] at hmv
  rcases Replay.mem_stepMoves _ hmv with he | he <;> cases he

theorem inRange_aimMoves (h : p.replay.Sound) (hs : p.tune.score.trackStart < 2 ^ 32)
    (position : Nat) (e : Timeline.Entry) :
    InRange (p.reckonings (p.aimMoves position e)) := by
  refine h.forall_reckonings _ fun mv hmv r hr => hr.inRange_move hs ?_
  rintro i rfl
  simp only [aimMoves, List.mem_cons, List.mem_append, reduceCtorEq, false_or, or_false,
    List.not_mem_nil] at hmv
  rcases Replay.mem_stepMoves _ hmv with he | he <;> cases he

/-- Of all that the channels, the tracks, the clock and the voices add,
    subtract and multiply, whatever the tune and whatever a host does, one
    result alone may be out of range: the product of a vibrato, where the
    period of the note is above 61682 and the vibrato has come more than 30720
    away from it.  Ticks that look at their results are the ticks that do not,
    unless they stop at such a product.  The filling of a buffer makes ticks,
    and in starting a song and in going to a position nothing is out of
    range. -/
theorem Reachable.reckons {music : ByteArray} {samples : Option ByteArray}
    (h : Reachable AtWill p) (hload : load music samples = .ok p.tune) :
    (∀ x ∈ p.reckonings p.tickMoves, x.Fits ∨ x.Excessive) ∧
      (∀ k, p.checkedTicks k = .ok (tick^[k] p) ∨
        ∃ x, p.checkedTicks k = .error x ∧ ¬ x.Fits ∧ x.Excessive) ∧
      (∀ k, p.checkedTicks k = .ok (tick^[k] p) ↔
        ∀ i < k, InRange ((tick^[i] p).reckonings (tick^[i] p).tickMoves)) ∧
      (∀ n loops out q, p.fill n loops = some (.ok (out, q)) → ∃ k, Alike q (tick^[k] p)) ∧
      (∀ song, InRange (p.reckonings (p.startMoves song))) ∧
      ∀ position e, InRange (p.reckonings (p.aimMoves position e)) := by
  have hs := trackStart_lt_of_load hload
  refine ⟨fits_of_mem_reckonings h.sound hs _, fun k => ?_, fun k => ?_, fun n loops out q hf => ?_,
    inRange_startMoves h.sound hs, inRange_aimMoves h.sound hs⟩
  · cases hk : p.checkedTicks k with
    | ok q => exact .inl (congrArg _ ((checkedTicks_eq_ok_iff k).1 hk).1)
    | error x =>
      obtain ⟨hfits, i, -, hx⟩ := checkedTicks_eq_error k hk
      have hsi : (tick^[i] p).tune.score.trackStart < 2 ^ 32 := by rwa [iterate_tune]
      have hx := fits_of_mem_reckonings (h.iterate i).sound hsi _ x hx
      exact .inr ⟨x, rfl, hfits, hx.resolve_left hfits⟩
  · rw [checkedTicks_eq_ok_iff, eq_self, true_and]
  · exact (fill_eq_ok_iff.1 hf).exists_alike

/-! ## A vibrato that goes too far -/

/-- In the tick of a calm channel its effects are reckoned with once its lock
    has counted down. -/
theorem subset_reckonings_channelMoves (score : Score) (rate : UInt32) {i : Slot} {r : Replay}
    (h : r.machine.channels[i].Calm) (hb : 0 < r.machine.channels[i].countLock.bending) :
    r.machine.channels[i].countLock.bendReckonings ⊆
      Replay.reckonings score rate ((Machine.channelMoves score i r.machine).map .machine) r := by
  have hself : (r.machine.onChannel i Channel.countLock).channels[i] =
      r.machine.channels[i].countLock := Octet.getElem_set_self _ _ _
  have hcalm : (r.machine.onChannel i Channel.countLock).channels[i].Calm := by
    rw [hself]
    exact h.countLock
  have hrun : Machine.run score rate ([.countLock i, .takeEffect i] ++ Machine.turnMoves score i
      ((r.machine.onChannel i Channel.countLock).takeEffect score i)) r.machine =
        r.machine.onChannel i Channel.countLock := by
    rw [Machine.run_append]
    exact (Machine.run_turnMoves i _).trans (Machine.takeTurn_takeEffect hcalm)
  have hlast : ∀ r : Replay, Replay.reckonings score rate ([.bend i, .load i].map .machine) r =
      Machine.Move.reckonings score r.machine (.bend i) ++
        Replay.reckonings score rate [.machine (.load i)] (r.onMachine (·.bend i)) := fun _ => rfl
  have hbend : Machine.Move.reckonings score (r.machine.onChannel i Channel.countLock) (.bend i) =
      r.machine.channels[i].countLock.bendReckonings := by
    rw [Machine.Move.reckonings, hself, if_pos hb]
  rw [Machine.channelMoves, List.map_append, Replay.reckonings_append, Replay.run_map_machine,
    Replay.onMachine, hrun, hlast, hbend]
  exact fun x hx => List.mem_append_right _ (List.mem_append_left _ hx)

/-- So are those of the first channel in a tick of a calm replay. -/
theorem subset_reckonings_tickMoves {n : Nat} (h : p.replay.Calm n)
    (hb : 0 < p.replay.machine.channels[Slot.ofNat 0].countLock.bending) :
    p.replay.machine.channels[Slot.ofNat 0].countLock.bendReckonings ⊆
      p.reckonings p.tickMoves := by
  obtain ⟨rest, horder⟩ : ∃ rest, Machine.channelOrder p.replay.begin.machine.multi =
      Slot.ofNat 0 :: rest := by
    cases p.replay.begin.machine.multi <;> exact ⟨_, rfl⟩
  have henabled : p.replay.begin.machine.master.enabled = true := h.enabled
  have hfirst := subset_reckonings_channelMoves p.tune.score p.rate (r := p.replay.begin)
    (h.machine.channels (Slot.ofNat 0)) hb
  rw [reckonings, tickMoves, Replay.tickMoves, Replay.reckonings_append, Replay.advanceMoves,
    if_pos henabled, Machine.tickMoves, horder, Machine.channelsMoves, Replay.reckonings,
    Replay.reckonings_append, List.map_append, Replay.reckonings_append]
  intro x hx
  exact List.mem_append_left _ (List.mem_append_right _
    (List.mem_append_left _ (List.mem_append_left _ (hfirst hx))))

/-- A tune with a vibrato about the longest period that goes on by 127 in each
    tick.  Its first row lasts for 65536 ticks. -/
def longSway : ByteArray :=
  commandedTune 0xffff [[commandMark, 2, 0xffff, 0, 0, 0, 0, 0]] [0x10000000, 0xf3ff0000]
    [0x1700ffff, 0x0c01007f, 0x07000000]

/-- After two ticks the vibrato has begun, and nothing else will happen. -/
theorem exists_longSway : ∃ tune p, load longSway (some ⟨#[]⟩) = .ok tune ∧
    Player.new tune minRate = .ok p ∧ (tick^[2] p).replay.Calm 241 ∧
      (tick^[2] p).replay.machine.channels[Slot.ofNat 0].Swaying ∧
      (tick^[2] p).replay.machine.channels[Slot.ofNat 0].pitch.target = 0xffff ∧
      (tick^[2] p).replay.machine.channels[Slot.ofNat 0].vibrato =
        { reset := 1, time := 0, width := 127, offset := 0, flag := true } := by
  have h : ((load longSway (some ⟨#[]⟩)).toOption.bind fun tune =>
      (Player.new tune minRate).toOption.map fun p =>
        let r := (tick^[2] p).replay
        let c := r.machine.channels[Slot.ofNat 0]
        (decide (r.Calm 241), decide c.Swaying, c.pitch.target, c.vibrato)) =
      some (true, true, 0xffff,
        { reset := 1, time := 0, width := 127, offset := 0, flag := true }) := by
    decide +kernel
  obtain ⟨tune, p, hload, hnew, h⟩ := exists_new h
  simp only [Prod.mk.injEq, decide_eq_true_eq] at h
  obtain ⟨hcalm, hswaying, htarget, hvibrato⟩ := h
  exact ⟨tune, p, hload, hnew, hcalm, hswaying, htarget, hvibrato⟩

/-- In its third tick all is in range, and a product of the vibrato is among
    the results. -/
theorem reckons_longSway : ∃ tune p, load longSway (some ⟨#[]⟩) = .ok tune ∧
    Player.new tune minRate = .ok p ∧ Reachable AtWill (tick^[2] p) ∧
      .sway 0xffff 127 ∈ (tick^[2] p).reckonings (tick^[2] p).tickMoves ∧
      ∀ x ∈ (tick^[2] p).reckonings (tick^[2] p).tickMoves, x.Fits ∨ x.Excessive := by
  obtain ⟨tune, p, hload, hnew, hcalm, hswaying, htarget, hvibrato⟩ := exists_longSway
  have hr : Reachable AtWill (tick^[2] p) := Reachable.iterate (.new hnew) 2
  have htune : (tick^[2] p).tune = tune := (iterate_tune p 2).trans (new_tune hnew)
  obtain ⟨hall, -⟩ := Reachable.reckons hr (htune ▸ hload)
  have hmem := subset_reckonings_tickMoves hcalm hswaying.countLock.bending
    hswaying.countLock.mem_bendReckonings
  rw [Channel.pitch_countLock, Channel.vibrato_countLock, htarget, hvibrato] at hmem
  exact ⟨tune, p, hload, hnew, hr, hmem, hall⟩

/-- In its tick 244 the vibrato reckons with a product that is out of range, and
    a build that looks at its results stops there. -/
theorem stops_in_longSway : ∃ tune p, load longSway (some ⟨#[]⟩) = .ok tune ∧
    Player.new tune minRate = .ok p ∧
      .sway 0xffff 30734 ∈ (tick^[243] p).reckonings (tick^[243] p).tickMoves ∧
      ¬ (Reckoning.sway 0xffff 30734).Fits ∧ ∀ q, p.checkedTicks 244 ≠ .ok q := by
  obtain ⟨tune, p, hload, hnew, hcalm, hswaying, htarget, hvibrato⟩ := exists_longSway
  obtain ⟨hlast, hfirst⟩ := calm_iterate (n := 0) 241 hcalm
  obtain ⟨hs, ht, hw, ho⟩ := hswaying.iterate_drift 241 (by rw [hvibrato]; decide)
  rw [← hfirst] at hs ht hw ho
  have hmem := subset_reckonings_tickMoves hlast hs.countLock.bending
    hs.countLock.mem_bendReckonings
  rw [Channel.pitch_countLock, Channel.vibrato_countLock, ht, hw, ho, htarget, hvibrato,
    ← Function.iterate_add_apply] at hmem
  have hfits : ¬ (Reckoning.sway 0xffff 30734).Fits := by decide
  refine ⟨tune, p, hload, hnew, hmem, hfits, ?_⟩
  intro q hq
  obtain ⟨-, hall⟩ := (checkedTicks_eq_ok_iff 244).1 hq
  exact hfits (hall 243 (by decide) _ hmem)

end Player

end PaulaReplay
