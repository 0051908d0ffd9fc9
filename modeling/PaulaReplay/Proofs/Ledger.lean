/-
  Ledger: what becomes of the numbers that a replay works out.

  A result that is neither an address nor a step on the way to another result ends in a
  register: as it is, cut to the bits of the register, or without its fraction.

  * `Reckoning.Held` says that a register holds the last of some results, or rather what it
    makes of what the type of the result leaves of it;
  * `Channel.held_lock`, `Channel.held_sway`, `Lane.held_note` and others say so of the
    parts of a move;
  * `Lane.Records`, `Channel.RecordsBend` and `Voice.RecordsPlay`: a word of a macro, the
    effects of a tick and the frames of a voice leave their results in registers;
  * `Replay.Records` gathers this for a move, `Replay.records_move` says it of all moves, and
    `Sound.along_records` of the moves of a run.
-/
import PaulaReplay.Proofs.Arithmetic
import PaulaReplay.Proofs.Sliding
import PaulaReplay.Proofs.Volume

namespace PaulaReplay

/-! ## Registers -/

namespace Reckoning

variable {α : Type} {xs ys : List Reckoning} {x : Reckoning} {f : Int → α} {register : α}

/-- A register holds what it makes of what the type leaves of the last of some results, if
    there is any. -/
def Held (xs : List Reckoning) (f : Int → α) (register : α) : Prop :=
  ∀ x ∈ xs.getLast?, register = f x.wrapped

theorem held_nil : Held [] f register := fun _ hx => nomatch hx

theorem held_concat (xs : List Reckoning) (h : register = f x.wrapped) :
    Held (xs ++ [x]) f register := by
  intro y hy
  rw [List.getLast?_concat] at hy
  rw [h, Option.some.inj hy]

theorem held_singleton (h : register = f x.wrapped) : Held [x] f register :=
  held_concat [] h

/-- Of results in range nothing is lost. -/
theorem held_of_inRange (xs : List Reckoning) (hin : InRange (xs ++ [x]))
    (h : register = f x.value) : Held (xs ++ [x]) f register := by
  refine held_concat xs ?_
  rw [(wrapped_eq_iff x).2 (hin x (List.mem_append_right xs List.mem_cons_self)), h]

theorem held_ite {c : Prop} [Decidable c] (hx : c → Held xs f register)
    (hy : ¬ c → Held ys f register) : Held (if c then xs else ys) f register := by
  split
  · next h => exact hx h
  · next h => exact hy h

end Reckoning

open Reckoning

/-! ## Channels -/

namespace Channel

theorem held_lock (c : Channel) :
    Held c.lockReckonings id c.countLock.reservation.time.toInt := by
  refine held_ite (fun h => held_singleton ?_) fun _ => held_nil
  rw [countLock, if_pos h]
  exact Int16.toInt_sub _ _

theorem held_receive (score : Score) (w : Word) (c : Channel) :
    Held (c.receiveReckonings w) id ((c.receive score w).envelope.reset.toNat : Int) := by
  refine held_ite (fun h => held_singleton ?_) fun _ => held_nil
  have hreset : (c.receive score w).envelope.reset = (w.byte2 >>> 4) + 1 := by
    rw [receive, h.2, if_neg (by decide), if_neg (not_not.2 h.1), if_neg (by decide),
      if_neg (by decide), setEffect, if_pos h.2]
  rw [hreset, UInt8.toNat_add]
  rfl

/-! ### Effects -/

/-- A sweep whose time is up begins anew. -/
theorem held_sweep (c : Channel) :
    Held c.sweepReckonings (fun time => if time = 0 then (c.sweep.reset.toNat : Int) else time)
      c.sweepOn.sweep.time.toNat := by
  refine held_ite (fun _ => held_nil) fun h => held_singleton ?_
  have hwrapped : wrapped ⟨.u8, c.sweep.time.toNat - 1⟩ = (c.sweep.time - 1).toNat := by
    rw [UInt8.toNat_sub, show (1 : UInt8).toNat = 1 from rfl]
    simp only [wrapped]
    omega
  have hzero : ((c.sweep.time - 1).toNat : Int) = 0 ↔ c.sweep.time - 1 = 0 := by
    rw [← UInt8.toNat_inj]
    exact Int.natCast_eq_zero
  rw [sweepOn, if_neg h, hwrapped]
  simp only [hzero]
  split <;> rfl

/-- What 32 bits leave of a number has the same bits from the eleventh on, as
    far as 16 of them go. -/
theorem ofInt_bmod_shiftRight (v : Int) :
    UInt16.ofInt (v.bmod (2 ^ 32) >>> (11 : Nat)) = UInt16.ofInt (v >>> (11 : Nat)) := by
  have hv : v >>> (11 : Nat) =
      v.bmod (2 ^ 32) >>> (11 : Nat) + 2 ^ 16 * (2 ^ 5 * v.bdiv (2 ^ 32)) := by
    have hsplit := v.bmod_add_bdiv (2 ^ 32)
    rw [Int.shiftRight_eq_div_pow, Int.shiftRight_eq_div_pow]
    omega
  rw [hv, UInt16.ofInt_add, UInt16.ofInt_mul, show UInt16.ofInt (2 ^ 16) = 0 from rfl,
    UInt16.zero_mul, UInt16.add_zero]

/-- The period of a vibrato is its product without the 11 bits of fraction.  Where 32 bits
    do not hold the product, what they leave of it has the same period. -/
theorem held_sway {c : Channel} (h0 : c.slide.rate = 0) :
    Held c.swayReckonings (fun x => UInt16.ofInt (x >>> (11 : Nat))) c.sway.pitch.period := by
  refine held_ite (fun _ => held_nil) fun h => held_concat [_] ?_
  rw [Channel.sway, if_neg h]
  exact (if_pos h0).trans (ofInt_bmod_shiftRight _).symm

/-- The period that a slide comes to by a ratio, in parts of 256. -/
def slid (c : Channel) (ratio : Int) : UInt16 :=
  let period := c.slide.period.toUInt32.toInt32
  let target := c.pitch.target.toUInt32.toInt32
  let next :=
    if target < period then max target ((period * Int32.ofInt ratio - 128) >>> 8)
    else min target ((period * Int32.ofInt ratio) >>> 8)
  next.toUInt32.toUInt16

theorem lt_iff_toInt32_lt (a b : UInt16) : a < b ↔ a.toUInt32.toInt32 < b.toUInt32.toInt32 := by
  rw [Int32.lt_iff_toInt_lt, toInt_period, toInt_period, Int.ofNat_lt]
  exact UInt16.lt_iff_toNat_lt

theorem max_eq_ite (a target : Int32) :
    max target a = if decide (a ≤ target) then target else a := by
  show (if target ≤ a then a else target) = _
  by_cases h : a ≤ target
  · rw [decide_eq_true h, if_pos rfl]
    split
    · next h' => exact Int32.le_antisymm h h'
    · rfl
  · rw [decide_eq_false h, if_neg Bool.false_ne_true, if_pos (Int32.le_of_lt (Int32.not_le.1 h))]

theorem min_eq_ite (a target : Int32) :
    min target a = if decide (target ≤ a) then target else a := by
  show (if target ≤ a then target else a) = _
  simp only [decide_eq_true_eq]

theorem held_slide (c : Channel) : Held c.slideReckonings c.slid c.slideOn.slide.period := by
  refine held_ite (fun _ => held_nil) fun h => ?_
  obtain ⟨hrate, htime⟩ : c.slide.rate ≠ 0 ∧ c.slide.time - 1 = 0 :=
    (not_or.1 h).imp_right not_not.1
  have hlo := c.slide.rate.le_toInt
  have hhi := c.slide.rate.toInt_lt
  have hdown : Int32.ofInt (256 - c.slide.rate.toInt) = 256 - c.slide.rate.toInt32 := by
    rw [Int32.ofInt_sub, ← Int16.toInt_toInt32, Int32.ofInt_toInt]
    rfl
  have hup : Int32.ofInt (256 + c.slide.rate.toInt) = 256 + c.slide.rate.toInt32 := by
    rw [Int32.ofInt_add, ← Int16.toInt_toInt32, Int32.ofInt_toInt]
    rfl
  have hfits : ∀ v : Int, -0x8000 ≤ v ∧ v ≤ 0x8100 → wrapped ⟨.i32, v⟩ = v := fun v hv =>
    (wrapped_eq_iff _).2 (fits_of_le (-0x8000) 0x8100 hv (by decide))
  rw [slideOn, if_neg hrate]
  simp only [htime, ne_eq, not_true_eq_false, if_false]
  refine held_ite (fun hlt => held_singleton ?_) fun hge => held_ite (fun hlt => held_singleton ?_)
    fun _ => held_nil
  · have hlt := (lt_iff_toInt32_lt _ _).1 hlt
    rw [slid, hfits _ (by omega), hdown, slideStep, if_pos hlt]
    simp only [if_pos hlt, max_eq_ite]
  · have hge := mt (lt_iff_toInt32_lt _ _).2 hge
    have hlt := (lt_iff_toInt32_lt _ _).1 hlt
    rw [slid, hfits _ (by omega), hup, slideStep, if_neg hge, if_pos hlt]
    simp only [if_neg hge, min_eq_ite]

/-- After the effects of a tick the time of the sweep, the period of the vibrato and that of
    the slide are their results.  A start of the sample that leaves the address space stops
    the sweep, and while there is a slide the vibrato is not heard. -/
structure RecordsBend (c c' : Channel) : Prop where
  sweep : Held c.sweepReckonings
    (fun time =>
      if c.sweepOn.region.address.toInt32 < 0 then 0
      else if time = 0 then (c.sweep.reset.toNat : Int) else time)
    c'.sweep.time.toNat
  sway : c.slide.rate = 0 → Held c.sweepOn.groundSweep.swayReckonings
    (fun x => UInt16.ofInt (x >>> (11 : Nat))) c'.pitch.period
  slide : Held c.sweepOn.groundSweep.sway.slideReckonings c.slid c'.slide.period

theorem slid_sway (c : Channel) : c.sweepOn.groundSweep.sway.slid = c.slid := by
  rw [sway_frame, sweepOn_frame]
  rfl

theorem recordsBend (c : Channel) : c.RecordsBend c.bend := by
  have hrate : c.sweepOn.groundSweep.sway.slide.rate = c.slide.rate := by
    rw [sway_frame, sweepOn_frame]
  refine ⟨?_, fun h0 => ?_, ?_⟩
  · have hsweep : c.bend.sweep = c.sweepOn.groundSweep.sweep := by
      rw [bend, swell_frame, slideOn_frame, sway_frame]
    intro x hx
    rw [hsweep, groundSweep]
    split
    · rfl
    · exact c.held_sweep x hx
  · have hperiod : c.bend.pitch.period = c.sweepOn.groundSweep.sway.pitch.period := by
      rw [bend, swell_frame, slideOn, if_pos (hrate.trans h0)]
    rw [hperiod]
    refine held_sway ?_
    rw [sweepOn_frame]
    exact h0
  · have hslide : c.bend.slide = c.sweepOn.groundSweep.sway.slideOn.slide := by
      rw [bend, swell_frame]
    rw [hslide, ← slid_sway]
    exact held_slide _

end Channel

/-! ## Macros -/

/-- Of the length of a region in samples 16 bits are left. -/
theorem toNat_regionSamples (words : UInt16) :
    ((regionSamples words).toNat : Int) = (regionReckoning words).wrapped % 2 ^ 16 := by
  have hnat : (regionSamples words).toNat = words.toNat * 2 % 2 ^ 16 := by
    rw [regionSamples, UInt16.toNat_shiftLeft, Nat.shiftLeft_eq]
    rfl
  rw [(wrapped_eq_iff _).2 (fits_region words), hnat]
  rfl

namespace Lane

variable {score : Score} {l : Lane} {w : Word}

theorem held_loop (l : Lane) (w : Word) :
    Held (l.loopReckonings w) id (l.loop w).channel.program.jumps.toInt := by
  refine held_ite (fun h => held_singleton ?_) fun _ => held_nil
  rw [loop, if_neg h.1]
  simp only [if_pos h.2]
  rw [Int16.toInt_sub, toInt_byte]
  rfl

theorem target_yield (l : Lane) : l.yield.lane.channel.pitch.target = l.channel.pitch.target := by
  unfold yield; split <;> rfl

/-- The period of a note is its product without the 8 bits of fraction. -/
theorem held_note (l : Lane) (base : UInt8) (w : Word) :
    Held (l.noteReckonings base w) (fun x => UInt16.ofInt (x >>> (8 : Nat)))
      (l.playNote base w).lane.channel.pitch.target := by
  rw [playNote, target_yield]
  exact held_of_inRange [_, _] (inRange_note l base w) rfl

theorem held_waitKeyUp (l : Lane) (w : Word) :
    Held (l.waitKeyUpReckonings w) id (l.waitKeyUp w).lane.channel.program.jumps.toInt := by
  refine held_ite (fun _ => held_nil) fun h => ?_
  obtain ⟨hkey, hzero⟩ : l.channel.program.keyDown ∧ l.channel.program.jumps ≠ 0 :=
    (not_or.1 h).imp_left not_not.1
  have hwait : (l.waitKeyUp w).lane.channel.program.jumps =
      if l.channel.program.jumps = -1 then w.byte3.toUInt16.toInt16 - 1
      else l.channel.program.jumps - 1 := by
    rw [waitKeyUp]
    simp only
    rw [if_neg (not_not.2 hkey), if_neg hzero]
    rfl
  rw [hwait]
  refine held_ite (fun hnone => held_singleton ?_) fun hsome => held_singleton ?_
  · rw [if_pos hnone, Int16.toInt_sub, toInt_byte]
    rfl
  · rw [if_neg hsome]
    exact Int16.toInt_sub _ _

/-- After a word of a macro its channel and its voice hold the results: the length of the
    region, the jumps of a loop or a wait, the volume, or the period of the note.  No other
    word has any. -/
def Records (score : Score) (op : Operation) (w : Word) (l l' : Lane) : Prop :=
  let xs := executeReckonings score op w l
  match op with
  | .on => Held xs (· % 2 ^ 16) (l'.voice.length.toNat : Int)
  | .loop | .loopKeyDown | .waitKeyUp => Held xs id l'.channel.program.jumps.toInt
  | .addVolume =>
    Held xs (fun x => if 0x40 < Int8.ofInt x then 0x40 else Int8.ofInt x) l'.channel.volume
  | .previousNote | .addNote | .setNote =>
    Held xs (fun x => UInt16.ofInt (x >>> (8 : Nat))) l'.channel.pitch.target
  | _ => xs = []

theorem records_execute (score : Score) (op : Operation) (w : Word) (l : Lane) :
    Records score op w l (execute score op w l).lane := by
  cases op with
  | on =>
    rw [Records, executeReckonings]
    refine held_ite (fun h => held_singleton ?_) fun _ => held_nil
    rw [execute, switchOn, if_pos h]
    exact toNat_regionSamples _
  | loop => exact held_loop l w
  | loopKeyDown =>
    refine held_ite (fun h => ?_) fun _ => held_nil
    rw [execute, if_pos h]
    exact held_loop l w
  | addVolume =>
    have hv := l.channel.pitch.velocity.toNat_lt
    have hb := w.byte3.toNat_lt
    rw [Records, executeReckonings]
    refine held_ite (fun h => held_concat [_] ?_) fun _ => held_nil
    rw [execute, if_pos h, (wrapped_eq_iff _).2 (fits_of_le 0 0x3fc (by omega) (by decide))]
    rfl
  | previousNote | addNote | setNote => exact held_note l _ w
  | waitKeyUp => exact held_waitKeyUp l w
  | _ => rfl

/-- So they do after the next word of the macro, if there is one. -/
def RecordsTurn (score : Score) (l l' : Lane) : Prop :=
  ∀ w, score.word? l.channel.program.base l.channel.program.step = some w →
    Records score (Operation.ofByte w.byte0) (w.withByte0 0)
      (l.jumpTo (l.channel.program.step + 1)) l'

theorem recordsTurn (score : Score) (l : Lane) : l.RecordsTurn score (l.turn score).lane := by
  intro w hw
  rw [turn]
  simp only [hw]
  exact records_execute score _ _ _

/-- A word that starts a macro has no results itself, whatever the macro does to the
    channel. -/
theorem recordsTurn_of_starts {l' l'' : Lane} (h : l.turn score = .starts l' w) :
    l.RecordsTurn score l'' := by
  obtain ⟨x, hx, hop, -⟩ := exists_word_of_starts h
  intro w hw
  rw [hx] at hw
  rw [← Option.some.inj hw, hop]
  rfl

theorem held_load (l : Lane) (master : Int8) (rate : UInt32) :
    Held (l.loadReckonings master) (fun x => UInt8.ofInt (x >>> (6 : Nat)))
      (l.load master rate).volume :=
  held_of_inRange [_] (inRange_load l master) rfl

end Lane

/-! ## Moves of a channel -/

namespace Machine

/-- After a move of a channel its registers hold the results.  The voice is set up with a
    region and a volume, the other moves leave one kind of result each, or none. -/
def Move.Records (score : Score) (m m' : Machine) : Move → Prop
  | .countLock i => Held m.channels[i].lockReckonings id m'.channels[i].reservation.time.toInt
  | .word i => (m.lane i).RecordsTurn score (m'.lane i)
  | .bend i => 0 < m.channels[i].bending → m.channels[i].RecordsBend m'.channels[i]
  | .load i =>
    (m'.voices[i].nextLength.toNat : Int) =
        (regionReckoning m.channels[i].region.savedLength).wrapped % 2 ^ 16 ∧
      Held ((m.lane i).loadReckonings m.master.fade.volume)
        (fun x => UInt8.ofInt (x >>> (6 : Nat))) m'.voices[i].volume
  | .takeEffect _ | .countWait _ | .wake _ | .halt _ => True

theorem records_move (score : Score) (rate : UInt32) (m : Machine) (mv : Move) :
    mv.Records score m (mv.apply score rate m) := by
  cases mv with
  | countLock i =>
    show Held _ id (m.channels.set i _)[i].reservation.time.toInt
    rw [Octet.getElem_set_self]
    exact Channel.held_lock _
  | word i =>
    have hturn := (m.lane i).recordsTurn score
    show (m.lane i).RecordsTurn score ((m.runWord score i).lane i)
    unfold runWord
    cases ht : (m.lane i).turn score with
    | starts l w => exact Lane.recordsTurn_of_starts ht
    | goesOn l | rests l | cues l =>
      rw [ht] at hturn
      exact (m.lane_setLane_self i l).symm ▸ hturn
  | bend i =>
    intro hb
    rw [Move.apply, channels_bend, Octet.getElem_set_self, Channel.bendOn_of_pos hb]
    exact Channel.recordsBend _
  | load i =>
    show ((m.voices.set i _)[i].nextLength.toNat : Int) = _ ∧ Held _ _ (m.voices.set i _)[i].volume
    rw [Octet.getElem_set_self]
    exact ⟨toNat_regionSamples _, Lane.held_load _ _ rate⟩
  | takeEffect | countWait | wake | halt => trivial

end Machine

/-! ## Clocks and frames -/

theorem held_timeShare (percent clocks : UInt16) :
    Held (timeShareReckonings percent) (fun x => UInt16.ofInt (x / 100))
      ((timeShareClocks? percent).getD clocks) := by
  have hin := inRange_timeShare percent
  unfold timeShareReckonings at hin ⊢
  unfold timeShareClocks?
  by_cases hset : percent &&& 0x8000 ≠ 0
  · rw [if_pos hset]
    exact held_nil
  · simp only [if_neg hset] at hin ⊢
    exact held_of_inRange [_] hin rfl

theorem TickClock.Carries.held_tick {c : TickClock} (h : c.Carries) (rate : UInt32) :
    Held (c.reckonings rate) id ((c.tick rate).2.remainder.toNat : Int) := by
  have hin := h.inRange rate
  unfold TickClock.reckonings at hin ⊢
  rcases h.tick_cases rate with ⟨hle, -, hr⟩ | ⟨hlt, -, hr⟩
  · simp only [if_neg (Nat.not_lt.2 hle), List.append_nil] at hin ⊢
    exact held_of_inRange [_] hin (Int.natCast_inj.2 hr)
  · simp only [if_pos hlt] at hin ⊢
    refine held_of_inRange [_, _, _] hin ?_
    show _ = _ - _
    omega

namespace Voice

/-- A voice that goes on counting its regions keeps the count that it reckons. -/
theorem held_count {v : Voice} {n : UInt16} (hn : v.count.1.loopMode = .armOnCount n) :
    Held v.countReckonings id (n.toNat : Int) := by
  cases hmode : v.loopMode with
  | normal =>
    simp only [count, hmode] at hn
    cases hn
  | armOnCount k =>
    simp only [count, hmode] at hn
    simp only [countReckonings, hmode]
    refine held_ite (fun _ => held_nil) fun h0 => held_singleton ?_
    rw [if_neg h0] at hn
    cases hn
    have hk := k.toNat_lt
    have hpos : k.toNat ≠ 0 := fun he => h0 (UInt16.toNat_inj.1 he)
    rw [(wrapped_eq_iff _).2 (fits_of_le 0 0xfffe (by omega) (by decide)), UInt16.toNat_sub]
    show ((2 ^ 16 - 1 + k.toNat) % 2 ^ 16 : Nat) = (k.toNat : Int) - 1
    omega

/-- At the end of its region a voice whose phase has moved on keeps what is left of the
    phase, and counts the region. -/
def RecordsFrame (v : Voice) : Prop :=
  ¬ v.phase < v.limit →
    (v.enter.phase.toNat : Int) = wrapped ⟨.u32, v.phase.toNat - v.limit.toNat⟩ ∧
      ∀ n, v.enter.count.1.loopMode = .armOnCount n →
        Held v.enter.countReckonings id (n.toNat : Int)

theorem recordsFrame (v : Voice) : v.RecordsFrame := by
  intro h
  refine ⟨?_, fun n hn => ?_⟩
  · have hle : v.limit ≤ v.phase := UInt32.not_lt.1 h
    have hnat : v.limit.toNat ≤ v.phase.toNat := UInt32.le_iff_toNat_le.1 hle
    have hlt := v.phase.toNat_lt
    rw [(wrapped_eq_iff _).2 (fits_of_le 0 0xffffffff (by omega) (by decide))]
    show ((v.phase - v.limit).toNat : Int) = _
    rw [UInt32.toNat_sub_of_le _ _ hle]
    exact Int.natCast_sub hnat
  · exact held_count hn

/-- So it does in each of at most so many frames. -/
def RecordsPlay : Nat → Voice → Prop
  | 0, _ => True
  | n + 1, v => v.advance.RecordsFrame ∧ match v.advance.settle with
    | .plays v _ => RecordsPlay n v
    | .runsOut _ => True

theorem recordsPlay : ∀ (n : Nat) (v : Voice), RecordsPlay n v
  | 0, _ => trivial
  | n + 1, v => by
    refine ⟨recordsFrame _, ?_⟩
    split
    · exact recordsPlay n _
    · trivial

end Voice

/-! ## All moves -/

namespace Replay

variable {score : Score} {rate : UInt32} {r : Replay}

/-- After a move the registers hold its results. -/
structure Records (score : Score) (rate : UInt32) (r : Replay) (mv : Move) : Prop where
  /-- A channel in its tick, and its voice. -/
  machine : ∀ mv', mv = .machine mv' →
    mv'.Records score r.machine (mv.apply score rate r).machine
  /-- The channel to which a word comes. -/
  dispatched : ∀ m w, r.dispatched score mv = some (m, w) → Held (m.dispatchReckonings w) id
    ((mv.apply score rate r).machine.channels[m.channelOf w.byte2].envelope.reset.toNat : Int)
  /-- The clocks of a time share command. -/
  timeShare : mv = .readStep → ∀ percent,
    score.command? r.place.current = some (.timeShare percent) →
      Held (timeShareReckonings percent) (fun x => UInt16.ofInt (x / 100))
        (mv.apply score rate r).machine.master.clocks
  /-- What is left over of a tick. -/
  carried : mv = .render →
    Held (r.clock.reckonings rate) id ((mv.apply score rate r).clock.remainder.toNat : Int)
  /-- The voices that are heard, in their frames. -/
  played : mv = .render → ∀ i ∈ mixOrder r.machine.multi,
    r.machine.voices[i].latch.RecordsPlay (r.clock.tick rate).1

/-- All moves do so, if no more than a frame is carried over from tick to tick. -/
theorem records_move (h : r.clock.Carries) (mv : Move) : r.Records score rate mv where
  machine := by
    rintro mv rfl
    exact Machine.records_move score rate r.machine mv
  dispatched := by
    intro m w hd
    rw [machine_of_dispatched hd, Machine.channels_dispatch, if_pos rfl]
    exact Channel.held_receive score w _
  timeShare := by
    rintro rfl percent hc
    have hclocks : (r.readStep score).1.machine.master.clocks =
        (timeShareClocks? percent).getD r.greeted.machine.master.clocks := by
      rw [readStep_of_command hc]
      exact congrArg (·.machine.master.clocks) (hushed_obey r.greeted _)
    rw [Move.apply, hclocks]
    exact held_timeShare percent _
  carried := by
    rintro rfl
    exact h.held_tick rate
  played := by
    rintro rfl i -
    exact Voice.recordsPlay _ _

/-- So all moves of a run do, one after the other. -/
theorem Sound.along_records : ∀ (ms : List Move) {r : Replay}, r.Sound →
    Along score rate (Records score rate) ms r
  | [], _, _ => trivial
  | mv :: ms, _, h => ⟨records_move h.carries mv, along_records ms (h.apply mv)⟩

end Replay

end PaulaReplay
