/-
  Reckonings: the numbers a replay works out, and the types they are to fit.

  Where the channels, the tracks, the clock and the voices add, subtract or
  multiply without a wrap, the result is to be in the range of its type.

  * `Reckoning` is a result with its type, `Reckoning.Fits` says that it is in
    range, and `Reckoning.wrapped` is what its type leaves of it;
  * `Channel.bendReckonings`, `Lane.turnReckonings`, `TickClock.reckonings`,
    `Voice.reckonings`, `Score.stepReckonings` and their parts are the results
    of what a replay does, and `Replay.Move.reckonings` those of a move;
  * `Reckoning.sway` is a period times what a vibrato has come to, and
    `Reckoning.Excessive` says when it may be out of range;
  * `Channel.fits_bend`: of what changes from tick to tick all else is in
    range; `Machine.inRange_move`, `Voice.inRange_render` and the lemmas
    between them say it of the rest.
-/
import PaulaReplay.Proofs.Calm
import PaulaReplay.Proofs.Clock
import PaulaReplay.Proofs.Ranges
import PaulaReplay.Proofs.Rendering

namespace PaulaReplay

/-! ## Results -/

/-- The types of results; addresses have 64 bits. -/
inductive Width where
  | u8
  | u16
  | u32
  | u64
  | i16
  | i32
  | i64
deriving DecidableEq, Repr

namespace Width

/-- The least number of a type. -/
def least : Width → Int
  | u8 | u16 | u32 | u64 => 0
  | i16 => -0x8000
  | i32 => -0x80000000
  | i64 => -0x8000000000000000

/-- The greatest number of a type. -/
def greatest : Width → Int
  | u8 => 0xff
  | u16 => 0xffff
  | u32 => 0xffffffff
  | u64 => 0xffffffffffffffff
  | i16 => 0x7fff
  | i32 => 0x7fffffff
  | i64 => 0x7fffffffffffffff

end Width

/-- The result of an operation, with its type. -/
structure Reckoning where
  width : Width
  value : Int
deriving DecidableEq, Repr

namespace Reckoning

/-- The result is in the range of its type. -/
def Fits (x : Reckoning) : Prop := x.width.least ≤ x.value ∧ x.value ≤ x.width.greatest

instance (x : Reckoning) : Decidable x.Fits := inferInstanceAs (Decidable (_ ∧ _))

/-- What the bits of its type leave of the result. -/
def wrapped (x : Reckoning) : Int :=
  match x.width with
  | .u8 => x.value % 2 ^ 8
  | .u16 => x.value % 2 ^ 16
  | .u32 => x.value % 2 ^ 32
  | .u64 => x.value % 2 ^ 64
  | .i16 => x.value.bmod (2 ^ 16)
  | .i32 => x.value.bmod (2 ^ 32)
  | .i64 => x.value.bmod (2 ^ 64)

/-- Nothing is lost of a result just where it is in range. -/
theorem wrapped_eq_iff (x : Reckoning) : x.wrapped = x.value ↔ x.Fits := by
  obtain ⟨width, v⟩ := x
  cases width <;> simp only [wrapped, Fits, Width.least, Width.greatest]
  case u8 | u16 | u32 | u64 => omega
  case i16 | i32 | i64 =>
    rw [Int.bmod_def]
    split <;> omega

/-- A period times what a vibrato has come to, with 11 bits of fraction. -/
def sway (target : UInt16) (offset : Int16) : Reckoning :=
  ⟨.i32, target.toNat * (0x800 + offset.toInt)⟩

end Reckoning

/-! ## Channels -/

namespace Channel

/-- The count of a lock. -/
def lockReckonings (c : Channel) : List Reckoning :=
  if 0 ≤ c.reservation.time then [⟨.i16, c.reservation.time.toInt - 1⟩] else []

/-- A word that comes to the channel. -/
def receiveReckonings (w : Word) (c : Channel) : List Reckoning :=
  if c.reservation.lock = 0 ∧ w.byte0 = 0xf7 then [⟨.u8, (w.byte2 >>> 4).toNat + 1⟩] else []

/-- The sweep. -/
def sweepReckonings (c : Channel) : List Reckoning :=
  if c.sweep.time = 0 then [] else [⟨.u8, c.sweep.time.toNat - 1⟩]

/-- The vibrato. -/
def swayReckonings (c : Channel) : List Reckoning :=
  if c.vibrato.reset = 0 then []
  else
    let offset := c.vibrato.offset + c.vibrato.width.toInt16
    [⟨.i32, 0x800 + offset.toInt⟩, .sway c.pitch.target offset]

/-- The slide. -/
def slideReckonings (c : Channel) : List Reckoning :=
  if c.slide.rate = 0 ∨ c.slide.time - 1 ≠ 0 then []
  else if c.pitch.target < c.slide.period then [⟨.i32, 256 - c.slide.rate.toInt⟩]
  else if c.slide.period < c.pitch.target then [⟨.i32, 256 + c.slide.rate.toInt⟩]
  else []

/-- All that changes from tick to tick. -/
def bendReckonings (c : Channel) : List Reckoning :=
  let swept := c.sweepOn.groundSweep
  c.sweepReckonings ++ swept.swayReckonings ++ swept.sway.slideReckonings

end Channel

/-! ## Macros -/

/-- A word is fetched from the music data. -/
def fetchReckonings (base : UInt32) (step : UInt16) : List Reckoning :=
  [⟨.u64, step.toNat * 4⟩, ⟨.u64, base.toNat + step.toNat * 4⟩,
    ⟨.u64, base.toNat + step.toNat * 4 + 4⟩]

/-- The length of a region in samples. -/
def regionReckoning (words : UInt16) : Reckoning := ⟨.u32, words.toNat * 2⟩

namespace Lane

/-- A loop arms its counter. -/
def loopReckonings (l : Lane) (w : Word) : List Reckoning :=
  if l.channel.program.jumps ≠ 0 ∧ l.channel.program.jumps - 1 < 0 then
    [⟨.i16, w.byte1.toNat - 1⟩]
  else []

/-- The period of a note with its fine tune and detune. -/
def noteReckonings (l : Lane) (base : UInt8) (w : Word) : List Reckoning :=
  let tune : Int := 0x100 + l.channel.pitch.fineTune.toNat
  let tuned := tune + w.byte3.toInt8.toInt
  [⟨.i32, tune⟩, ⟨.i32, tuned⟩, ⟨.i32, (notePeriod (base + w.byte1)).toNat * tuned⟩]

/-- A wait for the key arms its counter, or counts. -/
def waitKeyUpReckonings (l : Lane) (w : Word) : List Reckoning :=
  let p := l.channel.program
  if ¬ p.keyDown ∨ p.jumps = 0 then []
  else if p.jumps = -1 then [⟨.i16, w.byte3.toNat - 1⟩]
  else [⟨.i16, p.jumps.toInt - 1⟩]

/-- One word of a macro on the channel that runs it. -/
def executeReckonings (score : Score) (op : Operation) (w : Word) (l : Lane) : List Reckoning :=
  match op with
  | .on =>
    if l.channel.program.yields = 0 ∨ score.dialect.startsAtOnce then
      [regionReckoning l.channel.region.savedLength]
    else []
  | .loop => l.loopReckonings w
  | .loopKeyDown => if l.channel.program.keyDown then l.loopReckonings w else []
  | .addVolume =>
    let volume : Int := l.channel.pitch.velocity.toNat * 3
    if w.byte2 ≠ 0xfe then [⟨.i32, volume⟩, ⟨.i32, volume + w.byte3.toNat⟩] else []
  | .previousNote => l.noteReckonings l.channel.pitch.previousNote w
  | .addNote => l.noteReckonings l.channel.pitch.note w
  | .setNote => l.noteReckonings 0 w
  | .waitKeyUp => l.waitKeyUpReckonings w
  | _ => []

/-- The next word of the macro, with the fetch of it. -/
def turnReckonings (score : Score) (l : Lane) : List Reckoning :=
  let p := l.channel.program
  fetchReckonings p.base p.step ++ match score.word? p.base p.step with
    | none => []
    | some w =>
      executeReckonings score (Operation.ofByte w.byte0) (w.withByte0 0) (l.jumpTo (p.step + 1))

/-- The voice is set up. -/
def loadReckonings (l : Lane) (master : Int8) : List Reckoning :=
  [regionReckoning l.channel.region.savedLength, ⟨.i32, l.channel.volume.toInt * master.toInt⟩]

end Lane

namespace Machine

/-- A word is dispatched. -/
def dispatchReckonings (w : Word) (m : Machine) : List Reckoning :=
  m.channels[m.channelOf w.byte2].receiveReckonings w

/-- The results of a move of a channel. -/
def Move.reckonings (score : Score) (m : Machine) : Move → List Reckoning
  | .countLock i => m.channels[i].lockReckonings
  | .takeEffect i =>
    let code := m.channels[i].reservation.code
    if code = 0 then [] else (m.onChannel i Channel.takeCode).dispatchReckonings ⟨code⟩
  | .word i =>
    (m.lane i).turnReckonings score ++ match (m.lane i).turn score with
      | .starts l w => (m.setLane i l).dispatchReckonings w
      | _ => []
  | .bend i => if 0 < m.channels[i].bending then m.channels[i].bendReckonings else []
  | .load i => (m.lane i).loadReckonings m.master.fade.volume
  | .countWait _ | .wake _ | .halt _ => []

end Machine

/-! ## Frames -/

/-- The frames of a tick. -/
def TickClock.reckonings (c : TickClock) (rate : UInt32) : List Reckoning :=
  let n := TickClock.length c.clocks rate
  let left := c.remainder.toNat + n % 357955
  [⟨.u64, n⟩, ⟨.u64, left⟩] ++
    if 357955 < left then [⟨.u64, n / 357955 + 1⟩, ⟨.u64, left - 357955⟩] else []

namespace Voice

/-- The count at the end of a region. -/
def countReckonings (v : Voice) : List Reckoning :=
  match v.loopMode with
  | .normal => []
  | .armOnCount n => if n = 0 then [] else [⟨.u16, n.toNat - 1⟩]

/-- A frame of a voice whose phase has moved on. -/
def frameReckonings (bank : Bank) (v : Voice) : List Reckoning :=
  let o := v.start.toInt + (v.phase >>> phaseShift).toNat
  let x : Int := (bank.sample o.toNat).toInt * (min v.volume.toNat fullVolume : Nat)
  ⟨.i64, o⟩ :: ((if bank.size ≤ o then [] else [⟨.i32, x⟩, ⟨.i32, v.amplitude bank⟩]) ++
    if v.phase < v.limit then []
    else
      ⟨.u32, v.phase.toNat - v.limit.toNat⟩ ::
        if v.enter.limit < leastLimit then [] else v.enter.countReckonings)

/-- At most so many frames of a voice that plays. -/
def playReckonings (bank : Bank) : Nat → Voice → List Reckoning
  | 0, _ => []
  | n + 1, v =>
    v.advance.frameReckonings bank ++ match v.advance.settle with
      | .plays v _ => playReckonings bank n v
      | .runsOut _ => []

/-- The frames of a voice. -/
def reckonings (bank : Bank) (n : Nat) (v : Voice) : List Reckoning :=
  if v.audible bank then playReckonings bank n v.latch else []

end Voice

/-- The voices that are heard, in the order in which they play. -/
def mixOrder (multi : Bool) : List Slot :=
  ((if multi then [4, 5, 6, 7] else [3]) ++ [0, 1, 2]).map Slot.ofNat

/-! ## Moves -/

/-- A track step is looked up: past the table its fields are read one by one,
    as far as the music data goes. -/
def Score.stepReckonings (score : Score) (position : UInt16) : List Reckoning :=
  let o := score.trackStart + position.toNat * 16
  if position.toNat < score.trackSteps.size then []
  else
    [⟨.u64, position.toNat * 16⟩, ⟨.u64, o⟩] ++
      ((List.range 8).filter fun j => j = 0 ∨ o + j * 2 ≤ score.music.size).flatMap fun j =>
        [⟨.u64, j * 2⟩, ⟨.u64, o + j * 2⟩, ⟨.u64, o + j * 2 + 2⟩]

/-- The clocks of a time share command. -/
def timeShareReckonings (percent : UInt16) : List Reckoning :=
  if percent &&& 0x8000 ≠ 0 then []
  else
    let p := max percent.toUInt8.toInt8.toInt (-0x20)
    [⟨.i32, p + 100⟩, ⟨.i32, usualClocks.toNat * (p + 100)⟩]

namespace Replay

/-- A track step is read. -/
def stepReckonings (score : Score) (r : Replay) : List Reckoning :=
  let position := r.greetFirst.place.current
  score.stepReckonings position ++ match (score.trackStep? position).bind (·.command?) with
    | some (.timeShare percent) => timeShareReckonings percent
    | _ => []

/-- A word of a track is run. -/
def wordReckonings (score : Score) (i : Slot) (r : Replay) : List Reckoning :=
  fetchReckonings r.tracks[i].base r.tracks[i].step ++
    match (Tracks.step score i r.tracks).request with
      | some (.dispatch w) => r.machine.dispatchReckonings w
      | _ => []

/-- The sound of a tick is made. -/
def renderReckonings (bank : Bank) (rate : UInt32) (r : Replay) : List Reckoning :=
  r.clock.reckonings rate ++ (mixOrder r.machine.multi).flatMap fun i =>
    r.machine.voices[i].reckonings bank (r.clock.tick rate).1

/-- The results of a move. -/
def Move.reckonings (score : Score) (rate : UInt32) (r : Replay) : Move → List Reckoning
  | .machine mv => mv.reckonings score r.machine
  | .word i => r.wordReckonings score i
  | .readStep => r.stepReckonings score
  | .render => r.renderReckonings score.bank rate
  | _ => []

/-- The results of some moves, made one after the other. -/
def reckonings (score : Score) (rate : UInt32) : List Move → Replay → List Reckoning
  | [], _ => []
  | mv :: ms, r => mv.reckonings score rate r ++ reckonings score rate ms (mv.apply score rate r)

end Replay

/-! ## What is in range -/

namespace Reckoning

variable {v : Int}

/-- A result between two numbers of its type is in range. -/
theorem fits_of_le {width : Width} (lo hi : Int) (hv : lo ≤ v ∧ v ≤ hi)
    (hw : width.least ≤ lo ∧ hi ≤ width.greatest) : Fits ⟨width, v⟩ :=
  ⟨hw.1.trans hv.1, hv.2.trans hw.2⟩

/-- The product of a vibrato where it may be out of range. -/
def Excessive (x : Reckoning) : Prop :=
  ∃ target offset, x = .sway target offset ∧ 61682 < target.toNat ∧ 30720 < offset.toInt

theorem fits_sway {target : UInt16} {offset : Int16}
    (h : target.toNat ≤ 61682 ∨ offset.toInt ≤ 30720) : (sway target offset).Fits := by
  have ht := target.toNat_lt
  have hlo := offset.le_toInt
  have hhi := offset.toInt_lt
  have ht0 : (0 : Int) ≤ target.toNat := Int.natCast_nonneg _
  refine fits_of_le (-0x80000000) 0x7fffffff ⟨?_, ?_⟩ (by decide)
  · calc (-0x80000000 : Int) ≤ target.toNat * (0x800 - 0x8000) := by omega
      _ ≤ target.toNat * (0x800 + offset.toInt) := Int.mul_le_mul_of_nonneg_left (by omega) ht0
  · rcases h with h | h
    · calc (target.toNat * (0x800 + offset.toInt) : Int)
          ≤ target.toNat * (0x800 + 0x7fff) := Int.mul_le_mul_of_nonneg_left (by omega) ht0
        _ ≤ 0x7fffffff := by omega
    · calc (target.toNat * (0x800 + offset.toInt) : Int)
          ≤ target.toNat * (0x800 + 30720) := Int.mul_le_mul_of_nonneg_left (by omega) ht0
        _ ≤ 0x7fffffff := by omega

theorem fits_or_excessive_sway (target : UInt16) (offset : Int16) :
    (sway target offset).Fits ∨ (sway target offset).Excessive := by
  by_cases h : target.toNat ≤ 61682 ∨ offset.toInt ≤ 30720
  · exact .inl (fits_sway h)
  · rw [not_or, not_le, not_le] at h
    exact .inr ⟨target, offset, rfl, h⟩

end Reckoning

open Reckoning

/-- Some results are in range. -/
def InRange (xs : List Reckoning) : Prop := ∀ x ∈ xs, x.Fits

theorem inRange_nil : InRange [] := List.forall_mem_nil _

theorem InRange.cons {x : Reckoning} {xs : List Reckoning} (hx : x.Fits) (h : InRange xs) :
    InRange (x :: xs) := List.forall_mem_cons.2 ⟨hx, h⟩

theorem inRange_singleton {x : Reckoning} (hx : x.Fits) : InRange [x] := .cons hx inRange_nil

theorem inRange_pair {x y : Reckoning} (hx : x.Fits) (hy : y.Fits) : InRange [x, y] :=
  .cons hx (inRange_singleton hy)

theorem InRange.append {xs ys : List Reckoning} (hx : InRange xs) (hy : InRange ys) :
    InRange (xs ++ ys) := List.forall_mem_append.2 ⟨hx, hy⟩

theorem inRange_ite {xs ys : List Reckoning} {c : Prop} [Decidable c] (hx : c → InRange xs)
    (hy : ¬ c → InRange ys) : InRange (if c then xs else ys) := by
  split
  · next h => exact hx h
  · next h => exact hy h

theorem inRange_flatMap {α : Type} {as : List α} {f : α → List Reckoning}
    (h : ∀ a ∈ as, InRange (f a)) : InRange (as.flatMap f) := by
  intro x hx
  obtain ⟨a, ha, hx⟩ := List.mem_flatMap.1 hx
  exact h a ha x hx

namespace Channel

variable {c : Channel} {x : Reckoning}

theorem Ranged.inRange_lock (h : c.Ranged) : InRange c.lockReckonings := by
  have ht := h.time
  exact inRange_ite
    (fun _ => inRange_singleton (fits_of_le (-2) 254 (by omega) (by decide))) fun _ => inRange_nil

theorem inRange_receive (w : Word) (c : Channel) : InRange (c.receiveReckonings w) := by
  have hb : (w.byte2 >>> 4).toNat ≤ 15 := by
    rw [UInt8.toNat_shiftRight, show (4 : UInt8).toNat % 8 = 4 from rfl, Nat.shiftRight_eq_div_pow]
    have := w.byte2.toNat_lt
    omega
  exact inRange_ite
    (fun _ => inRange_singleton (fits_of_le 1 16 (by omega) (by decide))) fun _ => inRange_nil

theorem inRange_sweep (c : Channel) : InRange c.sweepReckonings := by
  refine inRange_ite (fun _ => inRange_nil) fun h0 =>
    inRange_singleton (fits_of_le 0 254 ?_ (by decide))
  have ht := c.sweep.time.toNat_lt
  have h0 : c.sweep.time.toNat ≠ 0 := fun he => h0 (UInt8.toNat_inj.1 he)
  omega

theorem Swaying.mem_bendReckonings (h : c.Swaying) :
    .sway c.pitch.target (c.vibrato.offset + c.vibrato.width.toInt16) ∈ c.bendReckonings := by
  rw [bendReckonings, h.groundSweep_sweepOn, swayReckonings, if_neg h.vibrato]
  exact List.mem_append_left _ (List.mem_append_right _ (List.mem_cons_of_mem _
    List.mem_cons_self))

theorem inRange_slide (c : Channel) : InRange c.slideReckonings := by
  have hlo := c.slide.rate.le_toInt
  have hhi := c.slide.rate.toInt_lt
  refine inRange_ite (fun _ => inRange_nil) fun _ => inRange_ite (fun _ => ?_) fun _ =>
    inRange_ite (fun _ => ?_) fun _ => inRange_nil
  · exact inRange_singleton (fits_of_le (-0x8000) 0x8100 (by omega) (by decide))
  · exact inRange_singleton (fits_of_le (-0x8000) 0x8100 (by omega) (by decide))

/-- Of what changes from tick to tick all is in range, but for the product of
    the vibrato. -/
theorem fits_bend (h : x ∈ c.bendReckonings) : x.Fits ∨ x.Excessive := by
  rcases List.mem_append.1 h with h | h
  · rcases List.mem_append.1 h with h | h
    · exact .inl (inRange_sweep _ x h)
    · unfold swayReckonings at h
      split at h
      · cases h
      · rcases List.mem_pair.1 h with rfl | rfl
        · refine .inl (fits_of_le (-0x7800) 0x87ff ?_ (by decide))
          have hlo := (c.sweepOn.groundSweep.vibrato.offset +
            c.sweepOn.groundSweep.vibrato.width.toInt16).le_toInt
          have hhi := (c.sweepOn.groundSweep.vibrato.offset +
            c.sweepOn.groundSweep.vibrato.width.toInt16).toInt_lt
          omega
        · exact fits_or_excessive_sway _ _
  · exact .inl (inRange_slide _ x h)

end Channel

/-- All that is read is read from below the thirty-third bit. -/
theorem fits_address {v : Int} (h : 0 ≤ v ∧ v ≤ 0x200000000) : Fits ⟨.u64, v⟩ :=
  fits_of_le 0 0x200000000 h (by decide)

/-- A fetch is in range, whatever is fetched. -/
theorem inRange_fetch (base : UInt32) (step : UInt16) : InRange (fetchReckonings base step) := by
  have hb := base.toNat_lt
  have hs := step.toNat_lt
  exact .cons (fits_address (by omega))
    (inRange_pair (fits_address (by omega)) (fits_address (by omega)))

theorem fits_region (words : UInt16) : (regionReckoning words).Fits := by
  have hw := words.toNat_lt
  exact fits_of_le 0 0x1fffe (by omega) (by decide)

namespace Lane

variable {score : Score} {l : Lane} {w : Word}

theorem inRange_loop (l : Lane) (w : Word) : InRange (l.loopReckonings w) := by
  have hb := w.byte1.toNat_lt
  exact inRange_ite
    (fun _ => inRange_singleton (fits_of_le (-1) 254 (by omega) (by decide))) fun _ => inRange_nil

theorem inRange_note (l : Lane) (base : UInt8) (w : Word) : InRange (l.noteReckonings base w) := by
  have hp := (notePeriod (base + w.byte1)).toNat_lt
  have hf := l.channel.pitch.fineTune.toNat_lt
  have hlo := w.byte3.toInt8.le_toInt
  have hhi := w.byte3.toInt8.toInt_lt
  refine .cons (fits_of_le 0x100 0x1ff (by omega) (by decide))
    (inRange_pair (fits_of_le 0x80 0x27e (by omega) (by decide))
      (fits_of_le 0 0x7fffffff ⟨?_, ?_⟩ (by decide)))
  · exact Int.mul_nonneg (Int.natCast_nonneg _) (by omega)
  · calc ((notePeriod (base + w.byte1)).toNat *
          (0x100 + l.channel.pitch.fineTune.toNat + w.byte3.toInt8.toInt) : Int)
        ≤ (notePeriod (base + w.byte1)).toNat * 638 :=
          Int.mul_le_mul_of_nonneg_left (by omega) (Int.natCast_nonneg _)
      _ ≤ 0x7fffffff := by omega

theorem inRange_waitKeyUp (h : l.channel.Ranged) (w : Word) :
    InRange (l.waitKeyUpReckonings w) := by
  have hj := h.jumps
  have hb := w.byte3.toNat_lt
  refine inRange_ite (fun _ => inRange_nil) fun _ => inRange_ite (fun _ => ?_) fun _ => ?_
  · exact inRange_singleton (fits_of_le (-1) 254 (by omega) (by decide))
  · exact inRange_singleton (fits_of_le (-2) 253 (by omega) (by decide))

theorem inRange_execute (h : l.channel.Ranged) (op : Operation) (w : Word) :
    InRange (executeReckonings score op w l) := by
  cases op with
  | on => exact inRange_ite (fun _ => inRange_singleton (fits_region _)) fun _ => inRange_nil
  | loop => exact inRange_loop l w
  | loopKeyDown => exact inRange_ite (fun _ => inRange_loop l w) fun _ => inRange_nil
  | addVolume =>
    have hv := l.channel.pitch.velocity.toNat_lt
    have hb := w.byte3.toNat_lt
    exact inRange_ite
      (fun _ => inRange_pair (fits_of_le 0 0x2fd (by omega) (by decide))
        (fits_of_le 0 0x3fc (by omega) (by decide))) fun _ => inRange_nil
  | previousNote | addNote | setNote => exact inRange_note l _ w
  | waitKeyUp => exact inRange_waitKeyUp h w
  | _ => exact inRange_nil

theorem inRange_turn (h : l.channel.Ranged) (score : Score) :
    InRange (l.turnReckonings score) := by
  refine (inRange_fetch _ _).append ?_
  split
  · exact inRange_nil
  · exact inRange_execute (by exact h.congr rfl) _ _

theorem inRange_load (l : Lane) (master : Int8) : InRange (l.loadReckonings master) := by
  have hv := l.channel.volume.le_toInt
  have hv' := l.channel.volume.toInt_lt
  have hm := master.le_toInt
  have hm' := master.toInt_lt
  refine inRange_pair (fits_region _) (fits_of_le (-0x4000) 0x4000 ⟨?_, ?_⟩ (by decide))
  · nlinarith
  · nlinarith

end Lane

namespace Machine

variable {m : Machine} {score : Score}

theorem inRange_dispatch (w : Word) (m : Machine) : InRange (m.dispatchReckonings w) :=
  Channel.inRange_receive w _

/-- What a move of a channel reckons is in range, but for what changes from
    tick to tick. -/
theorem inRange_move (h : m.Every Channel.Ranged) {mv : Move} (hmv : ∀ i, mv ≠ .bend i) :
    InRange (mv.reckonings score m) := by
  cases mv with
  | countLock i => exact (h i).inRange_lock
  | takeEffect i => exact inRange_ite (fun _ => inRange_nil) fun _ => inRange_dispatch _ _
  | word i =>
    refine (Lane.inRange_turn (l := m.lane i) (h i) score).append ?_
    split
    · exact inRange_dispatch _ _
    · exact inRange_nil
  | bend i => exact absurd rfl (hmv i)
  | load i => exact Lane.inRange_load _ _
  | countWait | wake | halt => exact inRange_nil

end Machine

theorem TickClock.Carries.inRange {c : TickClock} (h : c.Carries) (rate : UInt32) :
    InRange (c.reckonings rate) := by
  have hc := carries_iff.1 h
  have hl := length_lt c.clocks rate
  have hm : length c.clocks rate % 357955 < 357955 := Nat.mod_lt _ (by decide)
  have hfits : ∀ v : Int, 0 ≤ v ∧ v < 2 ^ 64 → Fits ⟨.u64, v⟩ := fun v hv =>
    fits_of_le 0 (2 ^ 64 - 1) (by omega) (by decide)
  refine (inRange_pair (hfits _ (by omega)) (hfits _ (by omega))).append ?_
  exact inRange_ite (fun _ => inRange_pair (hfits _ (by omega)) (hfits _ (by omega)))
    fun _ => inRange_nil

namespace Voice

theorem inRange_count (v : Voice) : InRange v.countReckonings := by
  unfold countReckonings
  split
  · exact inRange_nil
  · next n _ =>
    refine inRange_ite (fun _ => inRange_nil) fun h0 =>
      inRange_singleton (fits_of_le 0 0xfffe ?_ (by decide))
    have hn := n.toNat_lt
    have h0 : n.toNat ≠ 0 := fun he => h0 (UInt16.toNat_inj.1 he)
    omega

theorem inRange_frame (bank : Bank) (v : Voice) : InRange (v.frameReckonings bank) := by
  have hs := v.start.le_toInt
  have hs' := v.start.toInt_lt
  have hp := (v.phase >>> phaseShift).toNat_lt
  have hx := sample_mul_le (bank.sample (v.start.toInt + (v.phase >>> phaseShift).toNat).toNat)
    (Nat.min_le_right v.volume.toNat fullVolume)
  refine .cons (fits_of_le (-0x80000000) 0x180000000 (by omega) (by decide)) (.append ?_ ?_)
  · refine inRange_ite (fun _ => inRange_nil) fun _ =>
      inRange_pair (fits_of_le (-0x2000) 0x2000 (by omega) (by decide))
        (fits_of_le (-0x8000) 0x8000 ?_ (by decide))
    simp only [amplitude]
    omega
  · refine inRange_ite (fun _ => inRange_nil) fun hp =>
      .cons (fits_of_le 0 0xffffffff ?_ (by decide)) ?_
    · have hle : v.limit.toNat ≤ v.phase.toNat := UInt32.le_iff_toNat_le.1 (UInt32.not_lt.1 hp)
      have hlt := v.phase.toNat_lt
      omega
    · exact inRange_ite (fun _ => inRange_nil) fun _ => inRange_count _

theorem inRange_play (bank : Bank) : ∀ (n : Nat) (v : Voice), InRange (playReckonings bank n v)
  | 0, _ => inRange_nil
  | n + 1, v => by
    rw [playReckonings]
    refine (inRange_frame bank _).append ?_
    split
    · exact inRange_play bank n _
    · exact inRange_nil

theorem inRange_render (bank : Bank) (n : Nat) (v : Voice) : InRange (v.reckonings bank n) :=
  inRange_ite (fun _ => inRange_play bank n _) fun _ => inRange_nil

end Voice

theorem Score.inRange_step {score : Score} (h : score.trackStart < 2 ^ 32) (position : UInt16) :
    InRange (score.stepReckonings position) := by
  have hp := position.toNat_lt
  refine inRange_ite (fun _ => inRange_nil) fun _ => .append ?_ (inRange_flatMap fun j hj => ?_)
  · exact inRange_pair (fits_address (by omega)) (fits_address (by omega))
  · have hj : j < 8 := List.mem_range.1 (List.mem_filter.1 hj).1
    exact .cons (fits_address (by omega))
      (inRange_pair (fits_address (by omega)) (fits_address (by omega)))

theorem inRange_timeShare (percent : UInt16) : InRange (timeShareReckonings percent) := by
  have hp := percent.toUInt8.toInt8.toInt_lt
  have hu : usualClocks.toNat = 14318 := rfl
  refine inRange_ite (fun _ => inRange_nil) fun _ =>
    inRange_pair (fits_of_le 68 227 (by omega) (by decide))
      (fits_of_le 0 0x400000 ?_ (by decide))
  rw [hu]
  omega

end PaulaReplay
