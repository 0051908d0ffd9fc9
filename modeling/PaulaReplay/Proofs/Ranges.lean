/-
  Ranges: the numbers that the registers of a channel hold.

  * `Channel.Ranged`: a loop jumps 255 times at most, a lock holds for 256
    ticks at most, a velocity has four bits, and a note is never a word that
    slides, locks or sets an effect;
  * `Lane.ranged_turn`, `Channel.Ranged.receive`: words keep this;
  * `Replay.Ranged.apply`: so does each move, and `Reachable.ranged` says it of
    all that a host comes to.
-/
import PaulaReplay.Proofs.Frames

namespace PaulaReplay

/-! ## Numbers -/

theorem toInt_sub_one {a : Int16} (h : -32768 < a.toInt) : (a - 1).toInt = a.toInt - 1 := by
  have hlt := a.toInt_lt
  rw [Int16.toInt_sub, Int16.toInt_one]
  exact Int.bmod_eq_of_le (by omega) (by omega)

theorem toInt_byte (b : UInt8) : b.toUInt16.toInt16.toInt = b.toNat := by
  have hb := b.toNat_lt
  show b.toUInt16.toBitVec.toInt = _
  rw [BitVec.toInt_eq_toNat_of_lt]
  · simp
  · simp only [UInt16.toNat_toBitVec, UInt8.toNat_toUInt16]
    omega

theorem toInt_byte_sub_one (b : UInt8) : (b.toUInt16.toInt16 - 1).toInt = b.toNat - 1 := by
  rw [toInt_sub_one (by rw [toInt_byte]; omega), toInt_byte]

theorem jumps_none : -1 ≤ (-1 : Int16).toInt ∧ (-1 : Int16).toInt ≤ 254 := by decide

theorem velocity_le (b : UInt8) : (b >>> 4 &&& 0xf).toNat ≤ 15 := by
  rw [UInt8.toNat_and]
  exact Nat.and_le_right

theorem low_bits_lt (b : UInt8) : b &&& 0x3f < 0xc0 := by
  have h : b.toNat &&& 63 ≤ 63 := Nat.and_le_right
  rw [UInt8.lt_iff_toNat_lt, UInt8.toNat_and]
  exact Nat.lt_of_le_of_lt h (by decide)

/-! ## Words -/

theorem setWidth_byte2 (b : BitVec 32) (v : BitVec 8) :
    ((b &&& 0xffff00ff#32 ||| v.setWidth 32 <<< 8) >>> 24).setWidth 8 =
      (b >>> 24).setWidth 8 := by
  ext i hi
  interval_cases i <;> simp

theorem setWidth_byte0 (b : BitVec 32) (v : BitVec 8) :
    ((b &&& 0x00ffffff#32 ||| v.setWidth 32 <<< 24) >>> 24).setWidth 8 = v := by
  ext i hi
  interval_cases i <;> simp

theorem Word.byte0_withByte2 (w : Word) (v : UInt8) : (w.withByte2 v).byte0 = w.byte0 :=
  UInt8.toBitVec_inj.1 (setWidth_byte2 w.bits.toBitVec v.toBitVec)

theorem Word.byte0_withByte0 (w : Word) (v : UInt8) : (w.withByte0 v).byte0 = v :=
  UInt8.toBitVec_inj.1 (setWidth_byte0 w.bits.toBitVec v.toBitVec)

/-- Below the first byte nothing changes. -/
theorem setWidth_shiftRight_byte0 (b : BitVec 32) (v : BitVec 8) {k n : Nat} (h : k + n ≤ 24) :
    ((b &&& 0x00ffffff#32 ||| v.setWidth 32 <<< 24) >>> k).setWidth n = (b >>> k).setWidth n := by
  have hmask : 0x00ffffff#32 = (BitVec.allOnes 24).setWidth 32 := by decide
  ext i hi
  have hlow : k + i < 24 := by omega
  have hin : k + i < 32 := by omega
  simp only [hmask, BitVec.getElem_setWidth, BitVec.getLsbD_ushiftRight, BitVec.getLsbD_or,
    BitVec.getLsbD_and, BitVec.getLsbD_setWidth, BitVec.getLsbD_shiftLeft, BitVec.getLsbD_allOnes,
    hlow, hin, decide_true, Bool.not_true, Bool.and_false, Bool.false_and, Bool.and_true,
    Bool.or_false]

theorem Word.byte1_withByte0 (w : Word) (v : UInt8) : (w.withByte0 v).byte1 = w.byte1 :=
  UInt8.toBitVec_inj.1 (setWidth_shiftRight_byte0 w.bits.toBitVec v.toBitVec (by decide))

theorem Word.byte2_withByte0 (w : Word) (v : UInt8) : (w.withByte0 v).byte2 = w.byte2 :=
  UInt8.toBitVec_inj.1 (setWidth_shiftRight_byte0 w.bits.toBitVec v.toBitVec (by decide))

theorem Word.low_withByte0 (w : Word) (v : UInt8) : (w.withByte0 v).low = w.low :=
  UInt16.toBitVec_inj.1
    (setWidth_shiftRight_byte0 (k := 0) w.bits.toBitVec v.toBitVec (by decide))

/-! ## Ranges -/

/-- The registers of a channel that are kept in ranges of their own. -/
structure Channel.Ranged (c : Channel) : Prop where
  jumps : -1 ≤ c.program.jumps.toInt ∧ c.program.jumps.toInt ≤ 254
  time : -1 ≤ c.reservation.time.toInt ∧ c.reservation.time.toInt ≤ 255
  velocity : c.pitch.velocity.toNat ≤ 15
  note : c.pitch.note < 0xc0
  previousNote : c.pitch.previousNote < 0xc0

namespace Channel

variable {c c' : Channel} {score : Score}

theorem Ranged.congr (h : c.Ranged) (he : c'.registers = c.registers) : c'.Ranged := by
  simp only [registers, Prod.mk.injEq] at he
  obtain ⟨hj, ht, hv, hn, hp⟩ := he
  exact ⟨by rw [hj]; exact h.jumps, by rw [ht]; exact h.time, by rw [hv]; exact h.velocity,
    by rw [hn]; exact h.note, by rw [hp]; exact h.previousNote⟩

theorem ranged_default : Ranged {} := ⟨by decide, by decide, by decide, by decide, by decide⟩

theorem Ranged.countLock (h : c.Ranged) : c.countLock.Ranged := by
  unfold Channel.countLock
  split
  · next h0 =>
    have ht := h.time
    have h0 : 0 ≤ c.reservation.time.toInt := Int16.le_iff_toInt_le.1 h0
    refine ⟨h.jumps, ?_, h.velocity, h.note, h.previousNote⟩
    rw [toInt_sub_one (by omega)]
    omega
  · exact h.congr rfl

theorem Ranged.bend (h : c.Ranged) : c.bend.Ranged :=
  h.congr ((registers_swell _).trans (registers_of_kept (kept_bent c)))

/-- A channel keeps its ranges whatever word comes to it. -/
theorem Ranged.receive (h : c.Ranged) (w : Word) : (c.receive score w).Ranged := by
  unfold Channel.receive
  split
  · -- a lock
    refine ⟨h.jumps, ?_, h.velocity, h.note, h.previousNote⟩
    have hb := w.byte3.toNat_lt
    simp only [lockFor, toInt_byte]
    omega
  · split
    · exact h
    · split
      · next hnote =>
        split
        · exact ⟨jumps_none, h.time, velocity_le _, hnote, h.note⟩
        · exact h.congr rfl
      · split
        · exact ⟨h.jumps, h.time, h.velocity, low_bits_lt _, h.previousNote⟩
        · refine h.congr ?_
          unfold setEffect
          split_ifs <;> rfl

end Channel

namespace Lane

variable {score : Score} {l : Lane} {w : Word}

theorem ranged_withJumps (h : l.channel.Ranged) {jumps : Int16}
    (hj : -1 ≤ jumps.toInt ∧ jumps.toInt ≤ 254) :
    ({ l.channel with program.jumps := jumps } : Channel).Ranged :=
  ⟨hj, h.time, h.velocity, h.note, h.previousNote⟩

theorem ranged_loop (h : l.channel.Ranged) (w : Word) : (l.loop w).channel.Ranged := by
  have hj := h.jumps
  have hb := w.byte1.toNat_lt
  unfold loop
  simp only
  split
  · next h0 => exact ranged_withJumps h (by rw [h0]; decide)
  · next h0 =>
    have h0 : l.channel.program.jumps.toInt ≠ 0 := fun he => h0 (Int16.toInt_inj.1 he)
    have hleft : -1 ≤ (if l.channel.program.jumps - 1 < 0 then w.byte1.toUInt16.toInt16 - 1
          else l.channel.program.jumps - 1).toInt ∧
        (if l.channel.program.jumps - 1 < 0 then w.byte1.toUInt16.toInt16 - 1
          else l.channel.program.jumps - 1).toInt ≤ 254 := by
      split
      · rw [toInt_byte_sub_one]
        omega
      · next hneg =>
        have hneg : ¬ (l.channel.program.jumps - 1).toInt < 0 :=
          fun hlt => hneg (Int16.lt_iff_toInt_lt.2 hlt)
        rw [toInt_sub_one (by omega)] at hneg ⊢
        omega
    exact (ranged_withJumps h hleft).congr rfl

theorem ranged_waitKeyUp (h : l.channel.Ranged) (w : Word) :
    (l.waitKeyUp w).lane.channel.Ranged := by
  have hj := h.jumps
  have hb := w.byte3.toNat_lt
  unfold waitKeyUp
  simp only
  split
  · exact h
  · split
    · exact ranged_withJumps h jumps_none
    · next h0 =>
      have h0 : l.channel.program.jumps.toInt ≠ 0 := fun he => h0 (Int16.toInt_inj.1 he)
      have hleft : -1 ≤ (if l.channel.program.jumps = -1 then w.byte3.toUInt16.toInt16 - 1
            else l.channel.program.jumps - 1).toInt ∧
          (if l.channel.program.jumps = -1 then w.byte3.toUInt16.toInt16 - 1
            else l.channel.program.jumps - 1).toInt ≤ 254 := by
        split
        · rw [toInt_byte_sub_one]
          omega
        · next h1 =>
          have h1 : l.channel.program.jumps.toInt ≠ -1 := fun he => h1 (Int16.toInt_inj.1 he)
          rw [toInt_sub_one (by omega)]
          omega
      exact (ranged_withJumps h hleft).congr rfl

theorem ranged_jump (h : l.channel.Ranged) (w : Word) :
    (jump l score w).lane.channel.Ranged := by
  unfold jump
  split
  · exact (ranged_withJumps h jumps_none).congr rfl
  · exact h.congr rfl

theorem ranged_execute (h : l.channel.Ranged) (op : Operation) :
    (execute score op w l).lane.channel.Ranged := by
  cases op with
  | loop => exact ranged_loop h w
  | loopKeyDown =>
    rw [execute]
    split
    · exact ranged_loop h w
    · exact h
  | waitKeyUp => exact ranged_waitKeyUp h w
  | call =>
    rw [execute]
    exact ranged_jump (by exact h.congr rfl) w
  | jump => exact ranged_jump h w
  | _ => exact h.congr (registers_execute rfl)

theorem ranged_turn (h : l.channel.Ranged) (score : Score) :
    (l.turn score).lane.channel.Ranged := by
  unfold turn
  simp only
  split
  · exact h.congr rfl
  · exact ranged_execute (by exact h.congr rfl) _

end Lane

/-! ## Machines and replays -/

namespace Machine

variable {m : Machine} {score : Score} {rate : UInt32}

theorem every_ranged_apply (h : m.Every Channel.Ranged) (mv : Move) :
    (mv.apply score rate m).Every Channel.Ranged := by
  cases mv with
  | countLock i => exact h.setChannel i (h i).countLock
  | takeEffect i =>
    unfold Move.apply takeEffect
    simp only
    split
    · exact h
    · have htake : (m.onChannel i Channel.takeCode).Every Channel.Ranged :=
        h.setChannel i ((h i).congr rfl)
      exact htake.dispatch _ fun j => (htake j).receive _
  | countWait i =>
    exact h.setChannel i ((h i).congr (Channel.registers_of_kept (Channel.kept_countWait _)))
  | wake i => exact h.setChannel i ((h i).congr rfl)
  | word i =>
    have hturn := Lane.ranged_turn (l := m.lane i) (h i) score
    refine h.runWord i hturn fun l w ht j => ?_
    rw [ht] at hturn
    exact (h.setChannel i hturn j).receive w
  | halt i => exact h.setChannel i ((h i).congr rfl)
  | bend i => exact h.bend i (fun _ hc => hc.congr rfl) fun _ hc => hc.bend
  | load i => exact h

end Machine

namespace Replay

variable {r : Replay} {score : Score} {rate : UInt32}

/-- The registers of all channels are in their ranges. -/
def Ranged (r : Replay) : Prop := r.machine.Every Channel.Ranged

/-- A sub-song starts with all channels in their ranges. -/
theorem ranged_reset (multi : Bool) : (initial multi).reset.Ranged := by
  have hreset : ∀ multi, (initial multi).reset.machine.channels =
      Octet.replicate (Channel.cleared {}).silenced := by decide +kernel
  intro i
  rw [hreset, Octet.getElem_replicate]
  exact ⟨by decide, by decide, by decide, by decide, by decide⟩

theorem Ranged.apply (h : r.Ranged) (mv : Move) : (mv.apply score rate r).Ranged := by
  have hsilenced : ∀ c : Channel, c.Ranged → c.silenced.Ranged := fun _ hc => hc.congr rfl
  cases mv with
  | machine mv => exact Machine.every_ranged_apply h mv
  | enter i => exact every_enterTrack h hsilenced i
  | word i => exact every_runWord h i fun w _ _ hc => hc.receive w
  | leave => exact h.congr (congrArg Prod.fst (sounding_leave r))
  | readStep => exact h.congr (channels_readStep r score)
  | giveUp => exact h.congr (congrArg Prod.fst (sounding_reachEnd _))
  | render => exact every_render h (fun _ hc => hc.congr rfl) _ _
  | reset multi => exact ranged_reset multi
  | select n => exact h.congr (congrArg Prod.fst (sounding_selectSong r score n))
  | aim position e => exact h.congr (congrArg Prod.fst (sounding_aim r position e))
  | reserve i code priority => exact h.setChannel i ((h i).congr rfl)
  | _ => exact h

end Replay

namespace Player

variable {p : Player} {allowed : Player → Action → Prop}

theorem Reachable.ranged (h : Reachable allowed p) : p.replay.Ranged :=
  h.replay_keeps (fun multi i => by
    show Channel.Ranged (Octet.replicate {})[i]
    rw [Octet.getElem_replicate]
    exact Channel.ranged_default) fun _ _ _ mv hr => hr.apply mv

end Player

end PaulaReplay
