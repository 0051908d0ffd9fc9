/-
  Words: a word by its four bytes.

  * `Word.toNat_ofBytes`: the number that four bytes make;
  * `Word.ofBytes_inj`: words are equal just where their bytes are;
  * `Word.byte0_ofBytes` and the like: the bytes are found again;
  * `Word.ofBytes_and_mask`, `Word.ofBytes_xor`, `Word.withByte0_ofBytes`: what
    operations do to the first byte.
-/
import Mathlib.Algebra.Group.Nat.Defs
import PaulaReplay.Word

namespace PaulaReplay

namespace Word

/-- A byte put behind a number. -/
theorem shiftLeft_or_byte (n : Nat) (x : UInt8) : n <<< 8 ||| x.toNat = n * 256 + x.toNat := by
  rw [← Nat.shiftLeft_add_eq_or_of_lt x.toNat_lt, Nat.shiftLeft_eq]

/-- The number that four bytes make. -/
theorem toNat_ofBytes (x y z t : UInt8) : (ofBytes x y z t).bits.toNat =
    ((x.toNat * 256 + y.toNat) * 256 + z.toNat) * 256 + t.toNat := by
  have hin : ∀ (x : UInt8) {k : Nat}, k ≤ 24 → x.toNat <<< k % 4294967296 = x.toNat <<< k :=
    fun x _ hk => by simpa [Nat.mod_eq_of_lt x.toNat_lt] using shiftLeft_digit x.toNat hk
  calc (ofBytes x y z t).bits.toNat
      = x.toNat <<< 24 ||| y.toNat <<< 16 ||| z.toNat <<< 8 ||| t.toNat := by
        simp [ofBytes, UInt32.toNat_or, UInt32.toNat_shiftLeft, hin]
    _ = ((x.toNat <<< 8 ||| y.toNat) <<< 8 ||| z.toNat) <<< 8 ||| t.toNat := by
        simp only [Nat.shiftLeft_or_distrib, ← Nat.shiftLeft_add]
    _ = ((x.toNat * 256 + y.toNat) * 256 + z.toNat) * 256 + t.toNat := by
        simp only [shiftLeft_or_byte]

/-- Words are equal if, and only if, their bytes are. -/
theorem ofBytes_inj {x y z t x' y' z' t' : UInt8} :
    (ofBytes x y z t).bits = (ofBytes x' y' z' t').bits ↔ x = x' ∧ y = y' ∧ z = z' ∧ t = t' := by
  constructor
  · intro h
    have h := congrArg UInt32.toNat h
    rw [toNat_ofBytes, toNat_ofBytes] at h
    have hx := x.toNat_lt
    have hy := y.toNat_lt
    have hz := z.toNat_lt
    have ht := t.toNat_lt
    have hx' := x'.toNat_lt
    have hy' := y'.toNat_lt
    have hz' := z'.toNat_lt
    have ht' := t'.toNat_lt
    simp only [← UInt8.toNat_inj]
    omega
  · rintro ⟨rfl, rfl, rfl, rfl⟩
    rfl

/-- A word with its first byte cut out has a zero there. -/
theorem ofBytes_and_mask (x y z t : UInt8) :
    (ofBytes x y z t).bits &&& 0x00ffffff = (ofBytes 0 y z t).bits := by
  have hy := y.toNat_lt
  have hz := z.toNat_lt
  have ht := t.toNat_lt
  have hzero : (0 : UInt8).toNat = 0 := rfl
  refine UInt32.toNat_inj.1 ?_
  rw [UInt32.toNat_and, toNat_ofBytes, toNat_ofBytes, hzero]
  refine (Nat.and_two_pow_sub_one_eq_mod _ 24).trans ?_
  omega

/-- Bits are flipped above the other ones. -/
theorem shiftLeft_or_xor {r k : Nat} (n m : Nat) (h : r < 2 ^ k) :
    (n <<< k ||| r) ^^^ m <<< k = (n ^^^ m) <<< k ||| r := by
  refine Nat.eq_of_testBit_eq fun i => ?_
  rcases Nat.lt_or_ge i k with hi | hi
  · simp [Nat.not_le.2 hi]
  · have hr : r.testBit i = false :=
      Nat.testBit_lt_two_pow (Nat.lt_of_lt_of_le h (Nat.pow_le_pow_right Nat.two_pos hi))
    simp [hi, hr]

/-- To flip bit 30 of a word is to flip bit 6 of its first byte. -/
theorem ofBytes_xor (x y z t : UInt8) :
    (ofBytes x y z t).bits ^^^ 0x40000000 = (ofBytes (x ^^^ 0x40) y z t).bits := by
  have hy := y.toNat_lt
  have hz := z.toNat_lt
  have ht := t.toNat_lt
  have hrest : (y.toNat * 256 + z.toNat) * 256 + t.toNat < 2 ^ 24 := by omega
  have hnumber : ∀ x : UInt8, (ofBytes x y z t).bits.toNat =
      x.toNat <<< 24 ||| ((y.toNat * 256 + z.toNat) * 256 + t.toNat) := fun x => by
    rw [toNat_ofBytes, ← Nat.shiftLeft_add_eq_or_of_lt hrest, Nat.shiftLeft_eq]
    omega
  refine UInt32.toNat_inj.1 ?_
  rw [UInt32.toNat_xor, hnumber, hnumber, UInt8.toNat_xor]
  exact shiftLeft_or_xor x.toNat 0x40 hrest

section Bytes

variable (x y z t : UInt8)

/-- The bytes of a word are those that it was made of. -/
theorem bytes_ofBytes : (ofBytes x y z t).byte0 = x ∧ (ofBytes x y z t).byte1 = y ∧
    (ofBytes x y z t).byte2 = z ∧ (ofBytes x y z t).byte3 = t :=
  ofBytes_inj.1 (congrArg bits (ofBytes_bytes (ofBytes x y z t)))

@[simp]
theorem byte0_ofBytes : (ofBytes x y z t).byte0 = x := (bytes_ofBytes x y z t).1

@[simp]
theorem byte1_ofBytes : (ofBytes x y z t).byte1 = y := (bytes_ofBytes x y z t).2.1

@[simp]
theorem byte2_ofBytes : (ofBytes x y z t).byte2 = z := (bytes_ofBytes x y z t).2.2.1

@[simp]
theorem byte3_ofBytes : (ofBytes x y z t).byte3 = t := (bytes_ofBytes x y z t).2.2.2

theorem withByte0_ofBytes (v : UInt8) : (ofBytes x y z t).withByte0 v = ofBytes v y z t := by
  have hzero : (0 : UInt8).toUInt32 <<< 24 = 0 := by decide
  rw [withByte0, ofBytes_and_mask]
  simp only [ofBytes, hzero, UInt32.zero_or]
  rw [UInt32.or_comm, ← UInt32.or_assoc, ← UInt32.or_assoc]

end Bytes

/-- The number of the last two bytes. -/
theorem toNat_low (w : Word) : w.low.toNat = w.byte2.toNat * 256 + w.byte3.toNat := by
  have hz := w.byte2.toNat_lt
  have ht := w.byte3.toNat_lt
  have hbits : w.bits.toNat = _ :=
    (congrArg (·.bits.toNat) (ofBytes_bytes w)).symm.trans (toNat_ofBytes _ _ _ _)
  rw [low, UInt32.toNat_toUInt16, hbits]
  omega

end Word

end PaulaReplay
