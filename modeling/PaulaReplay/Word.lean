/-
  Word - the four-byte instructions of patterns and macros.

  A word is read as four bytes, `byte0` the most significant, or as its first
  two bytes and the 16-bit number `low` of its last two.

  * `ofBytes` joins four bytes;
  * `withByte0`, `withByte2`, `withByte3` put one byte in place;
  * `ofBytes_bytes`: a word is the join of its bytes.
-/
namespace PaulaReplay

/-- The four digits to base 256 of a number below 2^32, put back in place, are the number. -/
theorem join_digits (n : Nat) (h : n < 4294967296) :
    (n >>> 24 % 256) <<< 24 ||| (n >>> 16 % 256) <<< 16 ||| (n >>> 8 % 256) <<< 8 ||| n % 256
      = n := by
  refine Nat.eq_of_testBit_eq fun i => ?_
  have hb : 32 ≤ i → n.testBit i = false := fun hi =>
    Nat.testBit_lt_two_pow (Nat.lt_of_lt_of_le h (Nat.pow_le_pow_right (by decide : 0 < 2) hi))
  rw [show (256 : Nat) = Nat.pow 2 8 from rfl]
  simp only [Nat.pow_eq, Nat.testBit_or, Nat.testBit_shiftLeft, Nat.testBit_mod_two_pow,
    Nat.testBit_shiftRight]
  grind

/-- No digit to base 256 leaves the word when it is put in place. -/
theorem shiftLeft_digit (n : Nat) {k : Nat} (hk : k ≤ 24) :
    (n % 256) <<< k % 4294967296 = (n % 256) <<< k := by
  refine Nat.mod_eq_of_lt ?_
  have hn : n % 256 ≤ 255 := by omega
  have hp : Nat.pow 2 k ≤ 16777216 := Nat.pow_le_pow_right (by decide : 0 < 2) hk
  have := Nat.mul_le_mul hn hp
  rw [Nat.shiftLeft_eq]
  exact Nat.lt_of_le_of_lt this (by decide)

/-- An instruction of a pattern or a macro. -/
structure Word where
  bits : UInt32
deriving DecidableEq, Repr, Inhabited

namespace Word

/-- The word of four bytes, the most significant first. -/
def ofBytes (b0 b1 b2 b3 : UInt8) : Word :=
  ⟨b0.toUInt32 <<< 24 ||| b1.toUInt32 <<< 16 ||| b2.toUInt32 <<< 8 ||| b3.toUInt32⟩

/-- The most significant byte: which instruction it is. -/
def byte0 (w : Word) : UInt8 := (w.bits >>> 24).toUInt8

/-- The second byte. -/
def byte1 (w : Word) : UInt8 := (w.bits >>> 16).toUInt8

/-- The third byte. -/
def byte2 (w : Word) : UInt8 := (w.bits >>> 8).toUInt8

/-- The least significant byte. -/
def byte3 (w : Word) : UInt8 := w.bits.toUInt8

/-- The last two bytes as one number. -/
def low (w : Word) : UInt16 := w.bits.toUInt16

/-- A word is the join of its bytes. -/
theorem ofBytes_bytes (w : Word) : ofBytes w.byte0 w.byte1 w.byte2 w.byte3 = w := by
  obtain ⟨b⟩ := w
  refine congrArg Word.mk (UInt32.toNat_inj.1 ?_)
  simpa [byte0, byte1, byte2, byte3, UInt32.toNat_or, UInt32.toNat_shiftLeft,
    UInt32.toNat_shiftRight, shiftLeft_digit] using join_digits b.toNat b.toNat_lt

/-- The word with another most significant byte. -/
def withByte0 (w : Word) (v : UInt8) : Word :=
  ⟨(w.bits &&& (0x00ffffff : UInt32)) ||| v.toUInt32 <<< 24⟩

/-- The word with another third byte. -/
def withByte2 (w : Word) (v : UInt8) : Word :=
  ⟨(w.bits &&& (0xffff00ff : UInt32)) ||| v.toUInt32 <<< 8⟩

/-- The word with another least significant byte. -/
def withByte3 (w : Word) (v : UInt8) : Word :=
  ⟨(w.bits &&& (0xffffff00 : UInt32)) ||| v.toUInt32⟩

end Word

end PaulaReplay
