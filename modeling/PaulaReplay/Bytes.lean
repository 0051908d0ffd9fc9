/-
  Bytes - numbers and slices read from a byte string.

  Every number in a music file is written with its most significant byte
  first.  A reader answers `none` when what it is asked for does not lie
  wholly inside the byte string.

  * `u8?`, `u16?`, `u32?` read a number of 8, 16 or 32 bits;
  * `slice?` reads a run of bytes, an empty one also at the very end;
  * `u8?_eq_none_iff`, `u16?_eq_none_iff`, `u32?_eq_none_iff` and
    `slice?_eq_none_iff` say when nothing can be read.
-/
namespace PaulaReplay.Bytes

/-- The byte at `i`. -/
def u8? (b : ByteArray) (i : Nat) : Option UInt8 :=
  if h : i < b.size then some b[i] else none

/-- The 16-bit number at `i`. -/
def u16? (b : ByteArray) (i : Nat) : Option UInt16 :=
  if h : i + 1 < b.size then
    some (b[i].toUInt16 <<< 8 ||| b[i + 1].toUInt16)
  else none

/-- The 32-bit number at `i`. -/
def u32? (b : ByteArray) (i : Nat) : Option UInt32 :=
  if h : i + 3 < b.size then
    some (b[i].toUInt32 <<< 24 ||| b[i + 1].toUInt32 <<< 16 ||| b[i + 2].toUInt32 <<< 8 |||
      b[i + 3].toUInt32)
  else none

/-- The `n` bytes from `i` on. -/
def slice? (b : ByteArray) (i n : Nat) : Option ByteArray :=
  if i + n ≤ b.size then some (b.extract i (i + n)) else none

theorem u8?_eq_none_iff {b : ByteArray} {i : Nat} : u8? b i = none ↔ b.size < i + 1 := by
  unfold u8?; split <;> simp <;> omega

theorem u16?_eq_none_iff {b : ByteArray} {i : Nat} : u16? b i = none ↔ b.size < i + 2 := by
  unfold u16?; split <;> simp <;> omega

theorem u32?_eq_none_iff {b : ByteArray} {i : Nat} : u32? b i = none ↔ b.size < i + 4 := by
  unfold u32?; split <;> simp <;> omega

theorem slice?_eq_none_iff {b : ByteArray} {i n : Nat} :
    slice? b i n = none ↔ b.size < i + n := by
  unfold slice?; split <;> simp <;> omega

end PaulaReplay.Bytes
