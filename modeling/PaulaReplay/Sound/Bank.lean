/-
  Bank - the recorded sounds of a tune.

  A bank is a run of signed 8-bit samples, addressed from its start; outside
  it there is silence.
-/
namespace PaulaReplay

/-- The samples of a tune, each stored as the byte of its two's complement. -/
structure Bank where
  bytes : ByteArray

namespace Bank

/-- The number of samples. -/
def size (b : Bank) : Nat := b.bytes.size

/-- The sample at `i`, silence outside the bank. -/
def sample (b : Bank) (i : Nat) : Int8 :=
  if h : i < b.bytes.size then b.bytes[i].toInt8 else 0

theorem sample_of_size_le {b : Bank} {i : Nat} (h : b.size ≤ i) : b.sample i = 0 := by
  simp only [sample, size] at *
  rw [dif_neg (by omega)]

end Bank

end PaulaReplay
