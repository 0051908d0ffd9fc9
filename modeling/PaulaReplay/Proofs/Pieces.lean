/-
  Pieces: what is read in a piece of a byte string.

  * `u8?_append_left`, `u8?_append_right`, `u8?_extract`, `u8?_replicate`: the
    bytes of byte strings that were joined, cut or filled;
  * `Agree`: two byte strings have the same bytes from two places on;
    `Agree.u8?`, `Agree.u16?`, `Agree.u32?`, `Agree.slice?`: what is read there
    is the same;
  * `ext_u8?`: byte strings with the same bytes are the same.
-/
import Mathlib.Tactic.SplitIfs
import PaulaReplay.Bytes

namespace PaulaReplay.Bytes

/-! ## Bytes -/

theorem u8?_of_lt {b : ByteArray} {i : Nat} (h : i < b.size) : u8? b i = some b[i] := dif_pos h

theorem u8?_of_le {b : ByteArray} {i : Nat} (h : b.size ≤ i) : u8? b i = none :=
  dif_neg (Nat.not_lt.2 h)

/-- Byte strings with the same bytes are the same. -/
theorem ext_u8? {a b : ByteArray} (h : ∀ i, u8? a i = u8? b i) : a = b := by
  have hsize : a.size = b.size := by
    have ha := h a.size
    have hb := h b.size
    rw [u8?_of_le (Nat.le_refl _)] at ha hb
    have ha' := u8?_eq_none_iff.1 ha.symm
    have hb' := u8?_eq_none_iff.1 hb
    omega
  refine ByteArray.ext_getElem hsize fun i ha hb => ?_
  have hi := h i
  rw [u8?_of_lt ha, u8?_of_lt hb] at hi
  exact Option.some.inj hi

theorem u8?_append_left {a : ByteArray} (b : ByteArray) {i : Nat} (h : i < a.size) :
    u8? (a ++ b) i = u8? a i := by
  rw [u8?_of_lt h, u8?_of_lt (by rw [ByteArray.size_append]; omega),
    ByteArray.getElem_append_left h]

theorem u8?_append_right (a b : ByteArray) (i : Nat) : u8? (a ++ b) (a.size + i) = u8? b i := by
  by_cases h : i < b.size
  · rw [u8?_of_lt h, u8?_of_lt (by rw [ByteArray.size_append]; omega),
      ByteArray.getElem_append_right (Nat.le_add_right _ _)]
    simp
  · rw [u8?_of_le (Nat.not_lt.1 h), u8?_of_le (by rw [ByteArray.size_append]; omega)]

theorem u8?_extract (b : ByteArray) {start stop i : Nat} (h : start + i < stop) :
    u8? (b.extract start stop) i = u8? b (start + i) := by
  by_cases hb : start + i < b.size
  · rw [u8?_of_lt hb, u8?_of_lt (by rw [ByteArray.size_extract]; omega), ByteArray.getElem_extract]
  · rw [u8?_of_le (Nat.not_lt.1 hb), u8?_of_le (by rw [ByteArray.size_extract]; omega)]

theorem size_replicate (n : Nat) (v : UInt8) : (⟨Array.replicate n v⟩ : ByteArray).size = n :=
  Array.size_replicate

theorem u8?_replicate {n i : Nat} (v : UInt8) (h : i < n) :
    u8? ⟨Array.replicate n v⟩ i = some v := by
  rw [u8?_of_lt ((size_replicate n v).symm ▸ h)]
  exact congrArg some (Array.getElem_replicate _)

/-! ## Numbers -/

theorem u16?_eq_u8? (b : ByteArray) (i : Nat) : u16? b i = (u8? b i).bind fun x =>
    (u8? b (i + 1)).map fun y => x.toUInt16 <<< 8 ||| y.toUInt16 := by
  unfold u16?
  split
  · next h =>
    rw [u8?_of_lt h, u8?_of_lt (by omega)]
    rfl
  · next h =>
    rw [u8?_of_le (Nat.not_lt.1 h)]
    cases u8? b i <;> rfl

theorem u32?_eq_u8? (b : ByteArray) (i : Nat) : u32? b i = (u8? b i).bind fun x =>
    (u8? b (i + 1)).bind fun y => (u8? b (i + 2)).bind fun z => (u8? b (i + 3)).map fun w =>
      x.toUInt32 <<< 24 ||| y.toUInt32 <<< 16 ||| z.toUInt32 <<< 8 ||| w.toUInt32 := by
  unfold u32?
  split
  · next h =>
    rw [u8?_of_lt h, u8?_of_lt (i := i) (by omega), u8?_of_lt (i := i + 1) (by omega),
      u8?_of_lt (i := i + 2) (by omega)]
    rfl
  · next h =>
    rw [u8?_of_le (Nat.not_lt.1 h)]
    cases u8? b i <;> cases u8? b (i + 1) <;> cases u8? b (i + 2) <;> rfl

/-! ## Stretches -/

/-- The `n` bytes of two byte strings from two places on are the same, also in
    whether they are there. -/
def Agree (a : ByteArray) (i : Nat) (b : ByteArray) (j n : Nat) : Prop :=
  ∀ k < n, u8? a (i + k) = u8? b (j + k)

theorem agree_append_left (a b : ByteArray) : Agree (a ++ b) 0 a 0 a.size :=
  fun k hk => u8?_append_left b (by omega)

theorem agree_append_right (a b : ByteArray) (n : Nat) : Agree (a ++ b) a.size b 0 n :=
  fun k _ => by rw [u8?_append_right, Nat.zero_add]

namespace Agree

variable {a b c : ByteArray} {i j k m n : Nat}

theorem symm (h : Agree a i b j n) : Agree b j a i n := fun k hk => (h k hk).symm

theorem trans (h : Agree a i b j n) (h' : Agree b j c m n) : Agree a i c m n :=
  fun k hk => (h k hk).trans (h' k hk)

theorem mono (h : Agree a i b j n) (hm : m ≤ n) : Agree a i b j m :=
  fun k hk => h k (Nat.lt_of_lt_of_le hk hm)

theorem skip (h : Agree a i b j n) (hk : k + m ≤ n) : Agree a (i + k) b (j + k) m :=
  fun l hl => by
    rw [Nat.add_assoc, Nat.add_assoc]
    exact h _ (by omega)

theorem u8? (h : Agree a i b j n) (hk : k + 1 ≤ n) : Bytes.u8? a (i + k) = Bytes.u8? b (j + k) :=
  h k hk

theorem u16? (h : Agree a i b j n) (hk : k + 2 ≤ n) :
    Bytes.u16? a (i + k) = Bytes.u16? b (j + k) := by
  have h0 : Bytes.u8? a (i + k) = Bytes.u8? b (j + k) := h k (by omega)
  have h1 : Bytes.u8? a (i + k + 1) = Bytes.u8? b (j + k + 1) := h (k + 1) (by omega)
  rw [u16?_eq_u8?, u16?_eq_u8?, h0, h1]

theorem u32? (h : Agree a i b j n) (hk : k + 4 ≤ n) :
    Bytes.u32? a (i + k) = Bytes.u32? b (j + k) := by
  have h0 : Bytes.u8? a (i + k) = Bytes.u8? b (j + k) := h k (by omega)
  have h1 : Bytes.u8? a (i + k + 1) = Bytes.u8? b (j + k + 1) := h (k + 1) (by omega)
  have h2 : Bytes.u8? a (i + k + 2) = Bytes.u8? b (j + k + 2) := h (k + 2) (by omega)
  have h3 : Bytes.u8? a (i + k + 3) = Bytes.u8? b (j + k + 3) := h (k + 3) (by omega)
  rw [u32?_eq_u8?, u32?_eq_u8?, h0, h1, h2, h3]

theorem slice? (h : Agree a i b j n) (hm : 0 < m) (hk : k + m ≤ n) :
    Bytes.slice? a (i + k) m = Bytes.slice? b (j + k) m := by
  have h := h.skip hk
  -- the last byte tells whether the slice lies in the byte string
  have hfits : i + k + m ≤ a.size ↔ j + k + m ≤ b.size := by
    have hlast := h (m - 1) (by omega)
    have ha := u8?_eq_none_iff (b := a) (i := i + k + (m - 1))
    have hb := u8?_eq_none_iff (b := b) (i := j + k + (m - 1))
    rw [hlast, hb] at ha
    omega
  unfold Bytes.slice?
  split_ifs with hi hj hj
  · refine congrArg some (ext_u8? fun l => ?_)
    by_cases hl : l < m
    · rw [u8?_extract _ (by omega), u8?_extract _ (by omega), h l hl]
    · rw [u8?_of_le (by rw [ByteArray.size_extract]; omega),
        u8?_of_le (by rw [ByteArray.size_extract]; omega)]
  · exact absurd (hfits.1 hi) hj
  · exact absurd (hfits.2 hj) hi
  · rfl

/-- A piece is cut out where its bytes are. -/
theorem slice?_eq_some (h : Agree a i c 0 c.size) (hfits : i + c.size ≤ a.size) :
    Bytes.slice? a i c.size = some c := by
  rw [Bytes.slice?, if_pos hfits]
  refine congrArg some (ext_u8? fun k => ?_)
  by_cases hk : k < c.size
  · rw [u8?_extract _ (by omega), h k hk, Nat.zero_add]
  · rw [u8?_of_le (Nat.not_lt.1 hk), u8?_of_le (by rw [ByteArray.size_extract]; omega)]

end Agree

end PaulaReplay.Bytes
