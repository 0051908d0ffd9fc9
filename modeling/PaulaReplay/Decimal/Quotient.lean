/-
  Quotient - a quotient of two numbers, written with a few decimals.

  The quotient is first rounded to a binary number of 53 bits, and that one,
  exactly as it is, to the decimals.  Both times a half goes to the even
  neighbour.

  * `roundDiv` is a quotient rounded to a whole number;
  * `Binary` is a binary number, `Binary.nearest` the one next to a quotient;
  * `Binary.fixed` writes it with a number of decimals;
  * `roundDiv_of_dvd` and `two_mul_roundDiv_le` say how far rounding goes.
-/
import PaulaReplay.Text.Column

namespace PaulaReplay.Decimal

/-- A quotient rounded to the nearest whole number, a half to the even one. -/
def roundDiv (n d : Nat) : Nat :=
  let q := n / d
  let r := n % d
  if 2 * r < d then q else if d < 2 * r then q + 1 else q + q % 2

theorem roundDiv_of_dvd {n d : Nat} (hd : 0 < d) (h : d ∣ n) : roundDiv n d = n / d := by
  simp [roundDiv, Nat.mod_eq_zero_of_dvd h, hd]

theorem two_mul_roundDiv_le {n d : Nat} (hd : 0 < d) :
    2 * (d * roundDiv n d) ≤ 2 * n + d ∧ 2 * n ≤ 2 * (d * roundDiv n d) + d := by
  have h := Nat.div_add_mod n d
  have hr := Nat.mod_lt n hd
  unfold roundDiv
  generalize n / d = q at *
  generalize n % d = r at *
  dsimp only
  split
  · omega
  · split
    · rw [Nat.mul_add]; omega
    · obtain h2 | h2 := Nat.mod_two_eq_zero_or_one q <;> rw [h2, Nat.mul_add] <;> omega

/-- The binary number `mantissa * 2 ^ up / 2 ^ down`. -/
structure Binary where
  mantissa : Nat
  up : Nat
  down : Nat
deriving DecidableEq, Repr

/-- The bits of a mantissa. -/
def mantissaBits : Nat := 53

namespace Binary

/-- The binary number of 53 bits that is next to a quotient, given how far the
    quotient is first moved up. -/
def moved (n d down : Nat) : Binary := ⟨roundDiv (n <<< down) d, 0, down⟩

/-- The binary number of 53 bits that is next to the quotient of two positive
    numbers. -/
def nearest (n d : Nat) : Binary :=
  if n / d < 1 <<< (mantissaBits - 1) then
    let down := mantissaBits + d.log2 - n.log2
    if (n <<< down) / d < 1 <<< mantissaBits then moved n d down else moved n d (down - 1)
  else
    let up := (n / d).log2 - (mantissaBits - 1)
    ⟨roundDiv n (d <<< up), up, 0⟩

/-- A binary number with so many decimals. -/
def fixed (b : Binary) (places : Nat) : String :=
  let unit := Nat.pow 10 places
  let n := roundDiv ((b.mantissa <<< b.up) * unit) (1 <<< b.down)
  Column.decimal 1 (n / unit) ++ "." ++ Column.decimal places (n % unit)

end Binary

end PaulaReplay.Decimal
