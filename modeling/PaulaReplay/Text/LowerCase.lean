/-
  LowerCase - how long a text becomes in lower case.

  Nearly every character takes as many bytes of UTF-8 as its lower-case form.
  The table lists the others; a full stop is its own lower-case form and is
  part of no other one.

  * `size` is the number of bytes of the lower-case form of a character;
  * `offsetOf` is the byte offset a place in a text has once the text is in
    lower case.
-/
namespace PaulaReplay.LowerCase

/-- The characters whose lower-case form is longer than they are, by one
    byte: a capital I with a dot gains a combining dot, and two barred
    letters have lower-case forms further up. -/
def growing : List Nat := [0x130, 0x23a, 0x23e]

/-- The characters whose lower-case form is one byte shorter. -/
def shrinking : List Nat :=
  [0x1e9e, 0x2126, 0x212b, 0x2c62, 0x2c64, 0x2c6d, 0x2c6e, 0x2c6f, 0x2c70, 0x2c7e, 0x2c7f,
    0xa78d, 0xa7aa, 0xa7ab, 0xa7ac, 0xa7ad, 0xa7ae, 0xa7b0, 0xa7b1, 0xa7b2, 0xa7c5, 0xa7cb,
    0xa7dc]

/-- The sign for kelvin, which becomes a plain letter. -/
def kelvin : Nat := 0x212a

/-- The number of bytes of the lower-case form of a character. -/
def size (c : Char) : Nat :=
  if c.toNat ∈ growing then c.utf8Size + 1
  else if c.toNat ∈ shrinking then c.utf8Size - 1
  else if c.toNat = kelvin then c.utf8Size - 2
  else c.utf8Size

/-- The number of bytes of a text in lower case. -/
def offsetOf (cs : List Char) : Nat :=
  cs.foldl (fun n c => n + size c) 0

end PaulaReplay.LowerCase
