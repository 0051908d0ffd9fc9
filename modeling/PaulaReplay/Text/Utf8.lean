/-
  Utf8 - reading text from bytes of which some may not be text.

  Bytes that are well-formed UTF-8 give their characters.  A run of bytes
  that begins a character and is then cut short (by a byte that cannot go on
  with it, or by the end) gives one replacement character, and so does every
  byte that can begin no character.

  * `lead` says what a first byte promises: how many bytes follow, and the
    bounds of the next one;
  * `step` takes one byte, `decodeFrom` a list of them;
  * `decode` is the text of a byte string.
-/
namespace PaulaReplay.Utf8

/-- The character that stands for bytes that are no text. -/
def replacement : Char := '\uFFFD'

/-- A character whose bytes are not all read: how many are owed, the bounds
    of the next one, and the bits collected so far. -/
structure Pending where
  owed : Nat
  low : UInt8
  high : UInt8
  bits : Nat

/-- What the first byte of a character of more than one byte promises. -/
def lead (b : UInt8) : Option Pending :=
  if 0xc2 ≤ b ∧ b ≤ 0xdf then some ⟨1, 0x80, 0xbf, b.toNat - 0xc0⟩
  else if b = 0xe0 then some ⟨2, 0xa0, 0xbf, 0⟩
  else if b = 0xed then some ⟨2, 0x80, 0x9f, 0xd⟩
  else if 0xe1 ≤ b ∧ b ≤ 0xef then some ⟨2, 0x80, 0xbf, b.toNat - 0xe0⟩
  else if b = 0xf0 then some ⟨3, 0x90, 0xbf, 0⟩
  else if b = 0xf4 then some ⟨3, 0x80, 0x8f, 4⟩
  else if 0xf1 ≤ b ∧ b ≤ 0xf3 then some ⟨3, 0x80, 0xbf, b.toNat - 0xf0⟩
  else none

/-- A byte met between two characters. -/
def start (b : UInt8) : List Char × Option Pending :=
  if b < 0x80 then ([Char.ofNat b.toNat], none)
  else match lead b with
    | some p => ([], some p)
    | none => ([replacement], none)

/-- One byte: the characters it completes, and what is then owed. -/
def step : Option Pending → UInt8 → List Char × Option Pending
  | none, b => start b
  | some p, b =>
    if p.low ≤ b ∧ b ≤ p.high then
      let bits := p.bits * 64 + (b.toNat - 0x80)
      if p.owed ≤ 1 then ([Char.ofNat bits], none)
      else ([], some ⟨p.owed - 1, 0x80, 0xbf, bits⟩)
    else
      let (cs, q) := start b
      (replacement :: cs, q)

/-- The characters of a list of bytes, read on from a pending one. -/
def decodeFrom : Option Pending → List UInt8 → List Char
  | none, [] => []
  | some _, [] => [replacement]
  | p, b :: rest => (step p b).1 ++ decodeFrom (step p b).2 rest

/-- The text of a byte string. -/
def decode (b : ByteArray) : String :=
  String.ofList (decodeFrom none b.toList)

end PaulaReplay.Utf8
