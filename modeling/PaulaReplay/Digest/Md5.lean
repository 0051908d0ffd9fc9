/-
  Md5 - the MD5 digest of a byte string.

  The message is followed by the byte 0x80, zero bytes up to eight short of
  a multiple of 64, and its length in bits as a 64-bit number.  Each block of
  64 bytes is sixteen 32-bit words, least significant byte first, and is
  worked into four words of state in 64 rounds.

  * `pad` is the message with its ending, `Chain` the four words of state;
  * `Chain.round` is one round, `Chain.absorb` one block;
  * `digest` is the sixteen bytes of the final state.
-/
namespace PaulaReplay.Md5

/-- The four words of state. -/
structure Chain where
  a : UInt32
  b : UInt32
  c : UInt32
  d : UInt32
deriving DecidableEq

/-- The state before the first block. -/
def Chain.initial : Chain := ⟨0x67452301, 0xefcdab89, 0x98badcfe, 0x10325476⟩

/-- The constant of each round: the integer part of 2^32 times the absolute
    value of the sine of the round's number, counted from one. -/
def sines : Vector UInt32 64 := #v[
  0xd76aa478, 0xe8c7b756, 0x242070db, 0xc1bdceee, 0xf57c0faf, 0x4787c62a, 0xa8304613, 0xfd469501,
  0x698098d8, 0x8b44f7af, 0xffff5bb1, 0x895cd7be, 0x6b901122, 0xfd987193, 0xa679438e, 0x49b40821,
  0xf61e2562, 0xc040b340, 0x265e5a51, 0xe9b6c7aa, 0xd62f105d, 0x02441453, 0xd8a1e681, 0xe7d3fbc8,
  0x21e1cde6, 0xc33707d6, 0xf4d50d87, 0x455a14ed, 0xa9e3e905, 0xfcefa3f8, 0x676f02d9, 0x8d2a4c8a,
  0xfffa3942, 0x8771f681, 0x6d9d6122, 0xfde5380c, 0xa4beea44, 0x4bdecfa9, 0xf6bb4b60, 0xbebfbc70,
  0x289b7ec6, 0xeaa127fa, 0xd4ef3085, 0x04881d05, 0xd9d4d039, 0xe6db99e5, 0x1fa27cf8, 0xc4ac5665,
  0xf4292244, 0x432aff97, 0xab9423a7, 0xfc93a039, 0x655b59c3, 0x8f0ccc92, 0xffeff47d, 0x85845dd1,
  0x6fa87e4f, 0xfe2ce6e0, 0xa3014314, 0x4e0811a1, 0xf7537e82, 0xbd3af235, 0x2ad7d2bb, 0xeb86d391]

/-- How far each round turns its sum to the left: four amounts for each
    quarter, taken in turn. -/
def turns : Vector UInt32 16 := #v[7, 12, 17, 22, 5, 9, 14, 20, 4, 11, 16, 23, 6, 10, 15, 21]

/-- A word turned left by `n` bits, `n` between 1 and 31. -/
def rotate (x n : UInt32) : UInt32 :=
  (x <<< n) ||| (x >>> (32 - n))

/-- The function that mixes three words of state in a quarter of the
    rounds. -/
def blend (quarter : Nat) (s : Chain) : UInt32 :=
  match quarter with
  | 0 => (s.b &&& s.c) ||| (~~~s.b &&& s.d)
  | 1 => (s.d &&& s.b) ||| (~~~s.d &&& s.c)
  | 2 => s.b ^^^ s.c ^^^ s.d
  | _ => s.c ^^^ (s.b ||| ~~~s.d)

/-- The word of the block that a round takes. -/
def pick (i : Fin 64) : Fin 16 :=
  match i.val / 16 with
  | 0 => Fin.ofNat 16 i.val
  | 1 => Fin.ofNat 16 (5 * i.val + 1)
  | 2 => Fin.ofNat 16 (3 * i.val + 5)
  | _ => Fin.ofNat 16 (7 * i.val)

/-- One of the 64 rounds of a block. -/
def Chain.round (block : Vector UInt32 16) (s : Chain) (i : Fin 64) : Chain :=
  let sum := s.a + blend (i.val / 16) s + sines[i] + block[pick i]
  let turn := turns[Fin.ofNat 16 (i.val / 16 * 4 + i.val % 4)]
  ⟨s.d, s.b + rotate sum turn, s.b, s.c⟩

/-- The state after a block. -/
def Chain.absorb (s : Chain) (block : Vector UInt32 16) : Chain :=
  let t := Fin.foldl 64 (Chain.round block) s
  ⟨s.a + t.a, s.b + t.b, s.c + t.c, s.d + t.d⟩

/-- The `n` lowest bytes of a number, least significant first. -/
def littleEndian : Nat → Nat → List UInt8
  | 0, _ => []
  | n + 1, x => x.toUInt8 :: littleEndian n (x / 256)

/-- The message with its ending. -/
def pad (m : ByteArray) : ByteArray :=
  let zeros := (119 - m.size % 64) % 64
  m ++ ⟨(0x80 :: List.replicate zeros 0 ++ littleEndian 8 (8 * m.size)).toArray⟩

/-- The byte at `i`, zero past the end. -/
def byteAt (m : ByteArray) (i : Nat) : UInt32 :=
  if h : i < m.size then m[i].toUInt32 else 0

/-- The `k`-th block of a padded message. -/
def blockOf (m : ByteArray) (k : Nat) : Vector UInt32 16 :=
  Vector.ofFn fun i =>
    let o := 64 * k + 4 * i.val
    byteAt m o ||| byteAt m (o + 1) <<< 8 ||| byteAt m (o + 2) <<< 16 ||| byteAt m (o + 3) <<< 24

/-- The state after a whole padded message. -/
def Chain.ofMessage (m : ByteArray) : Chain :=
  (List.range (m.size / 64)).foldl (fun s k => s.absorb (blockOf m k)) Chain.initial

/-- The digest of a byte string. -/
def digest (m : ByteArray) : ByteArray :=
  let s := Chain.ofMessage (pad m)
  ⟨([s.a, s.b, s.c, s.d].flatMap fun w => littleEndian 4 w.toNat).toArray⟩

end PaulaReplay.Md5
