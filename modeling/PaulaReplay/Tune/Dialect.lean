/-
  Dialect - two tunes that were written for a replayer of their own.

  The two are told by the digest of their music data.

  * `Dialect` says in what a tune departs from the common replay;
  * `Dialect.ofDigest` and `Dialect.ofMusic` recognise the two tunes, and no others:
    `Dialect.ofDigest_eq_common_iff`.
-/
import PaulaReplay.Digest.Md5

namespace PaulaReplay

/-- In what a tune departs from the common replay. -/
structure Dialect where
  /-- Notes carry no fine tune, and a channel that is switched on starts its
      sample at once. -/
  startsAtOnce : Bool
  /-- Switching a channel off sets its volume too. -/
  offSetsVolume : Bool
deriving DecidableEq, Repr

namespace Dialect

/-- The common replay. -/
def common : Dialect := ⟨false, false⟩

/-- The digest of the title music of Danger Freak. -/
def dangerFreak : ByteArray :=
  ⟨#[0x0a, 0x7b, 0xc5, 0x73, 0x1c, 0x51, 0xf8, 0x1b, 0x6c, 0x88, 0xe3, 0xd6, 0x03, 0x13, 0xca,
    0xba]⟩

/-- The digest of the title music of Gem X. -/
def gemX : ByteArray :=
  ⟨#[0x92, 0x31, 0xbe, 0xb5, 0x3a, 0x18, 0xb2, 0xf4, 0xfc, 0x0d, 0x4d, 0xce, 0x0c, 0x1c, 0xa6,
    0x79]⟩

/-- The dialect of the tune whose music data has this digest. -/
def ofDigest (digest : ByteArray) : Dialect :=
  ⟨digest.data == dangerFreak.data, digest.data == gemX.data⟩

/-- All but the two tunes have the common replay. -/
theorem ofDigest_eq_common_iff (digest : ByteArray) :
    ofDigest digest = common ↔ digest ≠ dangerFreak ∧ digest ≠ gemX := by
  have hdata (a b : ByteArray) : (a.data == b.data) = false ↔ a ≠ b :=
    beq_eq_false_iff_ne.trans (not_congr ByteArray.ext_iff.symm)
  rw [ofDigest, common, mk.injEq, hdata, hdata]

/-- The dialect of a tune, told from its music data. -/
def ofMusic (music : ByteArray) : Dialect :=
  ofDigest (Md5.digest music)

end Dialect

end PaulaReplay
