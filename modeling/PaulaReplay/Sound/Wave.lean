/-
  Wave - sound as a WAV file.

  The file is a header of 44 bytes and the samples of two channels, 16 bits
  each, least significant byte first.
-/
namespace PaulaReplay.Wave

/-- A 16-bit number, least significant byte first. -/
def push16 (b : ByteArray) (x : UInt16) : ByteArray :=
  (b.push x.toUInt8).push (x >>> 8).toUInt8

/-- A 32-bit number, least significant byte first. -/
def push32 (b : ByteArray) (x : UInt32) : ByteArray :=
  push16 (push16 b x.toUInt16) (x >>> 16).toUInt16

/-- The samples after some bytes. -/
def pushSamples (b : ByteArray) (samples : Array Int16) : ByteArray :=
  samples.foldl (fun b (x : Int16) => push16 b x.toUInt16) b

/-- The header of a file with so many bytes of samples at a rate. -/
def header (rate size : UInt32) : ByteArray :=
  let b := push32 "RIFF".toUTF8 (36 + size)
  let b := push32 (b ++ "WAVEfmt ".toUTF8) 16
  let b := push32 (push16 (push16 b 1) 2) rate
  let b := push16 (push16 (push32 b (rate * 4)) 4) 16
  push32 (b ++ "data".toUTF8) size

/-- The file of some bytes of samples. -/
def file (rate : UInt32) (samples : ByteArray) : ByteArray :=
  header rate (UInt32.ofNat samples.size) ++ samples

end PaulaReplay.Wave
