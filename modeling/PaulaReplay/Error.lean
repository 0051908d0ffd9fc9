/-
  Error - why a tune cannot be read or played.

  A cause is a constructor; its wording is in `message` alone.

  * `FormatError`: the bytes are no tune, or a request does not fit it;
  * `LoadError`: the tune is recognised and its contents are broken;
  * `FileError`: a file cannot be read or written;
  * `Error` joins the three, and one more for a file name that cannot be cut
    at its full stop.
-/
import PaulaReplay.Text.Column

namespace PaulaReplay

/-- The bytes are not a tune of a known kind, or a request does not fit the
    tune. -/
inductive FormatError where
  /-- A file of so many bytes is shorter than any tune. -/
  | tooShort (size : Nat)
  /-- The container names a kind of tune that does not exist. -/
  | unknownKind (kind : UInt8)
  /-- The music header does not begin with a known mark. -/
  | badMagic
  /-- The output rate is out of range. -/
  | invalidRate (rate : UInt32)
  /-- There is no sub-song of that number. -/
  | invalidSong (song : Nat)
deriving DecidableEq, Repr

/-- The contents of a recognised tune are broken. -/
inductive LoadError where
  /-- Something lies beyond the end of the file. -/
  | shortRead
  /-- The file ends inside the music header. -/
  | truncatedHeader
  /-- A table begins inside the music header. -/
  | invalidBase (base : UInt32)
  /-- The music data is larger than a tune may hold. -/
  | musicTooLarge (size : Nat)
  /-- The first pattern pointer is not valid. -/
  | noPatterns
  /-- The first pattern lies before the track steps. -/
  | patternsFirst (pattern steps : Nat)
  /-- The track steps run past the music data. -/
  | stepsBeyondMusic
  /-- The samples of a container lie outside it. -/
  | samplesOutside
  /-- The sample file of a music file is missing. -/
  | missingSamples
deriving DecidableEq, Repr

/-- A file cannot be read or written. -/
inductive FileError where
  | notFound
  | noDevice
  | notDirectory
  | isDirectory
  /-- A name is longer than any file's. -/
  | nameTooLong
  /-- A path holds a zero byte. -/
  | innerZero
  /-- A file to be mapped into memory has no bytes. -/
  | emptyMap
  /-- Another reason of the system, with its number. -/
  | other (text : String) (code : UInt32)
deriving DecidableEq, Repr

/-- Why a tune cannot be read or played. -/
inductive Error where
  | format (cause : FormatError)
  | load (cause : LoadError)
  | file (cause : FileError)
  /-- The place of a full stop, found in a file name in lower case, is no
      place between two characters of the name itself. -/
  | nameCut
deriving DecidableEq, Repr

/-- The wording of a refusal. -/
def FormatError.message : FormatError → String
  | tooShort size => "file too short (" ++ Column.decimal 1 size ++ ")"
  | unknownKind kind => "unknown TFHD module type " ++ Column.decimal 1 kind.toNat
  | badMagic => "bad magic"
  | invalidRate rate => "invalid sampling rate " ++ Column.decimal 1 rate.toNat
  | invalidSong song => "invalid sub-song " ++ Column.decimal 1 song

/-- The wording of a broken tune. -/
def LoadError.message : LoadError → String
  | shortRead => "short read"
  | truncatedHeader => "truncated module header"
  | invalidBase base => "invalid table base 0x" ++ Column.hex 1 base.toNat
  | musicTooLarge size => "music data too large (" ++ Column.decimal 1 size ++ " bytes)"
  | noPatterns => "no valid pattern pointers"
  | patternsFirst pattern steps =>
    "pattern data 0x" ++ Column.hex 1 pattern ++ " before track steps 0x" ++ Column.hex 1 steps
  | stepsBeyondMusic => "track steps beyond music data"
  | samplesOutside => "can't load sample data"
  | missingSamples => "missing sample file"

/-- The wording of a file that cannot be used. -/
def FileError.message : FileError → String
  | notFound => "No such file or directory (os error 2)"
  | noDevice => "No such device (os error 19)"
  | notDirectory => "Not a directory (os error 20)"
  | isDirectory => "Is a directory (os error 21)"
  | nameTooLong => "File name too long (os error 36)"
  | innerZero => "file name contained an unexpected NUL byte"
  | emptyMap => "memory map must have a non-zero length"
  | other text code => text ++ " (os error " ++ Column.decimal 1 code.toNat ++ ")"

/-- The wording of an error. -/
def Error.message : Error → String
  | format cause => cause.message
  | load cause => cause.message
  | file cause => cause.message
  | nameCut => "file name cut inside a character"

/-- The error that lies behind an error: a file that cannot be used has its
    reason, a tune that is refused has none. -/
def Error.source? : Error → Option FileError
  | file cause => some cause
  | _ => none

/-- What was read, or the complaint that the file ends before it. -/
def orShortRead {α : Type} : Option α → Except Error α
  | some a => .ok a
  | none => .error (.load .shortRead)

end PaulaReplay
