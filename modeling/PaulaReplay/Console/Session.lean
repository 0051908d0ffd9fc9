/-
  Session - what the command line asks for, and what it answers.

  A session reads its options, loads the tune, and then shows its contents,
  shows a pattern, or plays a sub-song into a WAV file.

  * `specs` are the options, `Request` what they ask for;
  * `loadTune` finds the tune;
  * `tuneReport` and `patternReport` are the two texts that may be shown;
  * `Recording` is a song on its way into a file, `Recording.run` plays it;
  * `prepare` goes as far as the output file, `run` is a session in a
    directory.
-/
import PaulaReplay.Console.Number
import PaulaReplay.Console.Options
import PaulaReplay.Decimal.Quotient
import PaulaReplay.Pattern.Listing
import PaulaReplay.Player
import PaulaReplay.Sound.Wave
import PaulaReplay.Tune.Companion

namespace PaulaReplay.Console

/-! ## Requests -/

/-- The name of the program. -/
def programName : String := "tfmx-play"

/-- The options of the program. -/
def specs : List Spec := [
  ⟨'r', "rate", some "HZ", "output sampling rate (default 44100)"⟩,
  ⟨'s', "song", some "NUM", "sub-song to play (default 0)"⟩,
  ⟨'t', "time", some "SECONDS", "maximum replay time"⟩,
  ⟨'o', "output", some "FILE", "output WAV file (default out.wav)"⟩,
  ⟨'S', "samples", some "FILE", "sample file of a two-file module"⟩,
  ⟨'i', "info", none, "show module information and exit"⟩,
  ⟨'p', "pattern", some "NUM", "show pattern and exit"⟩,
  ⟨'h', "help", none, "display usage information and exit"⟩]

/-- The help text of the program. -/
def helpText : String := usage ("Usage: " ++ programName ++ " [options] filename") specs

/-- Why a session fails. -/
inductive Failure where
  | number (cause : NumberError)
  | tune (cause : Error)
deriving DecidableEq, Repr

/-- The wording of a failure. -/
def Failure.message : Failure → String
  | number cause => cause.message
  | tune cause => cause.message

/-- The line that reports a failure. -/
def Failure.line (f : Failure) : String := "Error: " ++ f.message ++ "\n"

/-- The greatest numbers of 8, 32 and 64 bits. -/
def limit8 : Nat := 0xff
def limit32 : Nat := 0xffffffff
def limit64 : Nat := 0xffffffffffffffff

/-- The number of an option that takes one. -/
def number? (g : Given) (letter : Char) (limit : Nat) : Except Failure (Option Nat) :=
  match g.value? letter with
  | none => .ok none
  | some s => match parseNumber limit s with
    | .ok n => .ok (some n)
    | .error e => .error (.number e)

/-- What is asked for, apart from the pattern. -/
structure Request where
  path : String
  samples? : Option String
  output : String
  rate : UInt32
  song : Nat
  seconds? : Option Nat

/-- What the options ask for. -/
def request (g : Given) (path : String) : Except Failure Request := do
  let rate ← number? g 'r' limit32
  let song ← number? g 's' limit64
  let seconds? ← number? g 't' limit64
  return { path, samples? := g.value? 'S', output := (g.value? 'o').getD "out.wav",
           rate := (rate.map UInt32.ofNat).getD usualRate, song := song.getD 0, seconds? }

/-! ## Loading -/

/-- A tune or its error as a failure. -/
def orFailure {α : Type} : Except Error α → Except Failure α
  | .ok a => .ok a
  | .error e => .error (.tune e)

/-- The bytes of a file or its error as a failure. -/
def orFileFailure {α : Type} : Except FileError α → Except Failure α
  | .ok a => .ok a
  | .error e => .error (.tune (.file e))

/-- The tune that is asked for: with the sample file that is named, or as a
    container, or with the sample file beside it. -/
def loadTune (look : Lookup) (r : Request) : Except Failure Tune := do
  let bytes ← orFileFailure (look.map r.path)
  match r.samples? with
  | some path =>
    let samples ← orFileFailure (look.map path)
    orFailure (load bytes (some samples))
  | none =>
    if isContainer bytes then orFailure (load bytes none)
    else orFailure (openTune look r.path)

/-! ## Reports -/

/-- A number in decimal digits. -/
def digitsOf (n : Nat) : String := Column.decimal 1 n

/-- A number at the right edge of a column. -/
def columnOf (width n : Nat) : String := Column.right width (digitsOf n)

/-- The line of a sub-song: its positions and its duration. -/
def songLine (index : Nat) (song : SubSong) (duration : Nat) : String :=
  let seconds := duration / 1000
  "Song " ++ columnOf 2 index ++ ": positions " ++ columnOf 3 song.first.toNat ++ "-" ++
    columnOf 3 song.last.toNat ++ "  " ++ columnOf 2 (seconds / 60) ++ ":" ++
    Column.decimal 2 (seconds % 60) ++ "." ++ Column.decimal 3 (duration % 1000) ++ "\n"

/-- What is shown of a tune. -/
def tuneReport (t : Tune) : String :=
  let s := t.score
  "Format: " ++ t.description ++ "\n" ++
  "Creator: " ++ t.creator ++ "\n" ++
  String.join ((s.comment.filter (· != "")).map fun line => "  " ++ line ++ "\n") ++
  "Channels: " ++ digitsOf t.channels ++ "\n" ++
  "Track steps: " ++ digitsOf s.trackSteps.size ++ "\n" ++
  "Patterns: " ++ digitsOf s.patterns.size ++ "\n" ++
  "Macros: " ++ digitsOf s.macros.size ++ "\n" ++
  "Samples: " ++ digitsOf s.bank.size ++ " bytes\n" ++
  String.join ((Timeline.all s).zipIdx.map fun (line, i) =>
    match s.subSong? i with
    | some song => songLine i song line.duration.toNat
    | none => "")

/-- The words of a pattern, from one on, up to the word that ends it or the
    end of the music data, but at most so many. -/
def patternLines (s : Score) (base : UInt32) : (n step : Nat) → String
  | 0, _ => ""
  | n + 1, step =>
    match s.word? base (UInt16.ofNat step) with
    | none => ""
    | some w =>
      let line := columnOf 4 step ++ ": " ++ Pattern.line w ++ "\n"
      if w.byte0 = 0xf0 then line else line ++ patternLines s base n (step + 1)

/-- How many words of a pattern are shown. -/
def patternBound : Nat := 0x400

/-- What is shown of a pattern. -/
def patternReport (s : Score) (n : UInt8) : String :=
  match s.pattern? n with
  | none => "No pattern " ++ digitsOf n.toNat ++ "\n"
  | some base =>
    "Pattern " ++ digitsOf n.toNat ++ ":\n" ++ patternLines s base patternBound 0

/-! ## Recording -/

/-- A song on its way into a file. -/
structure Recording where
  player : Player
  output : String
  /-- The number of frames after which it is cut. -/
  limit? : Option Nat
  /-- The samples so far, as they are in the file. -/
  samples : ByteArray
  frames : Nat
  /-- What is shown of its progress, and the position shown last. -/
  text : String
  shown? : Option Nat

namespace Recording

/-- The samples of a block. -/
def blockSize : Nat := 4096

/-- The most blocks that a file may hold. -/
def blockBound : Nat := 0x80000

/-- What is shown at a new position. -/
def progress (p : Player) : String :=
  let i := p.info
  "\rpos:" ++ columnOf 3 i.position ++ "/" ++ columnOf 3 p.songLength ++ " speed:" ++
    columnOf 2 i.speed ++ " bpm:" ++ columnOf 3 i.tempo ++ " "

/-- One more block of a song.  A player that does nothing else always fills
    it. -/
def block (r : Recording) : Recording :=
  match r.player.fill blockSize 1 with
  | some (.ok (samples, player)) =>
    let position := player.position
    let fresh := r.shown? != some position
    { r with
      player
      samples := Wave.pushSamples r.samples samples
      frames := r.frames + blockSize / 2
      text := if fresh then r.text ++ progress player else r.text
      shown? := some position }
  | _ => r

/-- Whether the recording is done: the song is over, or cut. -/
def isDone (r : Recording) : Bool :=
  r.player.isOver || (match r.limit? with
    | some limit => limit ≤ r.frames
    | none => false)

/-- At most so many blocks of a song. -/
def blocks : Nat → Recording → Recording
  | 0, r => r
  | n + 1, r =>
    let r := r.block
    if r.isDone then r else blocks n r

/-- The song in full. -/
def run (r : Recording) : Recording := blocks blockBound r

/-- The bytes of the file. -/
def file (r : Recording) : ByteArray := Wave.file r.player.rate r.samples

/-- The line about the file that was written. -/
def written (r : Recording) : String :=
  "Wrote " ++ r.output ++ " (" ++
    (Decimal.Binary.nearest r.frames r.player.rate.toNat).fixed 1 ++ " s)\n"

/-- All that is shown of a recording. -/
def report (r : Recording) : String := r.text ++ "\n" ++ r.written

end Recording

/-! ## Sessions -/

/-- What a session comes to before anything is written. -/
inductive Plan where
  /-- A text is shown, and that is all. -/
  | shows (text : String)
  /-- A text is shown, and a song is recorded. -/
  | records (text : String) (r : Recording)
  /-- The session breaks off: the name of the tune cannot be cut. -/
  | breaksOff

/-- What is shown before a song is recorded. -/
def banner (t : Tune) (song : Nat) : String :=
  "Title: " ++ t.title ++ "\n" ++ "Format: " ++ t.description ++ "\n" ++
  "Song: " ++ digitsOf song ++ " of " ++ digitsOf t.score.songCount ++ "\n"

/-- The plan of a session whose options are read. -/
def plan (look : Lookup) (g : Given) (path : String) : Except Failure Plan := do
  let r ← request g path
  let tune ← loadTune look r
  let player ← orFailure (Player.new tune r.rate)
  if g.has 'i' then return .shows (tuneReport tune)
  match ← number? g 'p' limit8 with
  | some n => return .shows (patternReport tune.score (UInt8.ofNat n))
  | none =>
    let player ← orFailure (player.start r.song)
    return .records (banner tune r.song)
      { player, output := r.output, samples := ByteArray.empty, frames := 0, text := "",
        limit? := r.seconds?.map fun s => s * r.rate.toNat % (limit64 + 1), shown? := none }

/-- The plan of a session. -/
def prepare (look : Lookup) (args : List String) : Plan :=
  match parse specs args with
  | .error e => .shows (e.message ++ "\n")
  | .ok g =>
    match g.free with
    | [] => .shows helpText
    | path :: _ =>
      if g.has 'h' then .shows helpText
      else match plan look g path with
        | .ok p => p
        | .error (.tune .nameCut) => .breaksOff
        | .error f => .shows f.line

/-- The paths of the files that a session may read. -/
def wanted (args : List String) : List String :=
  match parse specs args with
  | .error _ => []
  | .ok g =>
    (g.free.take 1).flatMap (fun path => path :: (candidates path).getD []) ++
      (g.value? 'S').toList

/-- The status of a session that breaks off. -/
def brokenStatus : UInt32 := 101

/-- What a session leaves: the text it shows, its status, and the file it
    makes in the directory. -/
structure Result where
  text : String
  status : UInt32 := 0
  made? : Option (String × ByteArray) := none

/-- A session in a directory. -/
def run (d : Directory) (args : List String) : Result :=
  match prepare d.look args with
  | .shows text => { text }
  | .breaksOff => { text := "", status := brokenStatus }
  | .records text r =>
    match d.create r.output with
    | .error e => { text := text ++ Failure.line (.tune (.file e)) }
    | .ok name? =>
      let r := r.run
      { text := text ++ r.report, made? := name?.map fun name => (name, r.file) }

end PaulaReplay.Console
