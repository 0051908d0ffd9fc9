/-
  Macro - the little programs that work the voices.

  A word of a macro is an operation and three bytes of arguments.  A turn of
  a macro runs words until one of them ends the turn; a turn that goes on for
  too long ends the macro.

  * `Operation` names what words do, `Operation.ofByte` reads their first
    byte;
  * `Outcome` is what a word leaves to be done: go on, rest until the next
    turn, hand a number to the host, or dispatch a word;
  * `Lane.execute` runs one word on a channel and its voice, `Lane.turn`
    fetches it first;
  * `Machine.runMacro` is a whole turn.
-/
import PaulaReplay.Engine.Dispatch

namespace PaulaReplay

/-! ## Operations -/

/-- What a word of a macro does. -/
inductive Operation where
  /-- Switch the voice off and take the effects away. -/
  | offReset
  /-- Switch the voice off. -/
  | off
  /-- Switch the voice on. -/
  | on
  /-- Set where the region begins. -/
  | setBegin
  /-- Move where the region begins, now and perhaps in each tick. -/
  | addBegin
  /-- Set the length of the region. -/
  | setLength
  /-- Change the length of the region. -/
  | addLength
  /-- Wait a number of ticks. -/
  | wait
  /-- Wait until the voice has played so many regions. -/
  | waitVoice
  /-- Jump above a note. -/
  | splitNote
  /-- Jump above a volume. -/
  | splitVolume
  /-- Jump back a number of times. -/
  | loop
  /-- Jump back a number of times while the key is down. -/
  | loopKeyDown
  /-- The macro ends. -/
  | stop
  /-- Set the volume from the velocity of the note. -/
  | addVolume
  /-- Set the volume. -/
  | setVolume
  /-- Start a macro, with the note of the channel. -/
  | start
  /-- Play the note before, moved. -/
  | previousNote
  /-- Play the note, moved. -/
  | addNote
  /-- Play a note. -/
  | setNote
  /-- Set the period. -/
  | setPeriod
  /-- Slide the period. -/
  | slide
  /-- Set the vibrato. -/
  | vibrato
  /-- Set the envelope. -/
  | envelope
  /-- Take the effects away. -/
  | resetEffects
  /-- Wait until the key is up, or for a number of turns. -/
  | waitKeyUp
  /-- Go on in another macro and remember the place. -/
  | call
  /-- Go on in another macro. -/
  | jump
  /-- Go back to the place remembered. -/
  | back
  /-- Cut the region down to its last part. -/
  | sampleLoop
  /-- Play silence after the region. -/
  | oneShot
  /-- Hand a number to the host. -/
  | cue
  /-- Nothing. -/
  | idle
deriving DecidableEq, Repr

/-- The operation of a first byte. -/
def Operation.ofByte (b : UInt8) : Operation :=
  match b.toNat with
  | 0x00 => offReset
  | 0x01 => on
  | 0x02 => setBegin
  | 0x03 => setLength
  | 0x04 => wait
  | 0x05 => loop
  | 0x06 => jump
  | 0x07 => stop
  | 0x08 => addNote
  | 0x09 => setNote
  | 0x0a => resetEffects
  | 0x0b => slide
  | 0x0c => vibrato
  | 0x0d => addVolume
  | 0x0e => setVolume
  | 0x0f => envelope
  | 0x10 => loopKeyDown
  | 0x11 => addBegin
  | 0x12 => addLength
  | 0x13 => off
  | 0x14 => waitKeyUp
  | 0x15 => call
  | 0x16 => back
  | 0x17 => setPeriod
  | 0x18 => sampleLoop
  | 0x19 => oneShot
  | 0x1a => waitVoice
  | 0x1c => splitNote
  | 0x1d => splitVolume
  | 0x1f => previousNote
  | 0x20 => cue
  | 0x21 => start
  | _ => idle

/-- What a word leaves to be done, with the channel and its voice after it. -/
inductive Outcome where
  /-- The next word follows at once. -/
  | goesOn (l : Lane)
  /-- The turn is over. -/
  | rests (l : Lane)
  /-- A number goes to the host, then the next word follows. -/
  | cues (l : Lane) (slot : UInt8) (value : UInt16)
  /-- A word is dispatched, then the next word follows. -/
  | starts (l : Lane) (w : Word)
deriving DecidableEq, Repr

namespace Lane

/-! ## Words on one channel -/

/-- The lane with its channel changed. -/
def onChannel (l : Lane) (f : Channel → Channel) : Lane := { l with channel := f l.channel }

/-- The macro goes on with another word. -/
def jumpTo (l : Lane) (step : UInt16) : Lane :=
  { l with channel.program.step := step }

/-- After a wait or a note the turn is over; the macro of a voice that was
    just switched off goes on for once. -/
def yield (l : Lane) : Outcome :=
  if l.channel.program.yields = 0 then .goesOn { l with channel.program.yields := 0xff }
  else .rests l

/-- Switching off takes the effects away, and where the dialect says so it
    sets the volume. -/
def reset (l : Lane) (dialect : Dialect) (w : Word) : Lane :=
  let c := l.channel.unbent
  let c := if dialect.offSetsVolume then
      { c with volume :=
          if w.byte2 ≠ 0 then w.byte3.toInt8 else (w.byte3 + c.pitch.velocity * 3).toInt8 }
    else c
  { l with channel := c }

/-- The voice is switched off: at the end of the tick, or at once. -/
def switchOff (l : Lane) (w : Word) : Outcome :=
  let l := { l with voice.loopMode := .normal }
  if w.byte1 ≠ 0 then
    .rests { l with voice.mode := l.voice.mode ||| 4, channel.program.yields := 0 }
  else
    .goesOn { l with
      voice.mode := 0
      voice.length := if l.channel.program.yields ≠ 0 then 0 else l.voice.length }

/-- The voice is switched on; where it was not silent for a tick it takes its
    region over at once. -/
def switchOn (l : Lane) (dialect : Dialect) (w : Word) : Lane :=
  let c := { l.channel with bending := w.byte1.toInt8 }
  if c.program.yields = 0 ∨ dialect.startsAtOnce then
    let start := c.region.savedAddress.toInt32
    let length := regionSamples c.region.savedLength
    ⟨c, { l.voice with nextStart := start, nextLength := length, start, length, phase := 0,
                       mode := 3 }⟩
  else ⟨c, { l.voice with mode := 1 }⟩

/-- The macro waits, once only where the first argument is odd. -/
def wait (l : Lane) (w : Word) : Outcome :=
  let waiting (l : Lane) : Outcome := { l with channel.program.wait := w.low }.yield
  if w.byte1 &&& 0x01 ≠ 0 then
    let held := l.channel.program.held
    let l := { l with channel.program.held := held + 1 }
    if held ≠ 0 then .rests l else waiting l
  else waiting l

/-- The macro jumps back until its counter has run down. -/
def loop (l : Lane) (w : Word) : Lane :=
  let count := l.channel.program.jumps
  let left := count - 1
  if count = 0 then { l with channel.program.jumps := left }
  else
    { l with
      channel.program.jumps := if left < 0 then w.byte1.toUInt16.toInt16 - 1 else left
      channel.program.step := w.low }

/-- The volume of the velocity and an argument, not above the full one. -/
def velocityVolume (velocity add : UInt8) : Int8 :=
  let v := Int8.ofInt (velocity.toNat * 3 + add.toNat)
  if 0x40 < v then 0x40 else v

/-- A note is played, and where there is no slide it is heard at once. -/
def playNote (l : Lane) (base : UInt8) (w : Word) : Outcome :=
  let period := detunedPeriod (base + w.byte1) l.channel.pitch.fineTune w.byte3.toInt8
  yield { l with
    channel.pitch.target := period
    channel.pitch.period := if l.channel.slide.rate = 0 then period else l.channel.pitch.period }

/-- The macro waits for the key to be up, or until its counter has run
    down. -/
def waitKeyUp (l : Lane) (w : Word) : Outcome :=
  let p := l.channel.program
  if ¬ p.keyDown then .goesOn l
  else if p.jumps = 0 then .goesOn { l with channel.program.jumps := -1 }
  else
    .rests { l with
      channel.program.jumps := if p.jumps = -1 then w.byte3.toUInt16.toInt16 - 1 else p.jumps - 1
      channel.program.step := p.step - 1 }

/-- The macro goes on in another one, or ends where there is no such one. -/
def jump (l : Lane) (score : Score) (w : Word) : Outcome :=
  match score.macroStart? w.byte1 with
  | some base =>
    .goesOn { l with
      channel.program.base := base &&& 0xffff
      channel.program.number := base.toUInt16
      channel.program.step := w.low
      channel.program.jumps := -1 }
  | none => .rests (l.onChannel Channel.halted)

/-- The word that starts a macro with the note and the velocity of the
    channel. -/
def startWord (l : Lane) (w : Word) : Word :=
  (w.withByte0 l.channel.pitch.note).withByte2 (w.byte2 ||| l.channel.pitch.velocity <<< 4)

/-- One word of a macro on the channel that runs it; `w` is the word with its
    first byte cleared. -/
def execute (score : Score) (op : Operation) (w : Word) (l : Lane) : Outcome :=
  match op with
  | .offReset => (l.reset score.dialect w).switchOff w
  | .off => l.switchOff w
  | .on => .goesOn (l.switchOn score.dialect w)
  | .setBegin =>
    .goesOn { l with
      channel.sweep.time := 0
      channel.region.address := w.bits
      channel.region.savedAddress := w.bits }
  | .addBegin =>
    let step := w.low.toInt16.toInt32
    let address := l.channel.region.address + step.toUInt32
    .goesOn { l with
      channel.sweep := { step, time := w.byte1, reset := w.byte1 }
      channel.region.address := address
      channel.region.savedAddress := address }
  | .setLength =>
    .goesOn { l with channel.region.savedLength := w.low, channel.region.length := w.low }
  | .addLength =>
    let length := l.channel.region.length + w.low
    .goesOn { l with channel.region.savedLength := length, channel.region.length := length }
  | .wait => l.wait w
  | .waitVoice =>
    yield { l with voice.loopMode := .armOnCount w.low, channel.program.running := 0 }
  | .splitNote => .goesOn (if l.channel.pitch.note > w.byte1 then l.jumpTo w.low else l)
  | .splitVolume =>
    .goesOn (if (w.byte1.toNat : Int) < l.channel.volume.toInt then l.jumpTo w.low else l)
  | .loop => .goesOn (l.loop w)
  | .loopKeyDown => .goesOn (if l.channel.program.keyDown then l.loop w else l)
  | .stop => .rests (l.onChannel Channel.halted)
  | .addVolume =>
    .goesOn (if w.byte2 ≠ 0xfe then
      { l with channel.volume := velocityVolume l.channel.pitch.velocity w.byte3 } else l)
  | .setVolume =>
    .goesOn (if w.byte2 ≠ 0xfe then { l with channel.volume := w.byte3.toInt8 } else l)
  | .start => .starts l (l.startWord w)
  | .previousNote => l.playNote l.channel.pitch.previousNote w
  | .addNote => l.playNote l.channel.pitch.note w
  | .setNote => l.playNote 0 w
  | .setPeriod =>
    .goesOn { l with
      channel.pitch.target := w.low
      channel.pitch.period := if l.channel.slide.rate = 0 then w.low else l.channel.pitch.period }
  | .slide =>
    .goesOn { l with
      channel.slide.reset := w.byte1
      channel.slide.time := 1
      channel.slide.period :=
        if l.channel.slide.rate = 0 then l.channel.pitch.target else l.channel.slide.period
      channel.slide.rate := w.low.toInt16 }
  | .vibrato =>
    let still := l.channel.slide.rate = 0
    .goesOn { l with
      channel.vibrato :=
        { reset := w.byte1, time := w.byte1 >>> 1, width := w.byte3.toInt8, flag := true
          offset := if still then 0 else l.channel.vibrato.offset }
      channel.pitch.period := if still then l.channel.pitch.target else l.channel.pitch.period }
  | .envelope =>
    .goesOn { l with
      channel.envelope :=
        { rate := w.byte1, reset := w.byte2, time := w.byte2, target := w.byte3.toInt8 } }
  | .resetEffects => .goesOn (l.onChannel Channel.unbent)
  | .waitKeyUp => l.waitKeyUp w
  | .call =>
    jump { l with
      channel.program.returnBase := l.channel.program.base.toUInt16
      channel.program.returnStep := l.channel.program.step } score w
  | .jump => l.jump score w
  | .back =>
    .goesOn { l with
      channel.program.base := l.channel.program.returnBase.toUInt32
      channel.program.step := l.channel.program.returnStep }
  | .sampleLoop =>
    let address := l.channel.region.savedAddress + (w.low &&& 0xfffe).toUInt32
    let length := l.channel.region.savedLength - (w.low >>> 1)
    .goesOn { l with
      channel.region := { address, savedAddress := address, savedLength := length, length } }
  | .oneShot =>
    .goesOn { l with
      channel.sweep.time := 0
      channel.region := { address := 0, savedAddress := 0, savedLength := 1, length := 1 } }
  | .cue => .cues l w.byte1 w.low
  | .idle => .goesOn l

/-- The next word of the macro: it is fetched, and the channel stands behind
    it as it is run.  A macro that runs past the music data ends. -/
def turn (score : Score) (l : Lane) : Outcome :=
  let p := l.channel.program
  match score.word? p.base p.step with
  | none => .rests (l.onChannel Channel.halted)
  | some w =>
    execute score (Operation.ofByte w.byte0) (w.withByte0 0) (l.jumpTo (p.step + 1))

end Lane

/-! ## Turns -/

/-- How many words a turn may run. -/
def macroBound : Nat := 0x8000

namespace Machine

/-- At most so many words of the macro of a channel; a macro that does not
    rest by then ends. -/
def runWords (score : Score) (i : Slot) : Nat → Machine → Machine
  | 0, m => m.setChannel i m.channels[i].halted
  | n + 1, m =>
    match (m.lane i).turn score with
    | .goesOn l => runWords score i n (m.setLane i l)
    | .rests l => m.setLane i l
    | .cues l slot value => runWords score i n ((m.setLane i l).setCue slot value)
    | .starts l w => runWords score i n ((m.setLane i l).dispatch score w)

/-- A turn of the macro of a channel. -/
def runMacro (score : Score) (i : Slot) (m : Machine) : Machine :=
  runWords score i macroBound
    (m.setChannel i { m.channels[i] with program.wait := 0 })

end Machine

end PaulaReplay
