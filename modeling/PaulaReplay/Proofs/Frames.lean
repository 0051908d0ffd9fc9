/-
  Frames: what moves leave as it is.

  * `Channel.kept`: registers of a channel that most words leave alone, in two
    parts, `Channel.registers` and `Channel.loudness`;
    `Lane.registers_execute` and `Lane.loudness_execute` say which words
    change neither, or one of them;
  * `Machine.Every` says something of all channels, and the lemmas after it
    what is to be shown for it to be kept;
  * `Machine.sounding`: what is heard of a machine, which the song leaves alone
    but for the notes of its tracks and its fades.
-/
import PaulaReplay.Proofs.Moves

namespace PaulaReplay

/-- What a word leaves: the channel that runs it, with its voice. -/
def Outcome.lane : Outcome → Lane
  | .goesOn l | .rests l | .cues l _ _ | .starts l _ => l

/-! ## What most words leave alone -/

/-- The jumps of a loop, the time of a lock, the velocity and the notes. -/
def Channel.registers (c : Channel) : Int16 × Int16 × UInt8 × UInt8 × UInt8 :=
  (c.program.jumps, c.reservation.time, c.pitch.velocity, c.pitch.note, c.pitch.previousNote)

/-- The volume, and where and how fast it goes. -/
def Channel.loudness (c : Channel) : Int8 × UInt8 × Int8 :=
  (c.volume, c.envelope.rate, c.envelope.target)

/-- All of these. -/
def Channel.kept (c : Channel) :
    (Int16 × Int16 × UInt8 × UInt8 × UInt8) × Int8 × UInt8 × Int8 :=
  (c.registers, c.loudness)

namespace Channel

theorem registers_of_kept {c d : Channel} (h : c.kept = d.kept) : c.registers = d.registers :=
  congrArg Prod.fst h

theorem loudness_of_kept {c d : Channel} (h : c.kept = d.kept) : c.loudness = d.loudness :=
  congrArg Prod.snd h

theorem kept_countWait (c : Channel) : c.countWait.1.kept = c.kept := by
  unfold countWait; split <;> rfl

theorem kept_sweepOn (c : Channel) : c.sweepOn.kept = c.kept := by
  unfold sweepOn; split <;> rfl

theorem kept_groundSweep (c : Channel) : c.groundSweep.kept = c.kept := by
  unfold groundSweep; split <;> rfl

theorem kept_sway (c : Channel) : c.sway.kept = c.kept := by
  unfold sway; split <;> rfl

theorem kept_slideOn (c : Channel) : c.slideOn.kept = c.kept := by
  unfold slideOn
  split
  · rfl
  · simp only; split <;> rfl

/-- Before the volume moves, nothing of it has changed. -/
theorem kept_bent (c : Channel) : c.sweepOn.groundSweep.sway.slideOn.kept = c.kept := by
  rw [kept_slideOn, kept_sway, kept_groundSweep, kept_sweepOn]

theorem registers_swell (c : Channel) : c.swell.registers = c.registers := by
  unfold swell
  split
  · rfl
  · split
    · rfl
    · simp only; split <;> rfl

end Channel

namespace Lane

variable {score : Score} {l : Lane} {w : Word}

theorem kept_yield (l : Lane) : l.yield.lane.channel.kept = l.channel.kept := by
  unfold yield; split <;> rfl

theorem kept_switchOff (l : Lane) (w : Word) :
    (l.switchOff w).lane.channel.kept = l.channel.kept := by
  unfold switchOff; simp only; split <;> rfl

theorem kept_switchOn (l : Lane) (dialect : Dialect) (w : Word) :
    (l.switchOn dialect w).channel.kept = l.channel.kept := by
  unfold switchOn; simp only; split <;> rfl

theorem kept_wait (l : Lane) (w : Word) : (l.wait w).lane.channel.kept = l.channel.kept := by
  unfold wait
  simp only
  split
  · split
    · rfl
    · exact kept_yield _
  · exact kept_yield _

theorem kept_playNote (l : Lane) (base : UInt8) (w : Word) :
    (l.playNote base w).lane.channel.kept = l.channel.kept := kept_yield _

theorem registers_reset (l : Lane) (dialect : Dialect) (w : Word) :
    (l.reset dialect w).channel.registers = l.channel.registers := by
  unfold reset; simp only; split <;> rfl

/-- The operations that count jumps. -/
def countsJumps : Operation → Bool
  | .loop | .loopKeyDown | .waitKeyUp | .call | .jump => true
  | _ => false

/-- The operations that set the volume, or where it goes. -/
def setsVolume : Operation → Bool
  | .offReset | .addVolume | .setVolume | .envelope => true
  | _ => false

theorem kept_execute {op : Operation} (hj : countsJumps op = false) (hv : setsVolume op = false) :
    (execute score op w l).lane.channel.kept = l.channel.kept := by
  cases op with
  | offReset | addVolume | setVolume | envelope => cases hv
  | loop | loopKeyDown | waitKeyUp | call | jump => cases hj
  | off => exact kept_switchOff l w
  | on => exact kept_switchOn l score.dialect w
  | wait => exact kept_wait l w
  | waitVoice => exact kept_yield _
  | previousNote | addNote | setNote => exact kept_playNote l _ w
  | splitNote | splitVolume =>
    rw [execute]
    split <;> rfl
  | _ => rfl

theorem registers_execute {op : Operation} (hj : countsJumps op = false) :
    (execute score op w l).lane.channel.registers = l.channel.registers := by
  cases op with
  | offReset =>
    have hoff := Channel.registers_of_kept (kept_switchOff (l.reset score.dialect w) w)
    exact hoff.trans (registers_reset l score.dialect w)
  | addVolume | setVolume =>
    rw [execute]
    split <;> rfl
  | envelope => rfl
  | _ => exact Channel.registers_of_kept (kept_execute hj rfl)

theorem loudness_loop (l : Lane) (w : Word) :
    (l.loop w).channel.loudness = l.channel.loudness := by
  unfold loop; simp only; split <;> rfl

theorem loudness_jump (l : Lane) (score : Score) (w : Word) :
    (jump l score w).lane.channel.loudness = l.channel.loudness := by
  unfold jump; split <;> rfl

theorem loudness_execute {op : Operation} (hv : setsVolume op = false) :
    (execute score op w l).lane.channel.loudness = l.channel.loudness := by
  cases op with
  | loop => exact loudness_loop l w
  | loopKeyDown =>
    rw [execute]
    split
    · exact loudness_loop l w
    · rfl
  | waitKeyUp =>
    rw [execute, waitKeyUp]
    simp only
    split_ifs <;> rfl
  | call => exact loudness_jump _ score w
  | jump => exact loudness_jump l score w
  | _ => exact Channel.loudness_of_kept (kept_execute rfl hv)

end Lane

/-! ## Machines -/

namespace Machine

variable {m : Machine} {score : Score} {rate : UInt32} {P : Channel → Prop}

/-- Something holds of all channels. -/
def Every (P : Channel → Prop) (m : Machine) : Prop := ∀ i : Slot, P m.channels[i]

theorem Every.setChannel (h : m.Every P) (i : Slot) {c : Channel} (hc : P c) :
    (m.setChannel i c).Every P := by
  intro j
  show P (m.channels.set i c)[j]
  rw [Octet.getElem_set]
  split
  · exact hc
  · exact h j

theorem Every.congr {m' : Machine} (h : m.Every P) (hc : m'.channels = m.channels) :
    m'.Every P := by
  intro j
  rw [hc]
  exact h j

theorem Every.dispatch (h : m.Every P) (w : Word)
    (hw : ∀ i : Slot, P (m.channels[i].receive score w)) : (m.dispatch score w).Every P :=
  h.setChannel _ (hw _)

/-- What holds of all channels, and of one of them after a word of its macro,
    holds of all channels after that word; it may be received by any. -/
theorem Every.runWord (h : m.Every P) (i : Slot)
    (hturn : P ((m.lane i).turn score).lane.channel)
    (hreceive : ∀ l w, (m.lane i).turn score = .starts l w →
      ∀ j : Slot, P ((m.setLane i l).channels[j].receive score w)) : (m.runWord score i).Every P := by
  unfold Machine.runWord
  cases ht : (m.lane i).turn score with
  | starts l w =>
    rw [ht] at hturn
    exact Every.dispatch (h.setChannel i hturn) w (hreceive l w ht)
  | goesOn l => rw [ht] at hturn; exact h.setChannel i hturn
  | rests l => rw [ht] at hturn; exact h.setChannel i hturn
  | cues l slot value => rw [ht] at hturn; exact h.setChannel i hturn

theorem Every.channelOff (h : m.Every P) (hoff : ∀ c, P c → P c.silenced) (n : Nat) :
    (m.channelOff n).Every P := by
  unfold Machine.channelOff
  split
  · simp only
    split
    · exact h.setChannel _ (hoff _ (h _))
    · exact h
  · exact h

theorem Every.bend (h : m.Every P) (i : Slot) (hstart : ∀ c, P c → P { c with bending := 1 })
    (hbend : ∀ c, P c → P c.bend) : (m.bend i).Every P := by
  unfold Machine.bend
  simp only
  split_ifs
  · exact h
  · exact h.setChannel i (hstart _ (h i))
  · exact h.setChannel i (hbend _ (h i))

end Machine

/-! ## Replays -/

/-- The channels, the voices and the master volume. -/
def Machine.sounding (m : Machine) : Octet Channel × Octet Voice × Fade :=
  (m.channels, m.voices, m.master.fade)

namespace Replay

variable {r : Replay} {score : Score} {rate : UInt32} {P : Channel → Prop}

theorem sounding_reachEnd (m : Machine) : m.reachEnd.sounding = m.sounding :=
  congrArg (·.sounding) m.hushed_reachEnd

/-- Of the commands, only a fade is heard. -/
theorem sounding_obey {c : StepCommand} (hc : ∀ speed target, c ≠ .fade speed target) :
    (r.obey c).1.machine.sounding = r.machine.sounding := by
  refine (congrArg (·.machine.sounding) (hushed_obey r c)).trans ?_
  cases c with
  | fade speed target => exact absurd rfl (hc speed target)
  | _ => rfl

theorem sounding_greetFirst (r : Replay) : r.greetFirst.machine.sounding = r.machine.sounding :=
  congrArg (·.machine.sounding) (hushed_greetFirst r)

/-- A track step is not heard, unless it is a fade. -/
theorem sounding_readStep (r : Replay) (score : Score) :
    (r.readStep score).1.machine.sounding = r.machine.sounding ∨
      ∃ s speed target, score.trackStep? r.greetFirst.place.current = some s ∧
        s.command? = some (.fade speed target) ∧ (r.readStep score).1.machine.sounding =
          (r.machine.channels, r.machine.voices,
            r.machine.master.fade.start speed.toUInt8.toInt8 target.toUInt8.toInt8) := by
  have hg := sounding_greetFirst r
  unfold readStep
  simp only
  split
  · exact .inl ((sounding_reachEnd _).trans hg)
  · next s hs =>
    split
    · next c hcmd =>
      by_cases hc : ∃ speed target, c = .fade speed target
      · obtain ⟨speed, target, rfl⟩ := hc
        obtain ⟨hch, hv, hf⟩ : r.greetFirst.machine.channels = r.machine.channels ∧
            r.greetFirst.machine.voices = r.machine.voices ∧
            r.greetFirst.machine.master.fade = r.machine.master.fade := by
          simpa only [Machine.sounding, Prod.mk.injEq] using hg
        refine .inr ⟨s, speed, target, hs, hcmd, ?_⟩
        rw [← hch, ← hv, ← hf]
        rfl
      · exact .inl ((sounding_obey fun speed target he => hc ⟨speed, target, he⟩).trans hg)
    · exact .inl hg

theorem sounding_leave (r : Replay) : r.leave.machine.sounding = r.machine.sounding :=
  congrArg (·.machine.sounding) (hushed_leave r)

theorem sounding_selectSong (r : Replay) (score : Score) (n : Nat) :
    (r.selectSong score n).machine.sounding = (r.machine.channels, r.machine.voices,
      { r.machine.master.fade with volume := 0x40, slope := 0 }) := by
  unfold selectSong enterSong
  simp only
  split <;> rfl

theorem sounding_aim (r : Replay) (position : Nat) (e : Timeline.Entry) :
    (r.aim position e).machine.sounding = r.machine.sounding := by
  unfold aim
  simp only
  split <;> rfl

/-- A track step leaves the channels as they are. -/
theorem channels_readStep (r : Replay) (score : Score) :
    (r.readStep score).1.machine.channels = r.machine.channels := by
  rcases sounding_readStep r score with h | ⟨s, speed, target, -, -, h⟩ <;>
    exact congrArg Prod.fst h

/-- What holds of all channels, and of one that is switched off, holds of them
    as a track begins its row. -/
theorem every_enterTrack (h : r.machine.Every P) (hoff : ∀ c, P c → P c.silenced) (i : Slot) :
    (r.enterTrack i).machine.Every P := by
  unfold enterTrack
  cases Tracks.enter i r.tracks with
  | idle tracks => exact h
  | runs tracks => exact h
  | switchesOff tracks channel => exact h.channelOff hoff channel

/-- What holds of all channels, and of one that receives what a word of a track
    dispatches, holds of them after that word. -/
theorem every_runWord (h : r.machine.Every P) (i : Slot)
    (hreceive : ∀ w, (Tracks.step score i r.tracks).request = some (.dispatch w) →
      ∀ c, P c → P (c.receive score w)) : (r.runWord score i).machine.Every P := by
  unfold runWord Machine.grant?
  simp only
  split
  · next request heq =>
    cases request with
    | dispatch w => exact h.dispatch w fun j => hreceive w heq _ (h j)
    | endSong => exact h.congr (congrArg Prod.fst (sounding_reachEnd _))
    | _ => exact h
  · exact h

/-- What holds of all channels, and of one whose macro resumes, holds of them
    after the sound of a tick. -/
theorem every_render (h : r.machine.Every P)
    (hresume : ∀ c, P c → P { c with program.running := -1 }) (bank : Bank) (rate : UInt32) :
    (r.render bank rate).machine.Every P := by
  intro j
  unfold render Player.resume
  simp only [Octet.getElem_ofFn]
  split
  · exact hresume _ (h j)
  · exact h j

end Replay

end PaulaReplay
