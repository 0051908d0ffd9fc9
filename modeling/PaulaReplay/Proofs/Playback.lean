/-
  Playback: what a host gets, whatever it does.

  * `Reachable.buffer_law`: a buffer can be filled if, and only if, the last
    tick has what it asks for, and all can be filled where ticks are rendered
    in step;
  * `Reachable.fillEach_eq_fill`: it does not matter into which buffers a host
    cuts the sound;
  * `Reachable.fill_ends`: the filling of a buffer ends.
-/
import PaulaReplay.Proofs.Reachable
import PaulaReplay.Tune.Loader

namespace PaulaReplay.Player

/-! ## A tune whose second tick is short -/

/-- A tune of one song, of two steps: one with a pattern that ends it, and
    before it one that asks for 511 beats per minute. -/
def shortTune : ByteArray :=
  let zeros (n : Nat) : List UInt8 := List.replicate n 0
  let voices : List UInt8 := [0xff, 0, 0xff, 0, 0xff, 0, 0xff, 0, 0xff, 0, 0xff, 0, 0xff, 0]
  ⟨([0x54, 0x46, 0x4d, 0x58] ++ zeros 316 ++ [0, 2] ++ zeros 142 ++
    [0, 0, 2, 0, 0, 0, 2, 0x30, 0, 0, 2, 0x34] ++ zeros 36 ++
    ([0, 0] ++ voices) ++ ([0xef, 0xfe, 0, 2, 0, 0, 1, 0xff] ++ zeros 8) ++ ([0, 0] ++ voices) ++
    [0, 0, 2, 0x38] ++ [0, 0, 0, 0] ++ [0xf3, 0, 0, 0, 0xf0, 0, 0, 0]).toArray⟩

theorem eq_ok_of_toOption {ε α : Type} {x : Except ε α} {a : α} (h : x.toOption = some a) :
    x = .ok a := by
  cases x with
  | ok b => cases h; rfl
  | error e => cases h

/-- A player whose tune and rate are accepted, with a result of it that was
    worked out. -/
theorem exists_new {α : Type} {music : ByteArray} {samples : Option ByteArray} {rate : UInt32}
    {f : Player → α} {a : α}
    (h : ((load music samples).toOption.bind fun tune =>
      (Player.new tune rate).toOption.map f) = some a) :
    ∃ tune p, load music samples = .ok tune ∧ Player.new tune rate = .ok p ∧ f p = a := by
  obtain ⟨tune, htune, h⟩ := Option.bind_eq_some_iff.1 h
  obtain ⟨p, hp, h⟩ := Option.map_eq_some_iff.1 h
  exact ⟨tune, p, eq_ok_of_toOption htune, eq_ok_of_toOption hp, h⟩

theorem exists_shortTune : ∃ tune p, load shortTune (some ⟨#[]⟩) = .ok tune ∧
    Player.new tune minRate = .ok p ∧ p.tick.mix.size = 79 ∧ p.tick.tick.mix.size = 20 := by
  have h : ((load shortTune (some ⟨#[]⟩)).toOption.bind fun tune =>
      (Player.new tune minRate).toOption.map fun p => (p.tick.mix.size, p.tick.tick.mix.size)) =
        some (79, 20) := by decide +kernel
  obtain ⟨tune, p, hload, hnew, h⟩ := exists_new h
  rw [Prod.mk.injEq] at h
  exact ⟨tune, p, hload, hnew, h.1, h.2⟩

/-! ## Tunes of one pattern and one macro -/

/-- Numbers of 16 bits as they stand in a tune. -/
def numberBytes (ns : List UInt16) : List UInt8 :=
  ns.flatMap fun (n : UInt16) => [(n >>> 8).toUInt8, n.toUInt8]

/-- Words as they stand in a tune. -/
def wordBytes (ws : List UInt32) : List UInt8 :=
  ws.flatMap fun bits =>
    let w : Word := ⟨bits⟩
    [w.byte0, w.byte1, w.byte2, w.byte3]

/-- A tune of some track steps that are commands and one that plays a pattern on
    the first track, and of one macro. -/
def commandedTune (tempo : UInt16) (commands : List (List UInt16))
    (pattern program : List UInt32) : ByteArray :=
  let zeros (n : Nat) : List UInt8 := List.replicate n 0
  let last := UInt16.ofNat commands.length
  let patternTable := 0x210 + 16 * UInt32.ofNat commands.length
  let patternStart := patternTable + 8
  let macroStart := patternStart + 4 * UInt32.ofNat pattern.length
  ⟨([0x54, 0x46, 0x4d, 0x58] ++ zeros 0x13c ++ numberBytes [last] ++ zeros 0x3e ++
    numberBytes [tempo] ++ zeros 0x4e ++ wordBytes [0x200, patternTable, patternTable + 4] ++
    zeros 0x24 ++ commands.flatMap numberBytes ++ numberBytes (0 :: List.replicate 7 0xff00) ++
    wordBytes ([patternStart, macroStart] ++ pattern ++ program)).toArray⟩

/-- A tune of one position, which plays one pattern on the first track, and of
    one macro. -/
def smallTune (tempo : UInt16) (pattern program : List UInt32) : ByteArray :=
  commandedTune tempo [] pattern program

variable {p : Player}

/-! ## Buffers that can be filled -/

/-- What is in buffers never passes what there was to be taken, and the mixer
    has all the samples that it adds up.  But the last tick may be shorter than
    what there was to be taken: a tick that a host renders in the middle of one
    takes away what was left, and this is the only way.  The filling of a
    buffer fails if, and only if, it asks for samples that are not there, and
    it never does where ticks are rendered in step. -/
theorem Reachable.buffer_law (h : Reachable AtWill p) :
    p.consumed ≤ p.available ∧ p.mix.WellSized ∧
      (∀ action, p.Intact → ((p.perform action).Intact ↔ InStep p action)) ∧
      (∀ q : Player, (p.restore q.snapshot).Intact) ∧
      (∀ n loops, (∃ e, p.fill n loops = some (.error e)) ↔ p.Overruns n) ∧
      (∀ n loops, ¬ p.Overruns n →
        ∃ out q, p.fill n loops = some (.ok (out, q)) ∧ out.size = n) ∧
      (Reachable InStep p → p.Intact ∧ ∀ n, ¬ p.Overruns n) := by
  have ho := h.orderly
  have hfill : ∀ n loops, ¬ p.Overruns n →
      ∃ out q, p.fill n loops = some (.ok (out, q)) ∧ out.size = n := by
    intro n loops hn
    obtain ⟨out, q, hf⟩ := (ho.steady.exists_fills_iff ho.consumed n loops).2 hn
    exact ⟨out, q, fill_eq_ok_iff.2 hf, hf.size_eq⟩
  refine ⟨ho.consumed, ho.wellSized, fun action hi => hi.perform_iff action,
    fun q => intact_restore p q, ?_, hfill, fun hs => ⟨hs.intact, hs.intact.not_overruns⟩⟩
  intro n loops
  constructor
  · rintro ⟨e, he⟩
    by_contra hn
    obtain ⟨out, q, hf, -⟩ := hfill n loops hn
    rw [hf] at he
    cases he
  · intro hn
    exact ⟨_, fill_of_overruns hn⟩

/-- At the start of a tune every buffer can be filled. -/
theorem buffer_law_new : ∃ tune p, load shortTune (some ⟨#[]⟩) = .ok tune ∧
    Player.new tune minRate = .ok p ∧ Reachable AtWill p ∧ Reachable InStep p ∧ p.Intact ∧
      ∀ n, ∃ out q, p.fill n 0 = some (.ok (out, q)) ∧ out.size = n := by
  obtain ⟨tune, p, hload, hnew, -, -⟩ := exists_shortTune
  have hr : Reachable AtWill p := .new hnew
  have hs : Reachable InStep p := .new hnew
  obtain ⟨-, -, -, -, -, hfill, hstep⟩ := Reachable.buffer_law hr
  exact ⟨tune, p, hload, hnew, hr, hs, (hstep hs).1, fun n => hfill n 0 ((hstep hs).2 n)⟩

/-- A host that fills two samples, renders a tick and fills 160 asks for 158
    samples of a tick that has 40. -/
theorem overruns_after_tick : ∃ tune p q out, load shortTune (some ⟨#[]⟩) = .ok tune ∧
    Player.new tune minRate = .ok p ∧ p.fill 2 0 = some (.ok (out, q)) ∧
      Reachable AtWill q.tick ∧ q.tick.mix.stereo.size < q.tick.available ∧
      q.tick.fill 160 0 = some (.error ⟨158, 40⟩) := by
  obtain ⟨tune, p, hload, hnew, h₁, h₂⟩ := exists_shortTune
  obtain ⟨-, -, hc, ha⟩ := new_eq_ok hnew
  have hs₁ : p.tick.mix.stereo.size = 158 := by rw [p.wellSized_tick.stereo, h₁]
  have hs₂ : p.tick.tick.mix.stereo.size = 40 := by rw [p.tick.wellSized_tick.stereo, h₂]
  obtain ⟨q, hf, hqc, hqa, hqs⟩ : ∃ q, Fills 0 2 p (p.tick.mix.stereo.extract 0 2) q ∧
      q.tick.consumed = 2 ∧ q.tick.available = 158 ∧ q.tick.mix.stereo.size = 40 :=
    ⟨_, fills_of_tick (hc.trans ha.symm) (by decide) (by omega), rfl, hs₁, hs₂⟩
  have hfill := fill_eq_ok_iff.2 hf
  have hr : Reachable AtWill q := .fill (.new hnew) trivial hfill
  have hover : q.tick.Overruns 160 := ⟨by decide, by omega, by omega⟩
  refine ⟨tune, p, q, _, hload, hnew, hfill, hr.perform .tick trivial, by omega, ?_⟩
  rw [fill_of_overruns hover, hqc, hqa, hqs]
  rfl

/-! ## Buffers in a row -/

/-- Where ticks are rendered in step, buffers that are filled in a row hold
    what one buffer of their length holds.  Where no end is asked for, this is
    what is left of the last tick and the sound of the next ticks, as much as
    there is room for. -/
theorem Reachable.fillEach_eq_fill (h : Reachable InStep p) (loops : Nat) (ns : List Nat) :
    ∃ out q s, fillEach loops ns p = some (.ok (out, q)) ∧
      p.fill ns.sum loops = some (.ok (out, s)) ∧ out.size = ns.sum ∧
      (loops = 0 → s = q ∧ (∃ k, ns.sum ≤ (p.sound k).size) ∧
        ∀ k, ns.sum ≤ (p.sound k).size → out = (p.sound k).extract 0 ns.sum) := by
  obtain ⟨out, q, s, heach, hf, hs⟩ := h.orderly.steady.exists_fillEach loops ns h.intact
  refine ⟨out, q, s, heach, fill_eq_ok_iff.2 hf, hf.size_eq, ?_⟩
  rintro rfl
  exact ⟨hs rfl, hf.eq_sound⟩

/-- After 100 samples of a tick of 158, three buffers and one over many ticks. -/
theorem fillEach_eq_fill_within_tick : ∃ tune p q out, load shortTune (some ⟨#[]⟩) = .ok tune ∧
    Player.new tune minRate = .ok p ∧ p.fill 100 0 = some (.ok (out, q)) ∧
      Reachable InStep q ∧ ∃ out r, fillEach 0 [57, 3, 500] q = some (.ok (out, r)) ∧
        q.fill 560 0 = some (.ok (out, r)) ∧ out.size = 560 := by
  obtain ⟨tune, p, hload, hnew, -, -⟩ := exists_shortTune
  have hp : Reachable InStep p := .new hnew
  obtain ⟨a, q, ha⟩ := hp.orderly.steady.exists_fills 0 100 hp.intact
  have hfill := fill_eq_ok_iff.2 ha
  have hq : Reachable InStep q := hp.fill (by rintro ⟨⟩) hfill
  obtain ⟨out, r, s, heach, hone, hsize, hs⟩ := Reachable.fillEach_eq_fill hq 0 [57, 3, 500]
  obtain ⟨rfl, -⟩ := hs rfl
  exact ⟨tune, p, q, a, hload, hnew, hfill, hq, out, s, heach, hone, hsize⟩

/-! ## The filling ends -/

/-- The clock of the ticks follows the tempo, which is never zero.  So there
    are fewer than 179 ticks in a row without frames, and the filling of a
    buffer ends. -/
theorem Reachable.fill_ends (h : Reachable AtWill p) :
    p.replay.clock.clocks = p.replay.machine.master.clocks.toUInt32 ∧
      p.replay.clock.clocks ≠ 0 ∧
      (∀ k, (∀ i < k, (Player.tick^[i + 1] p).mix.size = 0) → k < 179) ∧
      ∀ n loops, ∃ result, p.fill n loops = some result := by
  have ho := h.orderly
  refine ⟨?_, ?_, fun k => ho.steady.idle_lt, ?_⟩
  · rw [ho.steady.inTime.clock]
  · exact ho.steady.clocks_ne_zero
  · intro n loops
    by_cases hn : p.Overruns n
    · exact ⟨_, fill_of_overruns hn⟩
    · obtain ⟨out, q, hf⟩ := (ho.steady.exists_fills_iff ho.consumed n loops).2 hn
      exact ⟨_, fill_eq_ok_iff.2 hf⟩

/-- So it is after a jump to ticks of one clock each. -/
theorem fill_ends_after_seek : ∃ tune p, load shortTune (some ⟨#[]⟩) = .ok tune ∧
    Player.new tune minRate = .ok p ∧ Reachable AtWill (p.seek 1 ⟨0, 1, 0⟩) ∧
      ∀ n loops, ∃ result, (p.seek 1 ⟨0, 1, 0⟩).fill n loops = some result := by
  obtain ⟨tune, p, hload, hnew, -, -⟩ := exists_shortTune
  have hr : Reachable AtWill (p.seek 1 ⟨0, 1, 0⟩) := .perform (.seek 1 _) (.new hnew) trivial
  obtain ⟨-, -, -, hends⟩ := Reachable.fill_ends hr
  exact ⟨tune, p, hload, hnew, hr, hends⟩

end PaulaReplay.Player
