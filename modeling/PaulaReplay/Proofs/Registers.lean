/-
  Registers: what holds of the channels and the tracks at all times.

  A host may do anything with a player, and a replay may be looked at between
  any two moves.  What the macros and the patterns are to come back to is known
  from the calls that were made.

  * `Player.Makes`: the moves of what a host does;
  * `Player.Played`: the players of a tune, with their calls, and
    `Replay.Passed` the replays between two moves of them;
  * `Replay.Settled`: what all moves keep;
  * `Passed.registers`: the pointers and the numbers of a replay, and what
    follows from them for returns and for macros that start others.
-/
import PaulaReplay.Proofs.Rewind
import PaulaReplay.Proofs.Returns

namespace PaulaReplay

/-! ## Moves of a host -/

namespace Player

open Replay (Move)

/-- The moves of what a host does.  The filling of a buffer makes some ticks,
    and what is refused or fails makes no move. -/
inductive Makes (p : Player) : Action → List Move → Prop where
  | start {song q} : p.start song = .ok q → Makes p (.start song) (p.startMoves song)
  | tick : Makes p .tick p.tickMoves
  | fill {n loops out q k} : p.fill n loops = some (.ok (out, q)) → Alike q (Player.tick^[k] p) →
      Makes p (.fill n loops) (p.ticksMoves k)
  | seek {position e} : Makes p (.seek position e) (p.aimMoves position e)
  | playEffect {channel word priority i code} : (p.playEffect channel word priority).2 =
      { p with replay := p.replay.reserve i code priority } →
      Makes p (.playEffect channel word priority) [.reserve i code priority]
  | drain : Makes p .drain [.drain]
  | refuseSong {song e} : p.start song = .error e → Makes p (.start song) []
  | refuseEffect {channel word priority} : (p.playEffect channel word priority).2 = p →
      Makes p (.playEffect channel word priority) []
  | failToFill {n loops} : (∀ out q, p.fill n loops ≠ some (.ok (out, q))) →
      Makes p (.fill n loops) []

/-- The players of a tune that a host comes to, and their calls.  A snapshot may
    be that of any other of them. -/
inductive Played (tune : Tune) : Player → Calls → Prop where
  | new {rate p} : Player.new tune rate = .ok p → Played tune p {}
  | perform {p calls action ms} : Played tune p calls → p.Makes action ms →
      Played tune (p.perform action) (calls.run tune.score p.rate ms p.replay)
  | restore {p q calls calls'} : Played tune p calls → Played tune q calls' →
      Played tune (p.restore q.snapshot) calls'

variable {p : Player} {tune : Tune} {calls : Calls}

/-- Whatever a host does, it makes moves. -/
theorem exists_makes (p : Player) (action : Action) : ∃ ms, p.Makes action ms := by
  cases action with
  | start song =>
    cases h : p.start song with
    | ok q => exact ⟨_, .start h⟩
    | error e => exact ⟨_, .refuseSong h⟩
  | tick => exact ⟨_, .tick⟩
  | fill n loops =>
    by_cases h : ∃ out q, p.fill n loops = some (.ok (out, q))
    · obtain ⟨out, q, h⟩ := h
      obtain ⟨k, hk⟩ := (fill_eq_ok_iff.1 h).exists_alike
      exact ⟨_, .fill h hk⟩
    · exact ⟨_, .failToFill fun out q he => h ⟨out, q, he⟩⟩
  | seek position e => exact ⟨_, .seek⟩
  | playEffect channel word priority =>
    rcases p.playEffect_eq channel word priority with h | ⟨i, code, -, h⟩
    · exact ⟨_, .refuseEffect h⟩
    · exact ⟨_, .playEffect h⟩
  | drain => exact ⟨_, .drain⟩

/-- The moves of what a host does lead to the player after it. -/
theorem Makes.run {action : Action} {ms : List Move} (h : p.Makes action ms) :
    p.run ms = (p.perform action).replay := by
  cases h with
  | start h => rw [perform, h]; exact run_startMoves h
  | tick => exact p.run_tickMoves
  | fill h hk => rw [perform, h, run_ticksMoves]; exact hk.replay.symm
  | seek => exact p.run_aimMoves _ _
  | playEffect h => rw [perform, h]; rfl
  | drain => rfl
  | refuseSong h => rw [perform, h]; rfl
  | refuseEffect h => rw [perform, h]; rfl
  | failToFill h =>
    rw [perform]
    split
    · next out q he => exact absurd he (h out q)
    · rfl

theorem perform_tune (p : Player) (action : Action) : (p.perform action).tune = p.tune :=
  (Later.perform action .refl).tune_rate.1

theorem Played.tune_eq (h : Played tune p calls) : p.tune = tune := by
  induction h with
  | new h => exact new_tune h
  | @perform p calls action ms _ _ ih => exact (p.perform_tune action).trans ih
  | restore _ _ ihp _ => exact ihp

/-- A host may do anything with a player. -/
theorem Played.exists_perform (h : Played tune p calls) (action : Action) :
    ∃ calls', Played tune (p.perform action) calls' :=
  (p.exists_makes action).elim fun _ hms => ⟨_, h.perform hms⟩

end Player

namespace Replay

/-- The replays that the players of a tune come to between two moves, and their
    calls. -/
inductive Passed (tune : Tune) : Replay → Calls → Prop where
  | between {p calls action ms ns} : Player.Played tune p calls → p.Makes action (ms ++ ns) →
      Passed tune (p.run ms) (calls.run tune.score p.rate ms p.replay)

variable {r : Replay} {score : Score} {rate : UInt32} {tune : Tune} {calls : Calls}

/-- So are those of the players themselves. -/
theorem passed_of_played {p : Player} (h : Player.Played tune p calls) :
    Passed tune p.replay calls :=
  @Passed.between tune p calls .tick [] p.tickMoves h .tick

/-! ## What moves keep -/

/-- What holds of a replay at all times. -/
structure Settled (score : Score) (calls : Calls) (r : Replay) : Prop where
  anchored : r.Anchored score
  ranged : r.Ranged
  resumes : r.resumes = calls

theorem Settled.apply (hs : score.LaidOut) (h : r.Settled score calls) (mv : Move) :
    (mv.apply score rate r).Settled score (calls.after score r mv) := by
  refine ⟨h.anchored.apply hs mv, h.ranged.apply mv, ?_⟩
  rw [← h.resumes]
  exact resumes_apply hs h.anchored mv

theorem Settled.run (hs : score.LaidOut) : ∀ (ms : List Move) {r : Replay} {calls : Calls},
    r.Settled score calls → (run score rate ms r).Settled score (calls.run score rate ms r)
  | [], _, _, h => h
  | mv :: ms, _, _, h => Settled.run hs ms (h.apply hs mv)

theorem settled_reset (score : Score) (multi : Bool) : (initial multi).reset.Settled score {} :=
  ⟨anchored_reset score multi, ranged_reset multi, resumes_reset multi⟩

end Replay

/-! ## Players -/

namespace Player

variable {p q : Player} {rate : UInt32} {tune : Tune} {calls : Calls} {song : Nat}

/-- The start of a sub-song makes no calls, and takes back all that were made. -/
theorem calls_startMoves (p : Player) (calls : Calls) (song : Nat) :
    calls.run p.tune.score p.rate (p.startMoves song) p.replay = {} := by
  show Calls.run _ _ (p.startMoves song).tail _ {} = {}
  refine Calls.run_of_forall (fun mv hmv => ?_) _ _
  rw [startMoves] at hmv
  simp only [List.tail_cons, List.mem_cons, List.mem_append, List.not_mem_nil, or_false] at hmv
  rcases hmv with rfl | h | rfl
  · exact fun _ _ => rfl
  · rcases Replay.mem_stepMoves _ h with rfl | rfl <;> exact fun _ _ => rfl
  · exact fun _ _ => rfl

theorem settled_start (hs : p.tune.score.LaidOut) (h : p.start song = .ok q) :
    q.replay.Settled p.tune.score {} := by
  have hrun : (p.run (p.startMoves song)).Settled p.tune.score
      (Calls.run p.tune.score p.rate (p.startMoves song) p.replay {}) :=
    Replay.Settled.run hs (p.startMoves song).tail (Replay.settled_reset _ _)
  rwa [calls_startMoves, run_startMoves h] at hrun

theorem settled_new (hs : tune.score.LaidOut) (h : Player.new tune rate = .ok p) :
    p.replay.Settled tune.score {} := by
  unfold Player.new at h
  split at h
  · cases h
  · exact settled_start hs h

theorem Played.settled (hs : tune.score.LaidOut) (h : Played tune p calls) :
    p.replay.Settled tune.score calls := by
  induction h with
  | new h => exact settled_new hs h
  | @perform p calls action ms hp hms ih =>
    rw [← hms.run, run, hp.tune_eq]
    exact ih.run hs ms
  | restore _ _ _ ih => exact ih

end Player

/-! ## Registers -/

/-- A channel after a word that starts a macro, where it takes words. -/
def Channel.startMacro (score : Score) (w : Word) (c : Channel) : Channel :=
  if c.reservation.lock ≠ 0 then c
  else match score.macroStart? w.byte1 with
    | some base => c.begin score.dialect w base
    | none => c.halted

theorem Channel.receive_of_note {score : Score} {w : Word} (h : w.byte0 < 0xc0) (c : Channel) :
    c.receive score w = c.startMacro score w := by
  have hlock : w.byte0 ≠ 0xfc := by
    intro he
    rw [he] at h
    exact absurd h (by decide)
  cases hstart : score.macroStart? w.byte1 <;>
    simp only [receive, startMacro, if_neg hlock, if_pos h, hstart]

/-- The word of an operation that starts a macro is dispatched. -/
theorem Lane.turn_of_start {score : Score} {l : Lane}
    (h : l.channel.program.operation? score = some .start) :
    ∃ l' w, l.turn score = .starts l' w := by
  obtain ⟨w, hw, hop⟩ := Option.map_eq_some_iff.1 h
  unfold turn
  simp only [hw, hop, execute]
  exact ⟨_, _, rfl⟩

namespace Replay

variable {r : Replay} {tune : Tune} {calls : Calls}

theorem Passed.settled (hs : tune.score.LaidOut) (h : Passed tune r calls) :
    r.Settled tune.score calls := by
  cases h with
  | @between p calls action ms ns hp _ =>
    rw [Player.run, hp.tune_eq]
    exact (hp.settled hs).run hs ms

/-- Whatever a host does with players of a tune, and between any two moves of
    theirs: macros and patterns begin where the tables of the tune say, or
    nowhere yet, and the other registers are in their ranges.  So they begin on
    words of the music data, and 16 bits are enough for where; a return comes to
    the word behind the last call, or to the first of all words where there was
    none; and a macro that starts another one does nothing else to any
    channel. -/
theorem Passed.registers {music : ByteArray} {samples : Option ByteArray}
    (hload : load music samples = .ok tune) (h : Passed tune r calls) :
    (∀ i : Slot, Among tune.score.macros r.machine.channels[i].program.base ∧
      Among tune.score.macros r.machine.channels[i].program.returnBase.toUInt32 ∧
      r.machine.channels[i].Ranged ∧ r.machine.voices[i].mode ≤ 7 ∧
      Among tune.score.patterns r.tracks[i].base ∧
      Among tune.score.patterns r.tracks[i].returnBase) ∧
    (∀ o, Among tune.score.macros o ∨ Among tune.score.patterns o →
      OnWord o ∧ o.toUInt16.toUInt32 = o ∧ o &&& 0xffff = o) ∧
    (∀ i : Slot, r.machine.channels[i].program.operation? tune.score = some .back →
      (r.machine.runWord tune.score i).channels[i].program.next = calls.macros[i]) ∧
    (∀ i : Slot, r.tracks[i].instruction? tune.score = some (.command .back) →
      (r.runWord tune.score i).tracks[i].next = calls.patterns[i]) ∧
    ∀ i : Slot, r.machine.channels[i].program.operation? tune.score = some .start →
      ∃ l w, (r.machine.lane i).turn tune.score = .starts l w ∧
        ∀ c : Channel, c.receive tune.score w = c.startMacro tune.score w := by
  have hs := laidOut_of_load hload
  obtain ⟨hanchored, hranged, rfl⟩ := h.settled hs
  refine ⟨fun i => ⟨(hanchored.channels i).base, (hanchored.channels i).returnBase, hranged i,
    hanchored.modes i, (hanchored.tracks i).base, (hanchored.tracks i).returnBase⟩, fun o ho => ?_,
    fun i hback => Machine.next_runWord hback, fun i hback => Tracks.next_step hback,
    fun i hstart => ?_⟩
  · have ho : OnWord o := ho.elim (·.onWord hs.macros) (·.onWord hs.patterns)
    exact ⟨ho, ho.toUInt32_toUInt16, ho.and_mask⟩
  · obtain ⟨l, w, hl⟩ := Lane.turn_of_start (l := r.machine.lane i) hstart
    refine ⟨l, w, hl, Channel.receive_of_note ?_⟩
    rw [Lane.byte0_of_starts hl]
    exact (hranged i).note

/-- A tune whose pattern and macro call another one, which goes back; a second
    macro starts a third one. -/
def returningTune : ByteArray :=
  songTune 0 1 [0 :: List.replicate 7 0xff00]
    [[0x10000000, 0x10020100, 0xf8010000, 0xf0000000], [0xf3010000, 0xf9000000]]
    [[0x15010000, 0x07000000], [0x16000000], [0x21010200, 0x07000000]]

/-- In its second tick, after the first word of a macro, that macro and a pattern
    are to go back, and another macro is to start one. -/
theorem registers_returningTune : ∃ tune r calls, load returningTune (some ⟨#[]⟩) = .ok tune ∧
    Passed tune r calls ∧
      r.machine.channels[(0 : Slot)].program.operation? tune.score = some .back ∧
      (r.machine.runWord tune.score 0).channels[(0 : Slot)].program.next = 0x2c ∧
      r.tracks[(0 : Slot)].instruction? tune.score = some (.command .back) ∧
      (r.runWord tune.score 0).tracks[(0 : Slot)].next = 0x1c ∧
      r.machine.channels[(1 : Slot)].program.operation? tune.score = some .start ∧
      ∃ l w, (r.machine.lane 1).turn tune.score = .starts l w ∧
        ∀ c : Channel, c.receive tune.score w = c.startMacro tune.score w := by
  have h : ((load returningTune (some ⟨#[]⟩)).toOption.bind fun tune =>
      (Player.new tune minRate).toOption.map fun p =>
        let ms := p.tick.tickMoves.take 6
        let r := p.tick.run ms
        let calls := Calls.run p.tune.score p.rate ms p.tick.replay
          (Calls.run p.tune.score p.rate p.tickMoves p.replay {})
        ([r.machine.channels[(0 : Slot)], r.machine.channels[(1 : Slot)]].map
            (·.program.operation? p.tune.score), r.tracks[(0 : Slot)].instruction? p.tune.score,
          calls.macros[(0 : Slot)], calls.patterns[(0 : Slot)])) =
        some ([some .back, some .start], some (.command .back), 0x2c, 0x1c) := by decide +kernel
  obtain ⟨tune, p, hload, hnew, h⟩ := Player.exists_new h
  obtain rfl := Player.new_tune hnew
  simp only [Prod.mk.injEq, List.map_cons, List.map_nil, List.cons.injEq, and_true] at h
  obtain ⟨⟨hback, hstart⟩, hpattern, hmacros, hpatterns⟩ := h
  have hplayed : Player.Played p.tune p.tick _ :=
    Player.Played.perform (.new hnew) (.tick : p.Makes .tick _)
  have hpassed := @Passed.between p.tune p.tick _ .tick (p.tick.tickMoves.take 6)
    (p.tick.tickMoves.drop 6) hplayed (by rw [List.take_append_drop]; exact .tick)
  obtain ⟨-, -, hreturn, hresume, hstarts⟩ := hpassed.registers hload
  exact ⟨p.tune, _, _, hload, hpassed, hback, (hreturn 0 hback).trans hmacros, hpattern,
    (hresume 0 hpattern).trans hpatterns, hstart, hstarts 1 hstart⟩

end Replay

end PaulaReplay
