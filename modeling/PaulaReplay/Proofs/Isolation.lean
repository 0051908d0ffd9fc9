/-
  Isolation: how far the tick of a channel reaches.

  In its tick a channel works its own registers and its voice.  Beyond them it slides the
  master volume and hands numbers to the host, and it reaches another channel by a word
  alone: by the sound effect that waits for it, or as its macro starts another one there.
  Of the other channels it reads nothing.

  * `Machine.Apart`: what is as it was after the tick of a channel;
  * `Machine.EffectNames`, `Machine.StartsOn`: a word goes out to a channel, and
    `Machine.exists_dispatched` that nothing else gets there;
  * `Machine.Agree`: two machines are the same for a channel; `Agree.apply` and
    `Agree.channelMoves_eq`: so they are after each of its moves, and the moves are the
    same ones;
  * `Machine.tickChannel_isolated`: all this of a tick.
-/
import PaulaReplay.Proofs.Board
import PaulaReplay.Proofs.Reservations
import PaulaReplay.Proofs.Volume

namespace PaulaReplay

/-! ## Words -/

theorem Operation.ofByte_eq_start {b : UInt8} (h : ofByte b = .start) : b = 0x21 := by
  unfold ofByte at h
  split at h
  case h_32 hb => exact UInt8.toNat_inj.1 hb
  all_goals cases h

/-- Where the slide of the master volume is to come, and how fast. -/
def Fade.goal (f : Fade) : Int8 × Int8 := (f.target, f.reset)

namespace Machine

variable {m n : Machine} {score : Score} {rate : UInt32} {i j : Slot}

theorem channelOf_congr (h : n.multi = m.multi) (b : UInt8) : n.channelOf b = m.channelOf b := by
  unfold channelOf channelMask
  rw [h]

/-- The velocity that goes with a word does not change the channel that it names. -/
theorem channelOf_or_shiftLeft (m : Machine) (b v : UInt8) :
    m.channelOf (b ||| v <<< 4) = m.channelOf b := by
  have hmask : ∀ k : UInt8, k = 3 ∨ k = 7 → (b ||| v <<< 4) &&& k = b &&& k := by
    intro k hk
    rw [← UInt8.toBitVec_inj]
    ext n hn
    rcases hk with rfl | rfl <;> interval_cases n <;> simp
  unfold channelOf channelMask
  split
  · rw [hmask 7 (.inr rfl)]
  · rw [hmask 3 (.inl rfl)]

/-! ## What is apart from a channel -/

/-- That is not for the channels to say. -/
theorem goal_apply (m : Machine) (mv : Move) :
    (mv.apply score rate m).master.fade.goal = m.master.fade.goal := by
  have hadvance : ∀ f : Fade, f.advance.goal = f.goal := by
    intro f
    unfold Fade.advance
    simp only
    split_ifs <;> rfl
  cases mv with
  | takeEffect i =>
    rw [Move.apply, takeEffect]
    split <;> rfl
  | word i =>
    rw [Move.apply, runWord]
    split <;> rfl
  | bend i =>
    rw [Move.apply, bend]
    simp only
    split_ifs
    · rfl
    · rfl
    · exact hadvance _
  | _ => rfl

/-- A channel works no voice but its own. -/
theorem voices_apply_ne {mv : Move} (h : mv.slot ≠ j) (m : Machine) :
    (mv.apply score rate m).voices[j] = m.voices[j] := by
  cases mv with
  | takeEffect i =>
    rw [Move.apply, takeEffect]
    split <;> rfl
  | word i => exact (voices_runWord m i j).trans (if_neg h)
  | bend i => rw [Move.apply, voices_bend]
  | load i => exact (voices_setVoice m i j _).trans (if_neg h)
  | _ => rfl

/-- All that is as it was when a channel has had its tick, but for other channels: how many
    voices are heard, how often the song has ended, the notices, the voices of other
    channels, and all registers of the replay except for the volume, the time and the slope
    of the master volume. -/
structure Apart (i : Slot) (m m' : Machine) : Prop where
  multi : m'.multi = m.multi
  endCount : m'.endCount = m.endCount
  notices : m'.notices = m.notices
  voices : ∀ j, j ≠ i → m'.voices[j] = m.voices[j]
  master : m'.master = { m.master with
    fade.volume := m'.master.fade.volume
    fade.time := m'.master.fade.time
    fade.slope := m'.master.fade.slope }

theorem apart_tickChannel (score : Score) (rate : UInt32) (i : Slot) (m : Machine) :
    Apart i m (m.tickChannel score rate i) := by
  have hboard := m.board_tickChannel score rate i
  have hgoal : (m.tickChannel score rate i).master.fade.goal = m.master.fade.goal :=
    tickChannel_leaves (f := fun m => m.master.fade.goal) (fun m mv _ => goal_apply m mv) m
  have hvoices : ∀ j, j ≠ i → (m.tickChannel score rate i).voices[j] = m.voices[j] :=
    fun j hj => tickChannel_leaves (f := fun m => m.voices[j])
      (fun m _ hmv => voices_apply_ne (fun he => hj (he.symm.trans hmv)) m) m
  generalize m.tickChannel score rate i = m' at hboard hgoal hvoices ⊢
  have hrest : { m'.master with fade := {} } = { m.master with fade := {} } :=
    congrArg Prod.fst hboard
  have hfade : m'.master.fade = { m.master.fade with
      volume := m'.master.fade.volume
      time := m'.master.fade.time
      slope := m'.master.fade.slope } :=
    congrArg (fun g : Int8 × Int8 => { m'.master.fade with target := g.1, reset := g.2 }) hgoal
  refine ⟨congrArg (·.2.1) hboard, congrArg (·.2.2.1) hboard, congrArg (·.2.2.2) hboard,
    hvoices, ?_⟩
  calc m'.master = { m.master with fade := m'.master.fade } :=
        congrArg (fun s : Master => { s with fade := m'.master.fade }) hrest
    _ = _ := congrArg (fun f => { m.master with fade := f }) hfade

/-! ## Words that go out -/

/-- The sound effect that waits for a channel names channel `j`. -/
def EffectNames (i j : Slot) (m : Machine) : Prop :=
  m.code i ≠ 0 ∧ m.channelOf (⟨m.code i⟩ : Word).byte2 = j

/-- In the tick of a channel its macro runs a word that starts a macro on channel `j`. -/
def StartsOn (score : Score) (rate : UInt32) (i j : Slot) (m : Machine) : Prop :=
  ∃ before after w, channelMoves score i m = before ++ .word i :: after ∧
    (let p := (run score rate before m).channels[i].program
     score.word? p.base p.step = some w) ∧
    w.byte0 = 0x21 ∧ m.channelOf w.byte2 = j

theorem multi_run (ms : List Move) (m : Machine) : (run score rate ms m).multi = m.multi := by
  induction ms generalizing m with
  | nil => rfl
  | cons mv ms ih => rw [run_cons, ih, multi_apply]

/-- An effect waits until it is taken, and then none does. -/
theorem code_run (score : Score) (rate : UInt32) (i : Slot) (ms : List Move) (m : Machine) :
    (run score rate ms m).code i = m.code i ∨ (run score rate ms m).code i = 0 := by
  induction ms generalizing m with
  | nil => exact .inl rfl
  | cons mv ms ih =>
    rw [run_cons]
    by_cases hmv : mv = .takeEffect i
    · subst hmv
      have htaken : (Move.apply score rate m (.takeEffect i)).code i = 0 :=
        code_takeEffect_self m i
      exact .inr ((ih _).elim (·.trans htaken) id)
    · exact (ih _).imp_left (·.trans (code_apply hmv))

/-- What a channel dispatches is the effect that waits for it, or comes from a word of its
    macro that starts one. -/
theorem dispatched_cases {mv : Move} {m' : Machine} {w : Word} (hmv : mv.slot = i)
    (h : m.dispatched score mv = some (m', w)) :
    m'.multi = m.multi ∧
      (m.code i ≠ 0 ∧ w = ⟨m.code i⟩ ∨ mv = .word i ∧ ∃ x, score.word?
        m.channels[i].program.base m.channels[i].program.step = some x ∧ x.byte0 = 0x21 ∧
          m.channelOf w.byte2 = m.channelOf x.byte2) := by
  cases mv with
  | takeEffect k =>
    obtain rfl : k = i := hmv
    simp only [dispatched] at h
    split at h
    · cases h
    · next hcode =>
      cases h
      exact ⟨rfl, .inl ⟨hcode, rfl⟩⟩
  | word k =>
    obtain rfl : k = i := hmv
    simp only [dispatched] at h
    split at h
    · next l w' hturn =>
      cases h
      obtain ⟨x, hx, hop, rfl⟩ := Lane.exists_word_of_starts hturn
      refine ⟨rfl, .inr ⟨rfl, x, hx, Operation.ofByte_eq_start hop, ?_⟩⟩
      rw [Lane.startWord, Word.byte2_withByte2, channelOf_or_shiftLeft, Word.byte2_withByte0]
    · cases h
  | _ => cases h

/-- Where another channel is changed by some moves, one of them has dispatched a word to
    it. -/
theorem exists_dispatched (hij : i ≠ j) : ∀ (ms : List Move) (m : Machine),
    (∀ mv ∈ ms, mv.slot = i) → (run score rate ms m).channels[j] ≠ m.channels[j] →
      ∃ before mv after m' w, ms = before ++ mv :: after ∧
        (run score rate before m).dispatched score mv = some (m', w) ∧ m'.channelOf w.byte2 = j
  | [], _, _, h => absurd rfl h
  | mv :: ms, m, hms, h => by
    have hmv : mv.slot ≠ j := fun he => hij ((hms mv List.mem_cons_self).symm.trans he)
    rcases (m.channel_cases mv hmv : (mv.apply score rate m).channels[j] = _ ∨ _) with
      hsame | ⟨m', w, hd, hw, -⟩
    · rw [run_cons, ← hsame] at h
      obtain ⟨before, mv', after, m', w, rfl, hd, hw⟩ :=
        exists_dispatched hij ms _ (fun mv' h' => hms mv' (List.mem_cons_of_mem mv h')) h
      exact ⟨mv :: before, mv', after, m', w, rfl, hd, hw⟩
    · exact ⟨[], mv, ms, m', w, rfl, hd, hw⟩

/-- So nothing but a word gets to another channel. -/
theorem channels_tickChannel_ne (hij : i ≠ j)
    (h : (m.tickChannel score rate i).channels[j] ≠ m.channels[j]) :
    m.EffectNames i j ∨ m.StartsOn score rate i j := by
  rw [← run_channelMoves] at h
  obtain ⟨before, mv, after, m', w, hmoves, hd, hw⟩ :=
    exists_dispatched hij _ m (fun _ => slot_of_mem_channelMoves) h
  have hmem : mv ∈ channelMoves score i m := by
    rw [hmoves]
    exact List.mem_append_right before List.mem_cons_self
  obtain ⟨hmulti, hcases⟩ := dispatched_cases (slot_of_mem_channelMoves hmem) hd
  have hname : ∀ b, m'.channelOf b = m.channelOf b :=
    channelOf_congr (hmulti.trans (multi_run before m))
  rcases hcases with ⟨hcode, rfl⟩ | ⟨rfl, x, hx, hstart, hbyte⟩
  · -- no effect comes to wait in a tick, so this one did before
    rcases code_run score rate i before m with hsame | hnone
    · rw [hname, hsame] at hw
      exact .inl ⟨hsame ▸ hcode, hw⟩
    · exact absurd hnone hcode
  · refine .inr ⟨before, after, x, hmoves, hx, hstart, ?_⟩
    rw [← hw, hname, ← channelOf_congr (multi_run before m), ← channelOf_congr (multi_run before m),
      hbyte]

/-! ## What a channel reads -/

/-- Two machines are the same for a channel: in its registers and its voice, in the master
    volume, in the numbers for the host, and in how many voices are heard. -/
structure Agree (i : Slot) (m n : Machine) : Prop where
  channel : m.channels[i] = n.channels[i]
  voice : m.voices[i] = n.voices[i]
  fade : m.master.fade = n.master.fade
  cues : m.cues = n.cues
  multi : m.multi = n.multi

theorem Agree.lane (h : Agree i m n) : m.lane i = n.lane i :=
  congrArg₂ Lane.mk h.channel h.voice

theorem Agree.setChannel (h : Agree i m n) {c d : Channel} (hcd : c = d) :
    Agree i (m.setChannel i c) (n.setChannel i d) where
  channel := by
    show (m.channels.set i c)[i] = (n.channels.set i d)[i]
    rw [Octet.getElem_set_self, Octet.getElem_set_self, hcd]
  voice := h.voice
  fade := h.fade
  cues := h.cues
  multi := h.multi

theorem Agree.setVoice (h : Agree i m n) {v u : Voice} (hvu : v = u) :
    Agree i (m.setVoice i v) (n.setVoice i u) where
  channel := h.channel
  voice := by
    show (m.voices.set i v)[i] = (n.voices.set i u)[i]
    rw [Octet.getElem_set_self, Octet.getElem_set_self, hvu]
  fade := h.fade
  cues := h.cues
  multi := h.multi

theorem Agree.setLane (h : Agree i m n) (l : Lane) : Agree i (m.setLane i l) (n.setLane i l) :=
  (h.setChannel rfl).setVoice rfl

theorem Agree.onChannel (h : Agree i m n) (f : Channel → Channel) :
    Agree i (m.onChannel i f) (n.onChannel i f) := h.setChannel (congrArg f h.channel)

/-- The same word does the same to the channel, whichever channel it comes to. -/
theorem Agree.dispatch (h : Agree i m n) (w : Word) :
    Agree i (m.dispatch score w) (n.dispatch score w) where
  channel := by
    rw [channels_dispatch, channels_dispatch, channelOf_congr h.multi, h.channel]
  voice := h.voice
  fade := h.fade
  cues := h.cues
  multi := h.multi

theorem Agree.runWord (h : Agree i m n) : Agree i (m.runWord score i) (n.runWord score i) := by
  unfold Machine.runWord
  rw [h.lane]
  cases (n.lane i).turn score with
  | goesOn l | rests l => exact h.setLane l
  | starts l w => exact (h.setLane l).dispatch w
  | cues l slot value =>
    have hlane := h.setLane l
    exact ⟨hlane.channel, hlane.voice, hlane.fade,
      congrArg (fun c : Vector UInt16 4 => c.set (Fin.ofNat 4 slot.toNat) value) hlane.cues,
      hlane.multi⟩

theorem Agree.takeEffect (h : Agree i m n) :
    Agree i (m.takeEffect score i) (n.takeEffect score i) := by
  unfold Machine.takeEffect
  rw [h.channel]
  simp only
  split
  · exact h
  · exact (h.onChannel _).dispatch _

theorem Agree.bend (h : Agree i m n) : Agree i (m.bend i) (n.bend i) := by
  unfold Machine.bend
  rw [h.channel]
  simp only
  split_ifs
  · exact h
  · exact h.setChannel rfl
  · have hset := h.setChannel (rfl : n.channels[i].bend = _)
    exact ⟨hset.channel, hset.voice, congrArg Fade.advance hset.fade, hset.cues, hset.multi⟩

/-- In each move of its tick a channel does the same in both. -/
theorem Agree.apply {mv : Move} (h : Agree i m n) (hmv : mv.slot = i) :
    Agree i (mv.apply score rate m) (mv.apply score rate n) := by
  cases mv with
  | countLock k =>
    obtain rfl : k = i := hmv
    exact h.onChannel Channel.countLock
  | takeEffect k =>
    obtain rfl : k = i := hmv
    exact h.takeEffect
  | countWait k =>
    obtain rfl : k = i := hmv
    exact h.onChannel fun c => c.countWait.1
  | wake k =>
    obtain rfl : k = i := hmv
    exact h.onChannel fun c => { c with program.wait := 0 }
  | halt k =>
    obtain rfl : k = i := hmv
    exact h.onChannel Channel.halted
  | word k =>
    obtain rfl : k = i := hmv
    exact h.runWord
  | bend k =>
    obtain rfl : k = i := hmv
    exact h.bend
  | load k =>
    obtain rfl : k = i := hmv
    refine h.setVoice ?_
    rw [h.lane, h.fade]

theorem Agree.run : ∀ (ms : List Move) {m n : Machine}, Agree i m n → (∀ mv ∈ ms, mv.slot = i) →
    Agree i (run score rate ms m) (run score rate ms n)
  | [], _, _, h, _ => h
  | mv :: ms, _, _, h, hms =>
    Agree.run ms (h.apply (hms mv List.mem_cons_self)) fun mv' h' =>
      hms mv' (List.mem_cons_of_mem mv h')

theorem Agree.wordMoves_eq : ∀ (k : Nat) {m n : Machine}, Agree i m n →
    wordMoves score i k m = wordMoves score i k n
  | 0, _, _, _ => rfl
  | k + 1, m, n, h => by
    rw [wordMoves, wordMoves, h.lane, Agree.wordMoves_eq k h.runWord]

/-- Its moves are the same ones. -/
theorem Agree.channelMoves_eq (h : Agree i m n) :
    channelMoves score i m = channelMoves score i n := by
  have htake : Agree i ((m.onChannel i Channel.countLock).takeEffect score i)
      ((n.onChannel i Channel.countLock).takeEffect score i) := (h.onChannel _).takeEffect
  rw [channelMoves, channelMoves, turnMoves, turnMoves, htake.channel,
    Agree.wordMoves_eq macroBound ((htake.onChannel _).onChannel _)]

theorem Agree.tickChannel (h : Agree i m n) :
    Agree i (m.tickChannel score rate i) (n.tickChannel score rate i) := by
  rw [← run_channelMoves, ← run_channelMoves, ← h.channelMoves_eq]
  exact Agree.run _ h fun _ => slot_of_mem_channelMoves

/-- In its tick a channel leaves all that is apart from it, and another channel is changed
    only where the sound effect that waits names it, or where the macro starts one there.
    What comes of the tick depends on no other channel: where two machines are the same for
    the channel, they are so afterwards, and the moves of the tick are the same. -/
theorem tickChannel_isolated (score : Score) (rate : UInt32) (i : Slot) (m : Machine) :
    Apart i m (m.tickChannel score rate i) ∧
      (∀ j, j ≠ i → (m.tickChannel score rate i).channels[j] ≠ m.channels[j] →
        m.EffectNames i j ∨ m.StartsOn score rate i j) ∧
      ∀ n, Agree i m n → channelMoves score i m = channelMoves score i n ∧
        Agree i (m.tickChannel score rate i) (n.tickChannel score rate i) :=
  ⟨apart_tickChannel score rate i m, fun _ hj h => channels_tickChannel_ne hj.symm h,
    fun _ h => ⟨h.channelMoves_eq, h.tickChannel⟩⟩

end Machine

namespace Player

/-- In the second tick the macro of channel 1 starts another one on channel 2, whatever
    the registers of channel 0 are. -/
theorem isolated_returningTune : ∃ tune p, load Replay.returningTune (some ⟨#[]⟩) = .ok tune ∧
    Player.new tune minRate = .ok p ∧
    let m := p.tick.replay.machine
    (m.tickChannel tune.score p.rate 1).channels[(2 : Slot)] ≠ m.channels[(2 : Slot)] ∧
      m.StartsOn tune.score p.rate 1 2 ∧
      Machine.Apart 1 m (m.tickChannel tune.score p.rate 1) ∧
      ∀ c, Machine.Agree 1 (m.tickChannel tune.score p.rate 1)
        ((m.setChannel 0 c).tickChannel tune.score p.rate 1) := by
  have h : ((load Replay.returningTune (some ⟨#[]⟩)).toOption.bind fun tune =>
      (Player.new tune minRate).toOption.map fun p =>
        (decide ((p.tick.replay.machine.tickChannel p.tune.score p.rate 1).channels[(2 : Slot)] ≠
          p.tick.replay.machine.channels[(2 : Slot)]), p.tick.replay.machine.code 1)) =
        some (true, 0) := by decide +kernel
  obtain ⟨tune, p, hload, hnew, h⟩ := exists_new h
  obtain rfl := new_tune hnew
  simp only [Prod.mk.injEq, decide_eq_true_eq] at h
  obtain ⟨hchanged, hcode⟩ := h
  obtain ⟨hapart, hword, hagree⟩ :=
    Machine.tickChannel_isolated p.tune.score p.rate 1 p.tick.replay.machine
  refine ⟨p.tune, p, hload, hnew, hchanged, ?_, hapart, fun c => (hagree _ ?_).2⟩
  · exact (hword 2 (by decide) hchanged).resolve_left fun heffect => heffect.1 hcode
  · exact ⟨(Machine.channels_setChannel_ne (by decide) c).symm, rfl, rfl, rfl, rfl⟩

end Player

end PaulaReplay
