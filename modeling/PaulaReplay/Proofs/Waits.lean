/-
  Waits: how long tracks and macros wait.

  A track that waits counts down once in each of its rows, and a macro once in each tick
  of its channel.  Both look at the count before they take one off, so a wait of zero is
  over the next time already.

  * `Track.WaitsAt`, `Program.WaitsAt`: a track, or a macro, stands at a word with so
    many rows, or ticks, to wait before it is run;
  * `Tracks.playRow_of_waiting`, `Tracks.playRow_of_due`, `Machine.tickChannel_of_waiting`,
    `Machine.tickChannel_of_due`: what a row, or a tick, makes of the wait;
  * `Tracks.Spares`, `Replay.Spares`: what else may happen in between, as long as the
    track is given no other pattern, and the channel no note; `Tracks.waitsAt_spares` and
    `Replay.waitsAt_of_spares`: it leaves the wait;
  * `Tracks.RestsFor`, `Replay.RestsFor`: a word is the last one of its row, or turn, for
    so many rows, or ticks; `waits_exactly`: for as many as a wait says.
-/
import PaulaReplay.Proofs.Channels
import PaulaReplay.Proofs.Endless

namespace PaulaReplay

open Pattern

variable {score : Score} {rate : UInt32}

/-! ## Tracks -/

/-- A track that plays: it has a pattern, and is not stopped. -/
structure Track.Runs (t : Track) : Prop where
  base : t.base ≠ 0
  unstopped : t.isStopped = false

theorem Track.Runs.number_ne {t : Track} (h : t.Runs) : t.number ≠ offNumber := by
  intro he
  have hstopped := h.unstopped
  rw [Track.isStopped, he] at hstopped
  exact absurd hstopped (by decide)

/-- A track plays and stands at a word, which it runs after so many rows. -/
structure Track.WaitsAt (base : UInt32) (step : UInt16) (n : Nat) (t : Track) : Prop where
  base : t.base = base
  step : t.step = step
  wait : t.wait.toNat = n
  runs : t.Runs

/-- The rows that a word of a pattern makes its track wait, if it does. -/
def Word.restRows? (w : Word) : Option UInt8 :=
  match Instruction.ofByte w.byte0 with
  | .command .wait => some w.byte1
  | .note .hold => some w.byte3
  | _ => none

/-- The track on which a word starts a pattern, if it does. -/
def Word.target? (w : Word) : Option Slot :=
  match Instruction.ofByte w.byte0 with
  | .command .play => some (Slot.ofNat w.byte2.toNat)
  | _ => none

theorem Octet.modify_modify {α : Type} (o : Octet α) (i : Slot) (f g : α → α) :
    (o.modify i f).modify i g = o.modify i (g ∘ f) := by
  ext j
  simp only [Octet.getElem_modify]
  split <;> rfl

namespace Tracks

variable {ts us : Tracks} {i j : Slot} {base : UInt32} {step : UInt16} {n : Nat}

/-- The tracks after a row in which one of them has waited. -/
def countWait (i : Slot) (ts : Tracks) : Tracks :=
  ts.modify i ({ · with wait := ts[i].wait - 1 })

theorem getElem_countWait (i : Slot) (ts : Tracks) :
    (ts.countWait i)[i] = { ts[i] with wait := ts[i].wait - 1 } := Octet.getElem_set_self _ _ _

theorem enter_of_runs (h : ts[i].Runs) :
    enter i ts = if ts[i].wait ≠ 0 then .idle (ts.countWait i) else .runs (ts.countWait i) := by
  have hplays : ¬(ts[i].base = 0 ∨ ts[i].isStopped = true) := by
    rw [h.unstopped]
    exact not_or.2 ⟨h.base, Bool.false_ne_true⟩
  rw [enter, if_neg h.number_ne, if_neg hplays]
  rfl

/-! ### Words that wait -/

/-- A word that makes its track wait ends the row. -/
theorem step_of_wait {w : Word} {n : UInt8} (hw : score.word? ts[i].base ts[i].step = some w)
    (hn : w.restRows? = some n) :
    (Tracks.step score i ts).tracks =
        ts.modify i (fun t => { t with step := t.step + 1, wait := n }) ∧
      (Tracks.step score i ts).flow = .rests ∧
        (Tracks.step score i ts).request ≠ some .endSong := by
  have hboth : (ts.modify i fun t => { t with step := t.step + 1 }).modify i
      ({ · with wait := n }) = ts.modify i (fun t => { t with step := t.step + 1, wait := n }) :=
    Octet.modify_modify _ _ _ _
  rw [Tracks.step, hw]
  simp only
  unfold execute
  unfold Word.restRows? at hn
  cases hinstruction : Instruction.ofByte w.byte0 with
  | note kind =>
    rw [hinstruction] at hn
    cases kind with
    | hold =>
      cases hn
      exact ⟨hboth, rfl, by rintro ⟨⟩⟩
    | plain | slide => cases hn
  | command c =>
    rw [hinstruction] at hn
    cases c with
    | wait =>
      cases hn
      exact ⟨hboth, rfl, by rintro ⟨⟩⟩
    | _ => cases hn

/-! ### Rows -/

/-- A row in which a track waits counts its wait down, and changes nothing else. -/
theorem playRow_of_waiting (score : Score) (h : ts[i].WaitsAt base step (n + 1)) :
    (∀ m, playRow score i ts m = ((ts.countWait i, m), false)) ∧
      simulateRow score i ts = (ts.countWait i, false) := by
  have hwait : ts[i].wait ≠ 0 := by
    intro he
    have hn := h.wait
    rw [he] at hn
    exact absurd hn (Nat.succ_ne_zero n).symm
  have henter : enter i ts = .idle (ts.countWait i) := (enter_of_runs h.runs).trans (if_pos hwait)
  rw [simulateRow, henter]
  refine ⟨fun m => ?_, rfl⟩
  rw [playRow, henter]

/-- A row in which the wait of a track is over runs its next words. -/
theorem playRow_of_due (h : ts[i].WaitsAt base step 0) :
    (∀ m, playRow score i ts m = playWords score i rowBound (ts.countWait i) m) ∧
      simulateRow score i ts = simulateWords score i rowBound (ts.countWait i) := by
  have hwait : ts[i].wait = 0 := UInt8.toNat_inj.1 h.wait
  have henter : enter i ts = .runs (ts.countWait i) :=
    (enter_of_runs h.runs).trans (if_neg (not_not.2 hwait))
  rw [simulateRow, henter]
  refine ⟨fun m => ?_, rfl⟩
  rw [playRow, henter]

theorem waitsAt_countWait (h : ts[i].WaitsAt base step (n + 1)) :
    (ts.countWait i)[i].WaitsAt base step n := by
  have hle : (1 : UInt8) ≤ ts[i].wait := by
    rw [UInt8.le_iff_toNat_le, h.wait]
    exact Nat.succ_le_succ n.zero_le
  have hn : (ts[i].wait - 1).toNat = n := by
    rw [UInt8.toNat_sub_of_le _ _ hle, h.wait]
    rfl
  rw [getElem_countWait]
  exact ⟨h.base, h.step, hn, h.runs.base, h.runs.unstopped⟩

/-! ### In between -/

/-- A move that is not one of the row of track `i` and does not give it a pattern. -/
def Move.spares (score : Score) (i : Slot) (ts : Tracks) : Move → Bool
  | .enter j | .stop j => j != i
  | .word j => j != i && (score.word? ts[j].base ts[j].step).bind Word.target? != some i
  | .give numbers _ => 0x80 ≤ numbers i && numbers i < 0x90
  | .clear | .reset => false

/-- Whether some moves are all such ones. -/
def spared (score : Score) (i : Slot) : List Move → Tracks → Bool
  | [], _ => true
  | mv :: ms, ts => mv.spares score i ts && spared score i ms (mv.apply score ts)

/-- Tracks that come from others by such moves alone. -/
def Spares (score : Score) (i : Slot) (ts us : Tracks) : Prop :=
  ∃ ms, spared score i ms ts = true ∧ us = run score ms ts

theorem getElem_modify_ne (h : j ≠ i) (f : Track → Track) : (ts.modify j f)[i] = ts[i] :=
  (Octet.getElem_modify _ _ _ _).trans (if_neg h)

theorem getElem_execute_ne (h : j ≠ i) {w : Word} (hw : w.target? ≠ some i) :
    (execute score j w ts).tracks[i] = ts[i] := by
  unfold execute
  unfold Word.target? at hw
  cases hinstruction : Instruction.ofByte w.byte0 with
  | note kind =>
    cases kind with
    | hold => exact getElem_modify_ne h _
    | plain | slide => rfl
  | command c =>
    rw [hinstruction] at hw
    cases c with
    | play => exact getElem_modify_ne (fun he => hw (congrArg some he)) _
    | finish | jump | call | back | wait | stop | stopCustom => exact getElem_modify_ne h _
    | loop => exact Octet.getElem_set_ne _ h _
    | keyUp | vibrato | envelope | lock | fade | cue | rest => rfl

theorem getElem_step_ne (h : j ≠ i)
    (hw : (score.word? ts[j].base ts[j].step).bind Word.target? ≠ some i) :
    (Tracks.step score j ts).tracks[i] = ts[i] := by
  unfold Tracks.step
  cases hword : score.word? ts[j].base ts[j].step with
  | none => exact getElem_modify_ne h _
  | some w =>
    rw [hword] at hw
    exact (getElem_execute_ne h hw).trans (getElem_modify_ne h _)

theorem getElem_enter_ne (h : j ≠ i) : (enter j ts).tracks[i] = ts[i] := by
  unfold enter
  have hmodify : ∀ f : Track → Track, (ts.modify j f)[i] = ts[i] := getElem_modify_ne h
  simp only
  split_ifs
  · exact hmodify Track.stop
  · rfl
  · exact hmodify ({ · with wait := ts[j].wait - 1 })
  · exact hmodify ({ · with wait := ts[j].wait - 1 })

/-- A move that spares a track leaves it where it is, and does not stop it. -/
theorem getElem_apply_of_spares {mv : Move} (hmv : mv.spares score i ts = true) :
    ∃ number transpose, (mv.apply score ts)[i] = { ts[i] with number, transpose } ∧
      (ts[i].isStopped = false → Track.isStopped { ts[i] with number, transpose } = false) := by
  cases mv with
  | enter j => exact ⟨_, _, getElem_enter_ne (bne_iff_ne.1 hmv), id⟩
  | word j =>
    obtain ⟨hj, hword⟩ := Bool.and_eq_true_iff.1 hmv
    exact ⟨_, _, getElem_step_ne (bne_iff_ne.1 hj) (bne_iff_ne.1 hword), id⟩
  | stop j => exact ⟨_, _, getElem_modify_ne (bne_iff_ne.1 hmv) _, id⟩
  | give numbers transposes =>
    simp only [Move.spares, Bool.and_eq_true, decide_eq_true_eq] at hmv
    have hgoes : ¬ numbers i < 0x80 := UInt8.not_lt.2 hmv.1
    refine ⟨numbers i, transposes i, ?_, fun _ => decide_eq_false (UInt8.not_le.2 hmv.2)⟩
    rw [Move.apply, Octet.getElem_ofFn, Replay.assign]
    simp only [if_neg hgoes]
  | clear | reset => cases hmv

/-- So it goes on waiting. -/
theorem waitsAt_apply {mv : Move} (hmv : mv.spares score i ts = true)
    (h : ts[i].WaitsAt base step n) : (mv.apply score ts)[i].WaitsAt base step n := by
  obtain ⟨number, transpose, he, hplays⟩ := getElem_apply_of_spares hmv
  rw [he]
  exact ⟨h.base, h.step, h.wait, h.runs.base, hplays h.runs.unstopped⟩

theorem waitsAt_spares (hspares : Spares score i ts us) (h : ts[i].WaitsAt base step n) :
    us[i].WaitsAt base step n := by
  obtain ⟨ms, hms, rfl⟩ := hspares
  induction ms generalizing ts with
  | nil => exact h
  | cons mv ms ih =>
    obtain ⟨hmv, hms⟩ := Bool.and_eq_true_iff.1 hms
    exact ih (waitsAt_apply hmv h) hms

/-- After a row of track `i`, heard or gone through, and what is in between. -/
def NextRow (score : Score) (i : Slot) (ts us : Tracks) : Prop :=
  Spares score i (simulateRow score i ts).1 us ∨
    ∃ m, Spares score i (playRow score i ts m).1.1 us

theorem waitsAt_nextRow (hnext : NextRow score i ts us) (h : ts[i].WaitsAt base step (n + 1)) :
    us[i].WaitsAt base step n := by
  obtain ⟨hplay, hsimulate⟩ := playRow_of_waiting score h
  rcases hnext with hspares | ⟨m, hspares⟩
  · rw [hsimulate] at hspares
    exact waitsAt_spares hspares (waitsAt_countWait h)
  · rw [hplay m] at hspares
    exact waitsAt_spares hspares (waitsAt_countWait h)

/-- A word of track `i` is the last one of its row, and so many rows later the next one
    is run: up to then the track does nothing in its rows but wait, heard or gone
    through, whatever happens in between that spares it. -/
def RestsFor (score : Score) (i : Slot) (rows : UInt8) (ts : Tracks) : Prop :=
  let done := ts.modify i fun t => { t with step := t.step + 1, wait := rows }
  (∀ n m, playWords score i (n + 1) ts m =
      ((done, m.grant? score (Tracks.step score i ts).request), false)) ∧
    (∀ n, simulateWords score i (n + 1) ts = (done, false)) ∧
    ∀ T : Nat → Tracks, Spares score i done (T 0) →
      (∀ k < rows.toNat, NextRow score i (T k) (T (k + 1))) →
        (∀ k < rows.toNat, (∀ m, playRow score i (T k) m = (((T k).countWait i, m), false)) ∧
          simulateRow score i (T k) = ((T k).countWait i, false)) ∧
        (T rows.toNat)[i].WaitsAt ts[i].base (ts[i].step + 1) 0 ∧
        (∀ m, playRow score i (T rows.toNat) m =
          playWords score i rowBound ((T rows.toNat).countWait i) m) ∧
        simulateRow score i (T rows.toNat) =
          simulateWords score i rowBound ((T rows.toNat).countWait i)

/-- A word that makes its track wait does so for just as many rows as it says. -/
theorem restsFor_of_wait {w : Word} {rows : UInt8} (hruns : ts[i].Runs)
    (hw : score.word? ts[i].base ts[i].step = some w) (hrows : w.restRows? = some rows) :
    RestsFor score i rows ts := by
  unfold RestsFor
  intro done
  obtain ⟨htracks, hflow, hrequest⟩ := step_of_wait hw hrows
  refine ⟨fun n m => ?_, fun n => ?_, fun T hfirst hnext => ?_⟩
  · rw [playWords, hflow]
    exact congrArg (fun us => ((us, _), false)) htracks
  · rw [simulateWords, if_neg hrequest, hflow]
    exact congrArg (·, false) htracks
  have hdone : done[i] = { ts[i] with step := ts[i].step + 1, wait := rows } :=
    Octet.getElem_set_self _ _ _
  have hwaits : done[i].WaitsAt ts[i].base (ts[i].step + 1) rows.toNat := by
    rw [hdone]
    exact ⟨rfl, rfl, rfl, hruns.base, hruns.unstopped⟩
  -- each row takes one off the wait, and nothing in between does
  have hcount : ∀ left k, k + left = rows.toNat →
      (T k)[i].WaitsAt ts[i].base (ts[i].step + 1) left := by
    intro left k hk
    induction k generalizing left with
    | zero =>
      obtain rfl : left = rows.toNat := by omega
      exact waitsAt_spares hfirst hwaits
    | succ k ih => exact waitsAt_nextRow (hnext k (by omega)) (ih (left + 1) (by omega))
  have hlast := hcount 0 rows.toNat rfl
  refine ⟨fun k hk => ?_, hlast, playRow_of_due hlast⟩
  exact playRow_of_waiting score (hcount (rows.toNat - (k + 1) + 1) k (by omega))

end Tracks

/-! ## Macros -/

/-- A macro runs and stands at a word, which it runs after so many ticks. -/
structure Program.WaitsAt (base : UInt32) (step : UInt16) (n : Nat) (p : Program) : Prop where
  base : p.base = base
  step : p.step = step
  wait : p.wait.toNat = n
  running : p.running ≠ 0

theorem Program.WaitsAt.congr {p q : Program} {base : UInt32} {step : UInt16} {n : Nat}
    (h : p.WaitsAt base step n) (he : q = p) : q.WaitsAt base step n := he ▸ h

namespace Channel

variable {c : Channel} {base : UInt32} {step : UInt16} {n : Nat}

/-- Of the words that are dispatched to a channel only a note takes its macro away. -/
theorem program_receive (score : Score) {w : Word} (hw : ¬ w.byte0 < 0xc0) (c : Channel) :
    ∃ keyDown, (c.receive score w).program = { c.program with keyDown } := by
  unfold receive setEffect
  split_ifs <;> exact ⟨_, rfl⟩

theorem countWait_of_waiting (h : c.program.WaitsAt base step (n + 1)) :
    c.countWait.2 = false ∧ c.countWait.1.program.WaitsAt base step n := by
  have hle : (1 : UInt16) ≤ c.program.wait := by
    rw [UInt16.le_iff_toNat_le, h.wait]
    exact Nat.succ_le_succ n.zero_le
  have hwait : c.program.wait ≠ 0 := by
    intro he
    rw [he] at hle
    exact absurd hle (by decide)
  have hn : (c.program.wait - 1).toNat = n := by
    rw [UInt16.toNat_sub_of_le _ _ hle, h.wait]
    rfl
  rw [countWait, if_neg h.running]
  exact ⟨decide_eq_false hwait, h.base, h.step, hn, h.running⟩

theorem countWait_of_due (h : c.program.WaitsAt base step 0) : c.countWait.2 = true ∧
    c.countWait.1.program.base = base ∧ c.countWait.1.program.step = step := by
  rw [countWait, if_neg h.running]
  exact ⟨decide_eq_true (UInt16.toNat_inj.1 h.wait), h.base, h.step⟩

end Channel

/-- A wait ends the turn of a macro that does not go on for once. -/
theorem Lane.turn_of_wait {l : Lane} {w : Word}
    (hw : score.word? l.channel.program.base l.channel.program.step = some w)
    (hwait : Operation.ofByte w.byte0 = .wait) (heven : w.byte1 &&& 1 = 0)
    (hyields : l.channel.program.yields ≠ 0) : l.turn score = .rests { l with
      channel.program.step := l.channel.program.step + 1, channel.program.wait := w.low } := by
  have heven : ¬ (w.withByte0 0).byte1 &&& 0x01 ≠ 0 := by
    rw [Word.byte1_withByte0]
    exact not_not_intro heven
  unfold Lane.turn
  simp only [hw, hwait]
  rw [execute, Lane.wait]
  simp only [if_neg heven]
  rw [Word.low_withByte0, yield]
  exact if_neg hyields

namespace Machine

variable {m : Machine} {i : Slot} {base : UInt32} {step : UInt16} {n : Nat}

/-- The effect that waits for a channel is no note. -/
def NoNoteWaits (i : Slot) (m : Machine) : Prop :=
  let code := m.channels[i].reservation.code
  code = 0 ∨ ¬ (⟨code⟩ : Word).byte0 < 0xc0

instance (i : Slot) (m : Machine) : Decidable (m.NoNoteWaits i) :=
  inferInstanceAs (Decidable (_ ∨ _))

/-- The machine as the turn of a channel's macro has come, or not. -/
def beforeTurn (score : Score) (i : Slot) (m : Machine) : Machine :=
  ((m.onChannel i Channel.countLock).takeEffect score i).onChannel i fun c => c.countWait.1

/-- The end of a channel's tick, when its macro has had its turn, or not. -/
def afterTurn (i : Slot) (rate : UInt32) (m : Machine) : Machine := (m.bend i).loadVoice i rate

theorem tickChannel_eq (m : Machine) (i : Slot) : m.tickChannel score rate i =
    (((m.onChannel i Channel.countLock).takeEffect score i).takeTurn score i).afterTurn i rate :=
  rfl

theorem program_afterTurn (m : Machine) (i : Slot) (rate : UInt32) :
    (m.afterTurn i rate).channels[i].program = m.channels[i].program := by
  show ((m.bend i).channels)[i].program = _
  rw [channels_bend, Octet.getElem_set_self]
  exact congrArg Prod.fst (Channel.duty_bendOn _)

theorem takeTurn_eq (m : Machine) (i : Slot) : m.takeTurn score i =
    if m.channels[i].countWait.2 then (m.onChannel i fun c => c.countWait.1).runMacro score i
    else m.onChannel i fun c => c.countWait.1 := by
  rcases h : m.channels[i].countWait with ⟨c, turn⟩
  have hm : (m.onChannel i fun c => c.countWait.1) = m.setChannel i c :=
    congrArg (m.setChannel i) (congrArg Prod.fst h)
  rw [takeTurn, h, hm]
  cases turn <;> rfl

/-- A sound effect that is no note leaves the macro where it is. -/
theorem program_takeEffect (score : Score) (hcode : m.NoNoteWaits i) :
    ∃ keyDown, ((m.onChannel i Channel.countLock).takeEffect score i).channels[i].program =
      { m.channels[i].program with keyDown } := by
  have hlock : (m.onChannel i Channel.countLock).channels[i] = m.channels[i].countLock :=
    Octet.getElem_set_self _ _ _
  have hcount := Channel.code_countLock m.channels[i]
  have hprogram := Channel.program_countLock m.channels[i]
  unfold takeEffect
  simp only [hlock, hcount]
  split
  · rw [hlock, hprogram]
    exact ⟨_, rfl⟩
  · next hne =>
    have htaken : ((m.onChannel i Channel.countLock).onChannel i Channel.takeCode).channels[i] =
        m.channels[i].countLock.takeCode :=
      (Octet.getElem_set_self _ _ _).trans (congrArg Channel.takeCode hlock)
    have hsame : m.channels[i].countLock.takeCode.program = m.channels[i].program := hprogram
    rw [channels_dispatch, htaken, ← hsame]
    split
    · exact Channel.program_receive score (hcode.resolve_left hne) _
    · exact ⟨_, rfl⟩

theorem waitsAt_takeEffect (score : Score) (hcode : m.NoNoteWaits i)
    (h : m.channels[i].program.WaitsAt base step n) :
    ((m.onChannel i Channel.countLock).takeEffect score i).channels[i].program.WaitsAt
      base step n := by
  obtain ⟨keyDown, he⟩ := program_takeEffect score hcode
  rw [he]
  exact ⟨h.base, h.step, h.wait, h.running⟩

/-- In a tick in which a macro waits it does not run. -/
theorem tickChannel_of_waiting (hcode : m.NoNoteWaits i)
    (h : m.channels[i].program.WaitsAt base step (n + 1)) :
    m.tickChannel score rate i = (m.beforeTurn score i).afterTurn i rate ∧
      (m.tickChannel score rate i).channels[i].program.WaitsAt base step n := by
  have heffect := waitsAt_takeEffect score hcode h
  have hcount := Channel.countWait_of_waiting heffect
  have htick : m.tickChannel score rate i = (m.beforeTurn score i).afterTurn i rate := by
    rw [tickChannel_eq, takeTurn_eq, hcount.1, if_neg Bool.false_ne_true, beforeTurn]
  refine ⟨htick, ?_⟩
  rw [htick, program_afterTurn, beforeTurn]
  refine hcount.2.congr (congrArg Channel.program ?_)
  exact Octet.getElem_set_self _ _ _

/-- In a tick in which its wait is over a macro runs its next words. -/
theorem tickChannel_of_due (hcode : m.NoNoteWaits i)
    (h : m.channels[i].program.WaitsAt base step 0) :
    m.tickChannel score rate i = ((m.beforeTurn score i).runMacro score i).afterTurn i rate ∧
      (m.beforeTurn score i).channels[i].program.base = base ∧
        (m.beforeTurn score i).channels[i].program.step = step := by
  have heffect := waitsAt_takeEffect score hcode h
  obtain ⟨hturn, hbase, hstep⟩ := Channel.countWait_of_due heffect
  have hself : (m.beforeTurn score i).channels[i] =
      (((m.onChannel i Channel.countLock).takeEffect score i).channels[i]).countWait.1 :=
    Octet.getElem_set_self _ _ _
  rw [hself]
  refine ⟨?_, hbase, hstep⟩
  rw [tickChannel_eq, takeTurn_eq, hturn, if_pos rfl, beforeTurn]

end Machine

namespace Replay

variable {r s : Replay} {i : Slot} {base : UInt32} {step : UInt16} {n : Nat}

/-- A move that is not one of the tick of a channel, dispatches no note to it, and does
    not switch it off. -/
def spares (score : Score) (i : Slot) (r : Replay) (mv : Move) : Bool :=
  !mv.ofTick i && !r.sendsNote score i mv && !r.silences i mv

/-- A replay that comes from another one by such moves alone. -/
def Spares (score : Score) (rate : UInt32) (i : Slot) (r s : Replay) : Prop :=
  ∃ ms, Along score rate (fun r mv => r.spares score i mv = true) ms r ∧ s = run score rate ms r

/-- A move that spares a channel leaves its macro where it is, and running if it was. -/
theorem program_apply_of_spares (rate : UInt32) {mv : Move} (hmv : r.spares score i mv = true) :
    ∃ keyDown running, (running = r.machine.channels[i].program.running ∨ running = -1) ∧
      (mv.apply score rate r).machine.channels[i].program =
        { r.machine.channels[i].program with keyDown, running } := by
  simp only [spares, Bool.and_eq_true, Bool.not_eq_true'] at hmv
  obtain ⟨⟨hown, hnote⟩, hoff⟩ := hmv
  have hafter := channelAfter_apply score rate r mv i
  generalize (mv.apply score rate r).machine.channels[i] = c at hafter ⊢
  cases hafter with
  | same | reserved => exact ⟨_, _, .inl rfl, rfl⟩
  | own _ he hslot =>
    subst he
    rw [Move.ofTick, hslot, BEq.rfl] at hown
    cases hown
  | @received m w hd hi =>
    rw [sendsNote, hd] at hnote
    simp only [Option.any_some, hi, BEq.rfl, Bool.true_and, decide_eq_false_iff_not] at hnote
    obtain ⟨keyDown, he⟩ := Channel.program_receive score hnote r.machine.channels[i]
    exact ⟨keyDown, _, .inl rfl, he⟩
  | resumed => exact ⟨_, -1, .inr rfl, rfl⟩
  | silenced he | reset he =>
    rw [he] at hoff
    cases hoff

/-- So it goes on waiting. -/
theorem waitsAt_apply {mv : Move} (hmv : r.spares score i mv = true)
    (h : r.machine.channels[i].program.WaitsAt base step n) :
    (mv.apply score rate r).machine.channels[i].program.WaitsAt base step n := by
  obtain ⟨keyDown, running, hrunning, he⟩ := program_apply_of_spares rate hmv
  rw [he]
  refine ⟨h.base, h.step, h.wait, ?_⟩
  rcases hrunning with rfl | rfl
  · exact h.running
  · exact (by decide : (-1 : Int8) ≠ 0)

theorem waitsAt_of_spares (hspares : Spares score rate i r s)
    (h : r.machine.channels[i].program.WaitsAt base step n) :
    s.machine.channels[i].program.WaitsAt base step n := by
  obtain ⟨ms, hms, rfl⟩ := hspares
  exact Along.run (P := fun r => r.machine.channels[i].program.WaitsAt base step n)
    (fun r mv hr hmv => waitsAt_apply hmv hr) ms hms h

/-- A word of the macro of a channel is the last one of its turn, and so many ticks later
    the next one is run: up to then the macro has no turn, whatever happens in between
    that spares the channel. -/
def RestsFor (score : Score) (rate : UInt32) (i : Slot) (ticks : UInt16) (r : Replay) : Prop :=
  let program := r.machine.channels[i].program
  (∀ n, Machine.runWords score i (n + 1) r.machine = r.machine.runWord score i) ∧
    ∀ S : Nat → Replay,
      Spares score rate i (r.onMachine fun m => (m.runWord score i).afterTurn i rate) (S 0) →
      (∀ k < ticks.toNat,
        Spares score rate i ((S k).onMachine (·.tickChannel score rate i)) (S (k + 1))) →
      (∀ k ≤ ticks.toNat, (S k).machine.NoNoteWaits i) →
        (∀ k < ticks.toNat, (S k).machine.tickChannel score rate i =
          ((S k).machine.beforeTurn score i).afterTurn i rate) ∧
        (S ticks.toNat).machine.tickChannel score rate i =
          (((S ticks.toNat).machine.beforeTurn score i).runMacro score i).afterTurn i rate ∧
        ((S ticks.toNat).machine.beforeTurn score i).channels[i].program.base = program.base ∧
        ((S ticks.toNat).machine.beforeTurn score i).channels[i].program.step = program.step + 1

/-- A wait of a macro takes just as many ticks as it says. -/
theorem restsFor_of_macroWait {w : Word} (hruns : r.machine.channels[i].program.running ≠ 0)
    (hyields : r.machine.channels[i].program.yields ≠ 0)
    (hw : score.word? r.machine.channels[i].program.base r.machine.channels[i].program.step =
      some w)
    (hwait : Operation.ofByte w.byte0 = .wait) (heven : w.byte1 &&& 1 = 0) :
    RestsFor score rate i w.low r := by
  have hturn : (r.machine.lane i).turn score = _ := Lane.turn_of_wait hw hwait heven hyields
  refine ⟨fun n => ?_, fun S hfirst hnext hquiet => ?_⟩
  · rw [Machine.runWords_succ, hturn]
    rfl
  have hdone : (r.machine.runWord score i).channels[i].program.WaitsAt
      r.machine.channels[i].program.base (r.machine.channels[i].program.step + 1)
        w.low.toNat := by
    rw [Machine.runWord, hturn]
    have hself : ∀ l, (r.machine.setLane i l).channels[i] = l.channel := fun l =>
      Octet.getElem_set_self _ _ _
    simp only [hself]
    exact ⟨rfl, rfl, rfl, hruns⟩
  -- each tick takes one off the wait, and nothing in between does
  have hcount : ∀ left k, k + left = w.low.toNat →
      (S k).machine.channels[i].program.WaitsAt r.machine.channels[i].program.base
        (r.machine.channels[i].program.step + 1) left := by
    intro left k hk
    induction k generalizing left with
    | zero =>
      obtain rfl : left = w.low.toNat := by omega
      exact waitsAt_of_spares hfirst (hdone.congr (Machine.program_afterTurn _ i rate))
    | succ k ih =>
      have hbefore := ih (left + 1) (by omega)
      exact waitsAt_of_spares (hnext k (by omega))
        (Machine.tickChannel_of_waiting (hquiet k (by omega)) hbefore).2
  refine ⟨fun k hk => ?_, ?_⟩
  · have hbefore := hcount (w.low.toNat - (k + 1) + 1) k (by omega)
    exact (Machine.tickChannel_of_waiting (hquiet k hk.le) hbefore).1
  · exact Machine.tickChannel_of_due (hquiet _ le_rfl) (hcount 0 w.low.toNat rfl)

end Replay

/-- Waits are exact: a track waits for as many rows as its word says, and a macro for as
    many ticks. -/
theorem waits_exactly (score : Score) (rate : UInt32) (i : Slot) :
    (∀ (ts : Tracks) (w : Word) (rows : UInt8), ts[i].Runs →
      score.word? ts[i].base ts[i].step = some w → w.restRows? = some rows →
        ts.RestsFor score i rows) ∧
    ∀ (r : Replay) (w : Word), r.machine.channels[i].program.running ≠ 0 →
      r.machine.channels[i].program.yields ≠ 0 →
      score.word? r.machine.channels[i].program.base r.machine.channels[i].program.step = some w →
      Operation.ofByte w.byte0 = .wait → w.byte1 &&& 1 = 0 →
        r.RestsFor score rate i w.low :=
  ⟨fun _ _ _ hruns hw hrows => Tracks.restsFor_of_wait hruns hw hrows,
    fun _ _ hruns hyields hw hwait heven =>
      Replay.restsFor_of_macroWait hruns hyields hw hwait heven⟩

namespace Player

/-- A tune of one note, after which its track waits a row and then many; its macro waits
    a tick before it ends. -/
def restTune : ByteArray :=
  songTune 0 0 [0 :: List.replicate 7 0xff00] [[0x0c002000, 0xf3010000, 0xf3ff0000, 0xf0000000]]
    [[0x04000001, 0x07000000]]

/-- What happens to the tracks in a tick after so many moves of it spares one of them. -/
def SparesTrack (p : Player) (i : Slot) (n : Nat) (ts us : Tracks) : Prop :=
  let ms := Replay.onTracks p.tune.score p.rate (p.tickMoves.drop n) (p.run (p.tickMoves.take n))
  Tracks.spared p.tune.score i ms ts = true ∧ us = Tracks.run p.tune.score ms ts

/-- What happens after so many moves of a tick spares a channel, until the next tick has
    begun. -/
def SparesChannel (p : Player) (i : Slot) (n : Nat) (r s : Replay) : Prop :=
  let ms := p.tickMoves.drop n ++ [.begin]
  Replay.Along p.tune.score p.rate (fun r mv => r.spares p.tune.score i mv = true) ms r ∧
    s = Replay.run p.tune.score p.rate ms r

instance (p : Player) (i : Slot) (n : Nat) (ts us : Tracks) :
    Decidable (p.SparesTrack i n ts us) :=
  inferInstanceAs (Decidable (_ ∧ _))

instance (p : Player) (i : Slot) (n : Nat) (r s : Replay) :
    Decidable (p.SparesChannel i n r s) :=
  inferInstanceAs (Decidable (_ ∧ _))

/-- The replay in a tick, after so many moves of it. -/
def inTick (p : Player) (n : Nat) : Replay := p.run (p.tickMoves.take n)

/-- The tracks of a player after the row of one of them. -/
def rowOf (p : Player) (i : Slot) : Tracks :=
  (Tracks.playRow p.tune.score i p.replay.tracks p.replay.machine).1.1

/-- A track stands at its wait in a tick, and the rest of it and the next tick spare it. -/
def TrackRests (p : Player) (i : Slot) : Prop :=
  let ts := (p.inTick 25).tracks
  (ts[i].base = 0x10 ∧ ts[i].step = 1 ∧ ts[i].isStopped = false) ∧
    p.tune.score.word? 0x10 1 = some ⟨0xf3010000⟩ ∧
    p.SparesTrack i 26 (ts.modify i fun t => { t with step := t.step + 1, wait := 1 })
      p.tick.replay.tracks ∧
    p.tick.SparesTrack i 26 (p.tick.rowOf i) p.tick.tick.replay.tracks

instance (p : Player) (i : Slot) : Decidable (p.TrackRests i) :=
  inferInstanceAs (Decidable ((_ ∧ _ ∧ _) ∧ _ ∧ _ ∧ _))

/-- The macro of a channel stands at its wait in a tick, and the rest of it and the two
    ticks after it spare the channel. -/
def MacroRests (p : Player) (i : Slot) : Prop :=
  let r := p.inTick 5
  let q := r.machine.channels[i].program
  (q.running = -1 ∧ q.yields = 0xff ∧ q.base = 0x20 ∧ q.step = 0) ∧
    p.tune.score.word? 0x20 0 = some ⟨0x04000001⟩ ∧
    p.SparesChannel i 8 (r.onMachine fun m => (m.runWord p.tune.score i).afterTurn i p.rate)
      p.tick.replay.begin ∧
    p.tick.SparesChannel i 6
      (p.tick.replay.begin.onMachine (·.tickChannel p.tune.score p.rate i))
      p.tick.tick.replay.begin ∧
    p.tick.replay.begin.machine.NoNoteWaits i ∧ p.tick.tick.replay.begin.machine.NoNoteWaits i

instance (p : Player) (i : Slot) : Decidable (p.MacroRests i) :=
  inferInstanceAs (Decidable ((_ ∧ _ ∧ _ ∧ _) ∧ _ ∧ _ ∧ _ ∧ _ ∧ _))

/-- The first track rests in the first tick, and the first macro in the second one. -/
theorem rests_restTune : ((load restTune (some ⟨#[]⟩)).toOption.bind fun tune =>
    (Player.new tune minRate).toOption.map fun p =>
      (decide (p.TrackRests 0), decide (p.tick.MacroRests 0))) = some (true, true) := by
  decide +kernel

/-- In its second row the first track waits, and in the third one it runs its next word;
    in the third tick the macro waits, and in the fourth one it runs. -/
theorem waits_restTune : ∃ tune p, load restTune (some ⟨#[]⟩) = .ok tune ∧
    Player.new tune minRate = .ok p ∧
      (∀ m, Tracks.playRow tune.score 0 p.tick.replay.tracks m =
        ((p.tick.replay.tracks.countWait 0, m), false)) ∧
      p.tick.tick.replay.tracks[(0 : Slot)].WaitsAt 0x10 2 0 ∧
      p.tick.tick.replay.begin.machine.tickChannel tune.score p.rate 0 =
        (p.tick.tick.replay.begin.machine.beforeTurn tune.score 0).afterTurn 0 p.rate ∧
      p.tick.tick.tick.replay.begin.machine.tickChannel tune.score p.rate 0 =
        ((p.tick.tick.tick.replay.begin.machine.beforeTurn tune.score 0).runMacro
          tune.score 0).afterTurn 0 p.rate := by
  obtain ⟨tune, p, hload, hnew, h⟩ := exists_new rests_restTune
  obtain rfl := new_tune hnew
  simp only [Prod.mk.injEq, decide_eq_true_eq] at h
  obtain ⟨hrows, hticks⟩ := h
  obtain ⟨⟨hbase, hstep, hplays⟩, hword, hfirst, hnext⟩ := hrows
  obtain ⟨⟨hruns, hyields, hprogram, hstart⟩, hwait, hturn, hticked, hquiet, hquiet'⟩ := hticks
  obtain ⟨htrack, hmacro⟩ := waits_exactly p.tune.score p.rate 0
  have hrests := htrack (p.inTick 25).tracks ⟨0xf3010000⟩ 1
    ⟨by rw [hbase]; decide, hplays⟩ (by rw [hbase, hstep]; exact hword) (by decide)
  obtain ⟨hwaits, hdue, -⟩ := hrests.2.2 (fun k => (tick^[k] p.tick).replay.tracks) ⟨_, hfirst⟩
    fun k hk => by
      obtain rfl : k = 0 := Nat.lt_one_iff.1 hk
      exact .inr ⟨p.tick.replay.machine, _, hnext⟩
  rw [hbase, hstep] at hdue
  have hturns := hmacro (p.tick.inTick 5) ⟨0x04000001⟩ (by rw [hruns]; decide)
    (by rw [hyields]; decide) (by rw [hprogram, hstart]; exact hwait) (by decide) (by decide)
  obtain ⟨hidle, hrun, -⟩ := hturns.2 (fun k => (tick^[k] p.tick.tick).replay.begin) ⟨_, hturn⟩
    (fun k hk => by
      obtain rfl : k = 0 := Nat.lt_one_iff.1 hk
      exact ⟨_, hticked⟩)
    fun k hk => by
      obtain rfl | rfl : k = 0 ∨ k = 1 := Nat.le_one_iff_eq_zero_or_eq_one.1 hk
      · exact hquiet
      · exact hquiet'
  exact ⟨p.tune, p, hload, hnew, (hwaits 0 Nat.one_pos).1, hdue, hidle 0 Nat.one_pos, hrun⟩

end Player

end PaulaReplay
