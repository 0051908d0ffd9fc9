/-
  Guards: the bounds of turns and rows cut off nothing but programs that jump.

  The turn of a macro runs a bounded number of words, and so does the row of a track, for the
  sake of programs that would never rest.  Without jumps there is no need of it: each word
  stands behind the one before, so that one of them rests, or the music data is over.  The
  bound of a row is met just so: the data has as many words as a row may look for, but no
  pattern that is played begins with the first of them.

  * `Runner`: what runs words one after the other; `Runner.Leads`: it runs so many, none of
    which jumps; `Runner.Advances`: the next word is behind the one that was run, and
    `Advances.exists_last`: so it comes to a last one;
  * `Machine.jumps`, `Tracks.jumps`: the next word jumps; `Machine.advances`,
    `Tracks.advances`: the turns of a macro, and the rows of a track, advance;
  * `Machine.TurnEnds`, `Tracks.RowEnds`: a turn, or a row, ends of itself after so many
    words were looked for, whatever its bound is from there on;
    `guards_spare_straight`: those that do not jump do so.
-/
import PaulaReplay.Proofs.Repeats

namespace PaulaReplay

open Pattern

variable {score : Score}

/-! ## Running words -/

/-- What runs words one after the other. -/
structure Runner (σ : Type) where
  /-- The state after the next word, unless that is the last one. -/
  next? : σ → Option σ
  /-- Whether the next word jumps. -/
  jumps : σ → Bool
  /-- Where the next word is. -/
  place : σ → Nat

namespace Runner

variable {σ : Type} {R : Runner σ} {s t : σ} {n size : Nat}

/-- It runs so many words, none of which is the last one, and none of which jumps. -/
inductive Leads (R : Runner σ) : Nat → σ → σ → Prop where
  | refl (s : σ) : Leads R 0 s s
  | next {n : Nat} {s s' t : σ} : R.jumps s = false → R.next? s = some s' → Leads R n s' t →
      Leads R (n + 1) s t

/-- Of so many words that it may run none jumps. -/
def straight (R : Runner σ) : Nat → σ → Bool
  | 0, _ => true
  | n + 1, s => !R.jumps s && (R.next? s).all (R.straight n)

/-- A word that does not jump, and is not the last one, is in the first `size` bytes, and the
    next one is behind it. -/
def Advances (R : Runner σ) (size : Nat) : Prop :=
  ∀ s s', R.jumps s = false → R.next? s = some s' →
    R.place s + 4 ≤ size ∧ R.place s' = R.place s + 4

theorem jumps_of_straight (h : R.straight (n + 1) s = true) : R.jumps s = false := by
  rw [straight, Bool.and_eq_true, Bool.not_eq_true'] at h
  exact h.1

theorem straight_next (h : R.straight (n + 1) s = true) (ht : R.next? s = some t) :
    R.straight n t = true := by
  rw [straight, ht, Option.all_some, Bool.and_eq_true] at h
  exact h.2

/-- Where there is no room for `n + 1` words any more, one of them is the last. -/
theorem Advances.exists_last (hadv : R.Advances size) {bound : Nat} : ∀ {n : Nat} {s : σ},
    size < R.place s + 4 * (n + 1) → n < bound → R.straight bound s = true →
      ∃ k ≤ n, ∃ t, R.Leads k s t ∧ R.jumps t = false ∧ R.next? t = none := by
  induction bound with
  | zero => exact fun _ hn _ => absurd hn (Nat.not_lt_zero _)
  | succ bound ih =>
    intro n s hroom hn hstraight
    have hjumps := jumps_of_straight hstraight
    cases hnext : R.next? s with
    | none => exact ⟨0, Nat.zero_le _, s, .refl s, hjumps, hnext⟩
    | some s' =>
      obtain ⟨hfits, hplace⟩ := hadv s s' hjumps hnext
      obtain ⟨n, rfl⟩ : ∃ n', n = n' + 1 := ⟨n - 1, by omega⟩
      obtain ⟨k, hk, t, hleads, hlast⟩ :=
        ih (n := n) (by omega) (by omega) (straight_next hstraight hnext)
      exact ⟨k + 1, Nat.succ_le_succ hk, t, .next hjumps hnext hleads, hlast⟩

end Runner

/-- A word lies in the music data, and the next one stands behind it. -/
theorem places_of_word? (hs : score.LaidOut) {base : UInt32} {step : UInt16} {w : Word}
    (h : score.word? base step = some w) :
    base.toNat + step.toNat * 4 + 4 ≤ score.music.size ∧
      base.toNat + (step + 1).toNat * 4 = base.toNat + step.toNat * 4 + 4 := by
  constructor
  · by_contra hlt
    rw [Score.word?, Bytes.u32?_eq_none_iff.2 (by omega)] at h
    cases h
  · rw [toNat_step_add_one hs h]
    omega

/-! ## Macros -/

/-- An operation jumps on a channel: it is a jump, and it is taken.  As where it is run, the
    first byte of the word is cleared. -/
def Channel.jumps (score : Score) (op : Operation) (w : Word) (c : Channel) : Bool :=
  match op with
  | .loop => c.program.jumps != 0
  | .loopKeyDown => c.program.keyDown && c.program.jumps != 0
  | .splitNote => c.pitch.note > w.byte1
  | .splitVolume => (w.byte1.toNat : Int) < c.volume.toInt
  | .jump | .call => (score.macroStart? w.byte1).isSome
  | .back => true
  | _ => false

/-- An operation after which a macro may rest to go on in a later tick. -/
def Operation.yields : Operation → Bool
  | .offReset | .off | .wait | .waitVoice | .previousNote | .addNote | .setNote
  | .waitKeyUp => true
  | _ => false

/-- An operation stops its macro: it is a stop, or a jump to a macro that is not there. -/
def Operation.stops (score : Score) (w : Word) : Operation → Bool
  | .stop => true
  | .jump | .call => (score.macroStart? w.byte1).isNone
  | _ => false

/-- Where a macro is: its words, and the next of them. -/
def Program.spot (p : Program) : UInt32 × UInt16 := (p.base, p.step)

theorem Program.spot_of_place {p q : Program} (h : q.place = p.place) : q.spot = p.spot := by
  simp only [place, Prod.mk.injEq] at h
  rw [spot, spot, h.1, h.2.1]

/-- A word that starts no macro leaves the one of the channel where it is. -/
theorem Channel.spot_receive {c : Channel} {w : Word} (hw : c.accepts score w = false) :
    (c.receive score w).program.spot = c.program.spot := by
  by_cases hnote : w.byte0 < 0xc0
  · rw [receive_of_note hnote, startMacro]
    split
    · rfl
    · next hlock =>
      have hstart : score.macroStart? w.byte1 = none := by
        simpa only [accepts, decide_eq_true hnote, not_not.1 hlock, BEq.rfl, Bool.true_and,
          Option.isSome_eq_false_iff, Option.isNone_iff_eq_none] using hw
      rw [hstart]
      rfl
  · obtain ⟨keyDown, he⟩ := program_receive score hnote c
    rw [he]
    rfl

namespace Lane

variable {l : Lane} {w : Word} {op : Operation}

/-- A loop that is used up goes on. -/
theorem spot_loop (h : l.channel.program.jumps = 0) :
    (l.loop w).channel.program.spot = l.channel.program.spot := by
  unfold loop
  rw [if_pos h]
  rfl

theorem spot_waitKeyUp (h : (l.waitKeyUp w).isRest = false) :
    (l.waitKeyUp w).lane.channel.program.spot = l.channel.program.spot := by
  unfold waitKeyUp at h ⊢
  simp only at h ⊢
  by_cases hup : ¬ l.channel.program.keyDown
  · rw [if_pos hup]
    rfl
  · rw [if_neg hup] at h ⊢
    by_cases hover : l.channel.program.jumps = 0
    · rw [if_pos hover]
      rfl
    · rw [if_neg hover] at h
      cases h

/-- A macro that is not there is not gone on in. -/
theorem isRest_jump (h : (score.macroStart? w.byte1).isSome = false) :
    (l.jump score w).isRest = true := by
  rw [Option.isSome_eq_false_iff, Option.isNone_iff_eq_none] at h
  rw [jump, h]
  rfl

/-- An operation that does not jump leaves the macro at the next word, if it does not rest. -/
theorem spot_execute (hop : l.channel.jumps score op w = false)
    (hgoes : (execute score op w l).isRest = false) :
    (execute score op w l).lane.channel.program.spot = l.channel.program.spot := by
  cases op with
  | loop =>
    rw [Channel.jumps, bne_eq_false_iff_eq] at hop
    exact spot_loop hop
  | loopKeyDown =>
    rw [Channel.jumps, Bool.and_eq_false_iff, bne_eq_false_iff_eq] at hop
    rw [execute, Outcome.lane]
    split
    · next hdown =>
      exact spot_loop (hop.resolve_left fun hup => Bool.false_ne_true (hup.symm.trans hdown))
    · rfl
  | splitNote | splitVolume => rw [execute, Outcome.lane, if_neg (of_decide_eq_false hop)]
  | jump | call =>
    rw [execute, isRest_jump hop] at hgoes
    cases hgoes
  | back => cases hop
  | stop => cases hgoes
  | waitKeyUp => exact spot_waitKeyUp hgoes
  | start => rfl
  | _ => exact Program.spot_of_place (place_execute rfl)

/-- What rests, yields or stops. -/
theorem rests_of_isRest (h : (execute score op w l).isRest = true) :
    op.yields = true ∨ op.stops score w = true := by
  have hjump : ∀ l : Lane, (l.jump score w).isRest = true →
      (score.macroStart? w.byte1).isNone = true := by
    intro l h
    unfold jump at h
    cases hstart : score.macroStart? w.byte1 with
    | none => rfl
    | some base =>
      rw [hstart] at h
      cases h
  cases op with
  | offReset | off | wait | waitVoice | previousNote | addNote | setNote | waitKeyUp =>
    exact .inl rfl
  | stop => exact .inr rfl
  | jump => exact .inr (hjump _ h)
  | call => exact .inr (hjump _ h)
  | _ => cases h

end Lane

namespace Machine

variable {m m' : Machine} {i : Slot} {k : Nat}

/-- The next word of the macro of a channel. -/
def word? (score : Score) (i : Slot) (m : Machine) : Option Word :=
  score.word? m.channels[i].program.base m.channels[i].program.step

/-- The next word of the macro of a channel jumps, or starts a macro on the channel. -/
def jumps (score : Score) (i : Slot) (m : Machine) : Bool :=
  (m.word? score i).any fun w =>
    let op := Operation.ofByte w.byte0
    m.channels[i].jumps score op (w.withByte0 0) ||
      op == .start && m.startsMacro score i ((m.lane i).startWord (w.withByte0 0))

/-- The turn of a macro is over with its next word: there is none in the music data, the word
    stops the macro, or it is one that yields. -/
inductive EndsTurn (score : Score) (i : Slot) (m : Machine) : Prop where
  | data : m.word? score i = none → EndsTurn score i m
  | stop {w} : m.word? score i = some w →
      (Operation.ofByte w.byte0).stops score (w.withByte0 0) = true → EndsTurn score i m
  | yields {w} : m.word? score i = some w → (Operation.ofByte w.byte0).yields = true →
      EndsTurn score i m

/-- The macro of a channel as what runs words. -/
def runner (score : Score) (i : Slot) : Runner Machine where
  next? m := if ((m.lane i).turn score).isRest then none else some (m.runWord score i)
  jumps := jumps score i
  place m := m.channels[i].program.next

/-- The machine as the macro of a channel begins its turn. -/
def woken (i : Slot) (m : Machine) : Machine := m.onChannel i fun c => { c with program.wait := 0 }

/-- The turn of a macro ends of itself.  Some words do not jump and go on, with the next one
    the turn is over, and so many were looked for at most.  No bound that lets them be run
    makes a difference, the one that there is among them. -/
def TurnEnds (score : Score) (i : Slot) (fetches : Nat) (m : Machine) : Prop :=
  ∃ k m', k + 1 ≤ fetches ∧ (runner score i).Leads k (m.woken i) m' ∧ m'.EndsTurn score i ∧
    m.runMacro score i = m'.runWord score i ∧
    ∀ bound, k < bound → runWords score i bound (m.woken i) = m'.runWord score i

/-! ### Turns -/

theorem turn_of_word {w : Word} (hw : m.word? score i = some w) :
    (m.lane i).turn score = Lane.execute score (Operation.ofByte w.byte0) (w.withByte0 0)
      ((m.lane i).jumpTo (m.channels[i].program.step + 1)) := by
  rw [word?] at hw
  unfold Lane.turn lane
  simp only [hw]

theorem turn_of_no_word (hw : m.word? score i = none) :
    (m.lane i).turn score = .rests ((m.lane i).onChannel Channel.halted) := by
  rw [word?] at hw
  unfold Lane.turn lane
  simp only [hw]

theorem next?_eq_some_iff : (runner score i).next? m = some m' ↔
    ((m.lane i).turn score).isRest = false ∧ m.runWord score i = m' := by
  show (if _ then none else some _) = some m' ↔ _
  split
  · next h => simp only [h, reduceCtorEq, Bool.true_eq_false, false_and]
  · next h => simp only [Option.some.injEq, eq_false_of_ne_true h, true_and]

theorem next?_eq_none_iff : (runner score i).next? m = none ↔
    ((m.lane i).turn score).isRest = true := by
  show (if _ then none else some _) = none ↔ _
  split
  · next h => simp only [h]
  · next h => simp only [reduceCtorEq, h]

/-- A word that is dispatched and starts no macro on a channel leaves the one that is there,
    as far as it has come. -/
theorem spot_dispatch {w : Word} (h : m.startsMacro score i w = false) :
    (m.dispatch score w).channels[i].program.spot = m.channels[i].program.spot := by
  rw [channels_dispatch]
  split
  · next hi =>
    rw [startsMacro, hi, BEq.rfl, Bool.true_and] at h
    exact Channel.spot_receive h
  · rfl

/-- A word that does not jump, and after which the turn goes on, is followed by the next
    one. -/
theorem spot_runWord {w : Word} (hw : m.word? score i = some w) (hjumps : m.jumps score i = false)
    (hgoes : ((m.lane i).turn score).isRest = false) :
    (m.runWord score i).channels[i].program.spot =
      (m.channels[i].program.base, m.channels[i].program.step + 1) := by
  rw [jumps, hw, Option.any_some, Bool.or_eq_false_iff] at hjumps
  obtain ⟨hop, hstart⟩ := hjumps
  by_cases hstarts : Operation.ofByte w.byte0 = .start
  · rw [hstarts, BEq.rfl, Bool.true_and] at hstart
    have hturn := turn_of_word hw
    rw [hstarts] at hturn
    rw [runWord, hturn]
    -- the word is dispatched as the macro stands behind it already
    have hself : (m.setLane i ((m.lane i).jumpTo (m.channels[i].program.step + 1))).channels[i] =
        ((m.lane i).jumpTo (m.channels[i].program.step + 1)).channel :=
      Octet.getElem_set_self _ _ _
    refine (spot_dispatch ?_).trans (congrArg (fun c => c.program.spot) hself)
    rw [startsMacro, hself]
    exact hstart
  · rw [turn_of_word hw] at hgoes
    rw [program_runWord hw hstarts]
    exact Lane.spot_execute hop hgoes

/-- So the turn of a macro advances. -/
theorem advances (hs : score.LaidOut) (i : Slot) :
    (runner score i).Advances score.music.size := by
  intro m m' hjumps hnext
  obtain ⟨hgoes, rfl⟩ := next?_eq_some_iff.1 hnext
  cases hw : m.word? score i with
  | none =>
    rw [turn_of_no_word hw] at hgoes
    cases hgoes
  | some w =>
    have hspot := spot_runWord hw hjumps hgoes
    simp only [Program.spot, Prod.mk.injEq] at hspot
    show m.channels[i].program.next + 4 ≤ score.music.size ∧
      (m.runWord score i).channels[i].program.next = m.channels[i].program.next + 4
    rw [Program.next, Program.next, hspot.1, hspot.2]
    exact places_of_word? hs hw

/-- The last word of a turn ends it. -/
theorem endsTurn_of_last (h : (runner score i).next? m = none) : m.EndsTurn score i := by
  rw [next?_eq_none_iff] at h
  cases hw : m.word? score i with
  | none => exact .data hw
  | some w =>
    rw [turn_of_word hw] at h
    exact (Lane.rests_of_isRest h).elim (.yields hw) (.stop hw)

/-- Words that are run take as many off the bound. -/
theorem runWords_of_leads (h : (runner score i).Leads k m m') (n : Nat) :
    runWords score i (k + n) m = runWords score i n m' := by
  induction h with
  | refl => rw [Nat.zero_add]
  | next _ hnext _ ih =>
    obtain ⟨hgoes, rfl⟩ := next?_eq_some_iff.1 hnext
    rw [Nat.add_right_comm, runWords_succ, hgoes]
    exact ih

theorem runWords_of_last (h : (runner score i).next? m = none) (n : Nat) :
    runWords score i (n + 1) m = m.runWord score i := by
  rw [runWords_succ, next?_eq_none_iff.1 h]
  rfl

/-- A turn that does not jump ends by itself: the music data has no more words than it may
    look for, and one. -/
theorem turnEnds_of_straight (hs : score.LaidOut)
    (h : (runner score i).straight macroBound (m.woken i) = true) :
    m.TurnEnds score i 0x4001 := by
  have hmusic := hs.music
  have hmax : maxMusicSize = 65532 := rfl
  obtain ⟨k, hk, m', hleads, -, hlast⟩ :=
    (advances hs i).exists_last (n := 0x4000) (by omega) (by decide) h
  have hbound : ∀ bound, k < bound →
      runWords score i bound (m.woken i) = m'.runWord score i := by
    intro bound hbound
    obtain ⟨n, rfl⟩ := Nat.exists_eq_add_of_lt hbound
    rw [Nat.add_assoc, runWords_of_leads hleads, runWords_of_last hlast]
  have hlt : k < macroBound := Nat.lt_of_le_of_lt hk (by decide)
  exact ⟨k, m', Nat.succ_le_succ hk, hleads, endsTurn_of_last hlast, hbound macroBound hlt, hbound⟩

end Machine

/-! ## Tracks -/

/-- Where a track is: its words, and the next of them. -/
def Track.spot (t : Track) : UInt32 × UInt16 := (t.base, t.step)

namespace Tracks

variable {ts us : Tracks} {i : Slot} {k : Nat}

/-- The next word of a track. -/
def word? (score : Score) (i : Slot) (ts : Tracks) : Option Word :=
  score.word? ts[i].base ts[i].step

/-- The next word of a track jumps: it is a jump, and it is taken, or it starts a pattern on
    the track itself. -/
def jumps (score : Score) (i : Slot) (ts : Tracks) : Bool :=
  (ts.word? score i).any fun w => match Instruction.ofByte w.byte0 with
    | .command .loop => ts[i].loops != 0
    | .command .jump | .command .call => (score.pattern? w.byte1).isSome
    | .command .back => true
    | .command .play => Slot.ofNat w.byte2.toNat == i && (score.pattern? w.byte1).isSome
    | _ => false

/-- The row of a track is over with its next word: there is none in the music data, or the
    word is a wait, the end of the pattern, or a stop. -/
inductive EndsRow (score : Score) (i : Slot) (ts : Tracks) : Prop where
  | data : ts.word? score i = none → EndsRow score i ts
  | wait {w rows} : ts.word? score i = some w → w.restRows? = some rows → EndsRow score i ts
  | finish {w} : ts.word? score i = some w →
      Instruction.ofByte w.byte0 = .command .finish → EndsRow score i ts
  | stop {w c} : ts.word? score i = some w → Instruction.ofByte w.byte0 = .command c →
      c = .stop ∨ c = .stopCustom → EndsRow score i ts

/-- A track as what runs words. -/
def runner (score : Score) (i : Slot) : Runner Tracks where
  next? ts := match (Tracks.step score i ts).flow with
    | .goesOn => some (Tracks.step score i ts).tracks
    | .rests | .finishes => none
  jumps := jumps score i
  place ts := ts[i].next

/-- The row of a track, of which the words are run from `us` on, ends of itself.  Some words do not
    jump and go on, with the next one the row is over, and so many were looked for at most.
    No bound that lets them be run makes a difference, the one that there is among them,
    whether the row is heard or gone through. -/
def RowEnds (score : Score) (i : Slot) (fetches : Nat) (ts us : Tracks) : Prop :=
  ∃ k last, k + 1 ≤ fetches ∧ (runner score i).Leads k us last ∧ last.EndsRow score i ∧
    (∀ m, (playRow score i ts m).1.1 = (Tracks.step score i last).tracks ∧
      ∀ bound, k < bound → playWords score i bound us m = playRow score i ts m) ∧
    (simulateRow score i ts).1 = (Tracks.step score i last).tracks ∧
      ∀ bound, k < bound → simulateWords score i bound us = simulateRow score i ts

/-! ### Rows -/

theorem step_of_word {w : Word} (hw : ts.word? score i = some w) :
    Tracks.step score i ts =
      execute score i w (ts.modify i fun t => { t with step := t.step + 1 }) := by
  rw [word?] at hw
  rw [Tracks.step, hw]

theorem flow_of_no_word (hw : ts.word? score i = none) :
    (Tracks.step score i ts).flow = .rests := by
  rw [word?] at hw
  rw [Tracks.step, hw]

theorem next?_eq_some_iff : (runner score i).next? ts = some us ↔
    (Tracks.step score i ts).flow = .goesOn ∧ (Tracks.step score i ts).tracks = us := by
  show (match (Tracks.step score i ts).flow with
    | .goesOn => some (Tracks.step score i ts).tracks
    | .rests | .finishes => none) = some us ↔ _
  cases (Tracks.step score i ts).flow <;> simp

theorem next?_eq_none_iff : (runner score i).next? ts = none ↔
    (Tracks.step score i ts).flow ≠ .goesOn := by
  show (match (Tracks.step score i ts).flow with
    | .goesOn => some (Tracks.step score i ts).tracks
    | .rests | .finishes => none) = none ↔ _
  cases (Tracks.step score i ts).flow <;> simp

/-- A word that does not jump, and after which the row goes on, is followed by the next one. -/
theorem spot_step {w : Word} (hw : ts.word? score i = some w) (hjumps : ts.jumps score i = false)
    (hgoes : (Tracks.step score i ts).flow = .goesOn) :
    (Tracks.step score i ts).tracks[i].spot = (ts[i].base, ts[i].step + 1) := by
  have hmodify : ∀ f : Track → Track, (∀ t, (f t).spot = t.spot) →
      ((ts.modify i fun t => { t with step := t.step + 1 }).modify i f)[i].spot =
        (ts[i].base, ts[i].step + 1) := by
    intro f hf
    rw [Octet.modify_modify, Octet.getElem_modify, if_pos rfl]
    exact hf _
  cases hstays : w.staysOn i with
  | true =>
    obtain ⟨wait, he⟩ := step_of_staysOn hw hstays
    rw [he]
    rfl
  | false =>
    rw [jumps, hw, Option.any_some] at hjumps
    unfold Word.staysOn at hstays
    cases hinstruction : Instruction.ofByte w.byte0 with
    | note kind =>
      rw [hinstruction] at hstays
      cases hstays
    | command c =>
      have hstep := step_of_word hw
      unfold execute at hstep
      rw [hinstruction] at hstays hjumps hstep
      rw [hstep] at hgoes
      cases c with
      | finish | stop | stopCustom => cases hgoes
      | loop =>
        have hover : ts[i].loops = 0 := bne_eq_false_iff_eq.1 hjumps
        rw [step_of_loop hw (decide_eq_true hinstruction), Track.loop, if_pos hover]
        rfl
      | jump | call =>
        have hnone := Option.not_isSome_iff_eq_none.1 (ne_true_of_eq_false hjumps)
        rw [hstep]
        refine hmodify _ fun t => ?_
        rw [hnone]
        rfl
      | back => cases hjumps
      | play =>
        have hself : Slot.ofNat w.byte2.toNat = i := bne_eq_false_iff_eq.1 hstays
        rw [hself, BEq.rfl, Bool.true_and] at hjumps
        have hnone := Option.not_isSome_iff_eq_none.1 (ne_true_of_eq_false hjumps)
        rw [hstep]
        show Track.spot (Octet.modify _ (Slot.ofNat w.byte2.toNat) _)[i] = _
        rw [hself]
        refine hmodify _ fun t => ?_
        rw [hnone]
        rfl
      | _ => cases hstays

/-- So the row of a track advances. -/
theorem advances (hs : score.LaidOut) (i : Slot) :
    (runner score i).Advances score.music.size := by
  intro ts us hjumps hnext
  obtain ⟨hgoes, rfl⟩ := next?_eq_some_iff.1 hnext
  cases hw : ts.word? score i with
  | none =>
    rw [flow_of_no_word hw] at hgoes
    cases hgoes
  | some w =>
    have hspot := spot_step hw hjumps hgoes
    simp only [Track.spot, Prod.mk.injEq] at hspot
    show ts[i].next + 4 ≤ score.music.size ∧
      (Tracks.step score i ts).tracks[i].next = ts[i].next + 4
    rw [Track.next, Track.next, hspot.1, hspot.2]
    exact places_of_word? hs hw

/-- The last word of a row ends it. -/
theorem endsRow_of_last (h : (runner score i).next? ts = none) : ts.EndsRow score i := by
  have hflow := next?_eq_none_iff.1 h
  cases hw : ts.word? score i with
  | none => exact .data hw
  | some w =>
    rw [step_of_word hw] at hflow
    unfold execute at hflow
    cases hinstruction : Instruction.ofByte w.byte0 with
    | note kind =>
      rw [hinstruction] at hflow
      cases kind with
      | hold =>
        have hrows : w.restRows? = some w.byte3 := by rw [Word.restRows?, hinstruction]
        exact .wait hw hrows
      | plain | slide => exact absurd rfl hflow
    | command c =>
      rw [hinstruction] at hflow
      cases c with
      | wait =>
        have hrows : w.restRows? = some w.byte1 := by rw [Word.restRows?, hinstruction]
        exact .wait hw hrows
      | finish => exact .finish hw hinstruction
      | stop => exact .stop hw hinstruction (.inl rfl)
      | stopCustom => exact .stop hw hinstruction (.inr rfl)
      | _ => exact absurd rfl hflow

/-- A song is over at a word that jumps. -/
theorem request_ne_endSong (hjumps : ts.jumps score i = false) :
    (Tracks.step score i ts).request ≠ some .endSong := by
  intro h
  obtain ⟨⟨w, hw, hc⟩, -, -⟩ := request_eq_endSong h
  have hword : ts.word? score i = some w := hw
  rw [jumps, hword, Option.any_some, hc] at hjumps
  have hover : ts[i].loops = 0 := bne_eq_false_iff_eq.1 hjumps
  have hself : (ts.modify i fun t => { t with step := t.step + 1 })[i] =
      { ts[i] with step := ts[i].step + 1 } := Octet.getElem_set_self _ _ _
  rw [step_of_word hword, execute, hc] at h
  simp only [obey, hself, Track.loop, hover, if_true, Bool.false_and, Bool.false_eq_true,
    if_false, reduceCtorEq] at h

/-- Words that are run take as many off the bound, whether there is a machine or not. -/
theorem simulateWords_of_leads (h : (runner score i).Leads k ts us) (n : Nat) :
    simulateWords score i (k + n) ts = simulateWords score i n us := by
  induction h with
  | refl => rw [Nat.zero_add]
  | next hjumps hnext _ ih =>
    obtain ⟨hgoes, rfl⟩ := next?_eq_some_iff.1 hnext
    rw [Nat.add_right_comm, simulateWords, if_neg (request_ne_endSong hjumps), hgoes]
    exact ih

theorem playWords_of_leads (h : (runner score i).Leads k ts us) (m : Machine) :
    ∃ m', ∀ n, playWords score i (k + n) ts m = playWords score i n us m' := by
  induction h generalizing m with
  | refl => exact ⟨m, fun n => by rw [Nat.zero_add]⟩
  | @next k ts _ _ _ hnext _ ih =>
    obtain ⟨hgoes, rfl⟩ := next?_eq_some_iff.1 hnext
    obtain ⟨m', hm'⟩ := ih (m.grant? score (Tracks.step score i ts).request)
    refine ⟨m', fun n => ?_⟩
    rw [Nat.add_right_comm, playWords, hgoes]
    exact hm' n

/-- With the last word the row is over, whatever is left of the bound. -/
theorem simulateWords_of_last (hjumps : ts.jumps score i = false)
    (h : (runner score i).next? ts = none) (n : Nat) :
    simulateWords score i (n + 1) ts =
      ((Tracks.step score i ts).tracks, (Tracks.step score i ts).flow == .finishes) := by
  have hflow := next?_eq_none_iff.1 h
  rw [simulateWords, if_neg (request_ne_endSong hjumps)]
  cases hends : (Tracks.step score i ts).flow with
  | goesOn => exact absurd hends hflow
  | rests | finishes => rfl

theorem playWords_of_last (h : (runner score i).next? ts = none) (n : Nat) (m : Machine) :
    playWords score i (n + 1) ts m =
      (((Tracks.step score i ts).tracks, m.grant? score (Tracks.step score i ts).request),
        (Tracks.step score i ts).flow == .finishes) := by
  have hflow := next?_eq_none_iff.1 h
  rw [playWords]
  cases hends : (Tracks.step score i ts).flow with
  | goesOn => exact absurd hends hflow
  | rests | finishes => rfl

/-- A track that takes its next words has some. -/
theorem next_pos_of_enter (h : enter i ts = .runs us) : 0 < us[i].next := by
  unfold enter at h
  simp only at h
  split at h
  · cases h
  · split at h
    · cases h
    · next hplays =>
      split at h
      · cases h
      · cases h
        show 0 < Track.next (Octet.modify ts i _)[i]
        rw [Octet.getElem_modify, if_pos rfl]
        have hbase : ts[i].base.toNat ≠ 0 := fun he =>
          hplays (.inl (UInt32.toNat_inj.1 he))
        exact Nat.add_pos_left (Nat.pos_of_ne_zero hbase) _

/-- A row that does not jump ends by itself: no pattern begins with the first word of the
    music data, and so there are less than it may look for. -/
theorem rowEnds_of_straight (hs : score.LaidOut) (henter : enter i ts = .runs us)
    (h : (runner score i).straight rowBound us = true) : ts.RowEnds score i 0x4000 us := by
  have hmusic := hs.music
  have hmax : maxMusicSize = 65532 := rfl
  have hplace : 0 < (runner score i).place us := next_pos_of_enter henter
  obtain ⟨k, hk, last, hleads, hjumps, hlast⟩ :=
    (advances hs i).exists_last (n := 0x3fff) (by omega) (by decide) h
  have hlt : k < rowBound := Nat.lt_of_le_of_lt hk (by decide)
  have hsimulate : ∀ bound, k < bound → simulateWords score i bound us =
      ((Tracks.step score i last).tracks, (Tracks.step score i last).flow == .finishes) := by
    intro bound hbound
    obtain ⟨n, rfl⟩ := Nat.exists_eq_add_of_lt hbound
    rw [Nat.add_assoc, simulateWords_of_leads hleads, simulateWords_of_last hjumps hlast]
  have hplay : ∀ m, ∃ m', ∀ bound, k < bound → playWords score i bound us m =
      (((Tracks.step score i last).tracks, m'), (Tracks.step score i last).flow == .finishes) := by
    intro m
    obtain ⟨m', hm'⟩ := playWords_of_leads hleads m
    refine ⟨m'.grant? score (Tracks.step score i last).request, fun bound hbound => ?_⟩
    obtain ⟨n, rfl⟩ := Nat.exists_eq_add_of_lt hbound
    rw [Nat.add_assoc, hm', playWords_of_last hlast]
  refine ⟨k, last, Nat.succ_le_succ hk, hleads, endsRow_of_last hlast, fun m => ?_, ?_⟩
  · obtain ⟨m', hm'⟩ := hplay m
    have hrow : playRow score i ts m = playWords score i rowBound us m := by
      rw [playRow, henter]
    rw [hrow, hm' rowBound hlt]
    exact ⟨rfl, hm'⟩
  · have hrow : simulateRow score i ts = simulateWords score i rowBound us := by
      rw [simulateRow, henter]
    rw [hrow, hsimulate rowBound hlt]
    exact ⟨rfl, hsimulate⟩

end Tracks

/-! ## Both -/

/-- The bounds of a tune that is accepted cut off nothing but what jumps.  The turn of a macro
    that does not jump ends with a word that yields or stops it, or with the music data, after
    0x4001 words were looked for at most; and the row of a track that does not jump, with a
    word that makes the track wait, ends its pattern or stops it, or with the music data,
    after 0x4000. -/
theorem guards_spare_straight {music : ByteArray} {samples : Option ByteArray} {tune : Tune}
    (h : load music samples = .ok tune) (i : Slot) :
    (∀ m : Machine, (Machine.runner tune.score i).straight macroBound (m.woken i) = true →
      m.TurnEnds tune.score i 0x4001) ∧
    ∀ ts us : Tracks, Tracks.enter i ts = .runs us →
      (Tracks.runner tune.score i).straight Tracks.rowBound us = true →
        ts.RowEnds tune.score i 0x4000 us :=
  ⟨fun _ hstraight => Machine.turnEnds_of_straight (laidOut_of_load h) hstraight,
    fun _ _ henter hstraight => Tracks.rowEnds_of_straight (laidOut_of_load h) henter hstraight⟩

namespace Player

/-- A tune of a note with a key that is released, and of a macro that sets the volume and
    comes to a split that it does not take.  Both wait then. -/
def straightTune : ByteArray :=
  songTune 0 0 [0 :: List.replicate 7 0xff00] [[0x0c002000, 0xf5000000, 0xf3010000, 0xf0000000]]
    [[0x0e000010, 0x1d400000, 0x04000001, 0x07000000]]

/-- The turn of the macro in the second tick, and the row of the first track, end of
    themselves. -/
theorem guards_straightTune : ∃ tune p, load straightTune (some ⟨#[]⟩) = .ok tune ∧
    Player.new tune minRate = .ok p ∧
    p.tick.replay.begin.machine.TurnEnds tune.score 0 0x4001 ∧
      (p.inTick 23).tracks.RowEnds tune.score 0 0x4000 ((p.inTick 23).tracks.countWait 0) := by
  have h : ((load straightTune (some ⟨#[]⟩)).toOption.bind fun tune =>
      (Player.new tune minRate).toOption.map fun p =>
        [(Machine.runner p.tune.score 0).straight macroBound (p.tick.replay.begin.machine.woken 0),
          decide ((p.inTick 23).tracks[(0 : Slot)].base ≠ 0 ∧
            (p.inTick 23).tracks[(0 : Slot)].isStopped = false ∧
            (p.inTick 23).tracks[(0 : Slot)].wait = 0),
          (Tracks.runner p.tune.score 0).straight Tracks.rowBound
            ((p.inTick 23).tracks.countWait 0)]) =
        some [true, true, true] := by decide +kernel
  obtain ⟨tune, p, hload, hnew, h⟩ := exists_new h
  obtain rfl := new_tune hnew
  simp only [List.cons.injEq, decide_eq_true_eq, and_true] at h
  obtain ⟨hturn, ⟨hbase, hplays, hwait⟩, hrow⟩ := h
  obtain ⟨hturns, hrows⟩ := guards_spare_straight hload 0
  have henter := (Tracks.enter_of_runs ⟨hbase, hplays⟩).trans (if_neg (not_not.2 hwait))
  exact ⟨p.tune, p, hload, hnew, hturns _ hturn, hrows _ _ henter hrow⟩

end Player

end PaulaReplay
