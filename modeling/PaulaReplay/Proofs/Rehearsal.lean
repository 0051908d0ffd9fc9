/-
  Rehearsal: the row of a track without a machine.

  What a word does to the tracks does not depend on the machine, and so a row
  that is only gone through leaves the tracks as one that is heard.  There is
  one word at which they part: at a loop without end, with every track stopped
  or in such a loop, the song is over for a row without a machine, while one
  with a machine notes the end and plays on.

  * `Tracks.request_eq_endSong`: which word says that the song is over;
  * `Tracks.EndsAtLoop`: after so many words of a track comes that word;
  * `Tracks.playWords_congr`: tracks do not depend on the machine;
  * `Tracks.simulateWords_cases` goes through the words of a row both ways,
    and `Tracks.simulateRow_cases` is for the whole row.
-/
import Mathlib.Tactic.SplitIfs
import PaulaReplay.Engine.Row

namespace PaulaReplay.Tracks

open Pattern

variable {score : Score} {i : Slot} {ts us : Tracks}

/-! ## The word that ends a song -/

/-- A loop command that begins a loop without end says so of its track. -/
theorem looped_loop {t : Track} {count : UInt8} {target : UInt16}
    (h : (t.loop count target).2 = true) : (t.loop count target).1.looped = true := by
  unfold Track.loop at h ⊢
  simp only at h ⊢
  split_ifs at h ⊢ <;> simp_all

/-- Only a loop command says that the song is over, and it says so of tracks
    that are all stopped or in loops without end, its own one in such a loop. -/
theorem request_obey_eq_endSong {c : Command} {w : Word}
    (h : (obey score i c w ts).request = some .endSong) :
    c = .loop ∧ (obey score i c w ts).tracks[i].looped = true ∧
      allDone (obey score i c w ts).tracks = true := by
  cases c with
  | loop =>
    simp only [obey] at h ⊢
    split at h
    · next hdone =>
      rw [Bool.and_eq_true] at hdone
      rw [Octet.getElem_set_self]
      exact ⟨trivial, looped_loop hdone.1, hdone.2⟩
    · cases h
  | _ => cases h

/-- The word that says that the song is over. -/
theorem request_eq_endSong (h : (step score i ts).request = some .endSong) :
    (∃ w, score.word? ts[i].base ts[i].step = some w ∧
      Instruction.ofByte w.byte0 = .command .loop) ∧
      (step score i ts).tracks[i].looped = true ∧ allDone (step score i ts).tracks = true := by
  cases hw : score.word? ts[i].base ts[i].step with
  | none =>
    rw [step, hw] at h
    cases h
  | some w =>
    have hstep : step score i ts =
        execute score i w (ts.modify i fun t => { t with step := t.step + 1 }) := by
      rw [step, hw]
    rw [hstep, execute] at h ⊢
    generalize hc : Instruction.ofByte w.byte0 = instruction at h ⊢
    cases instruction with
    | note kind => cases kind <;> simp [playNote] at h
    | command c =>
      obtain ⟨rfl, hlooped, hdone⟩ := request_obey_eq_endSong h
      exact ⟨⟨w, rfl, hc⟩, hlooped, hdone⟩

/-- After `n` words of track `i` that go on comes a loop command, which leaves
    that track in a loop without end and every track stopped or in one. -/
inductive EndsAtLoop (score : Score) (i : Slot) : Nat → Tracks → Tracks → Prop where
  | here {ts : Tracks} {w : Word} : score.word? ts[i].base ts[i].step = some w →
      Instruction.ofByte w.byte0 = .command .loop →
      (step score i ts).tracks[i].looped = true → allDone (step score i ts).tracks = true →
      EndsAtLoop score i 0 ts (step score i ts).tracks
  | next {n : Nat} {ts us : Tracks} : (step score i ts).flow = .goesOn →
      EndsAtLoop score i n (step score i ts).tracks us → EndsAtLoop score i (n + 1) ts us

/-! ## Words -/

/-- What the words of a track do to the tracks, and whether its pattern is over
    after them, does not depend on the machine. -/
theorem playWords_congr (score : Score) (i : Slot) (m m' : Machine) : ∀ (n : Nat) (ts : Tracks),
    (playWords score i n ts m).1.1 = (playWords score i n ts m').1.1 ∧
      (playWords score i n ts m).2 = (playWords score i n ts m').2 := by
  intro n
  induction n generalizing m m' with
  | zero => exact fun ts => ⟨rfl, rfl⟩
  | succ n ih =>
    intro ts
    rw [playWords, playWords]
    cases (step score i ts).flow with
    | goesOn => exact ih _ _ _
    | rests => exact ⟨rfl, rfl⟩
    | finishes => exact ⟨rfl, rfl⟩

/-- A word that says that the song is over goes on where there is a machine. -/
theorem flow_of_endSong (h : (step score i ts).request = some .endSong) :
    (step score i ts).flow = .goesOn := by
  obtain ⟨⟨w, hw, hc⟩, -, -⟩ := request_eq_endSong h
  simp only [step, hw, execute, hc, obey]

/-- The words of a track without a machine leave the tracks that they leave with
    one, unless they come to the end of the song.  Up to there both have gone
    the same way, and with a machine the words go on from there. -/
theorem simulateWords_cases (score : Score) (i : Slot) : ∀ (n : Nat) (ts : Tracks) (m : Machine),
    simulateWords score i n ts = ((playWords score i n ts m).1.1, (playWords score i n ts m).2) ∨
      ∃ k us m', k < n ∧ EndsAtLoop score i k ts us ∧ simulateWords score i n ts = (us, true) ∧
        playWords score i n ts m = playWords score i (n - (k + 1)) us (Machine.reachEnd m') := by
  intro n
  induction n with
  | zero => exact fun ts m => .inl rfl
  | succ n ih =>
    intro ts m
    by_cases hend : (step score i ts).request = some .endSong
    · obtain ⟨⟨w, hw, hc⟩, hlooped, hdone⟩ := request_eq_endSong hend
      refine .inr ⟨0, _, m, Nat.succ_pos n, .here hw hc hlooped hdone, ?_, ?_⟩
      · simp only [simulateWords, hend, if_true]
      · simp only [playWords, flow_of_endSong hend, hend]
        rfl
    · simp only [simulateWords, playWords, if_neg hend]
      cases hflow : (step score i ts).flow with
      | goesOn =>
        -- both run the next word, from the same tracks
        rcases ih (step score i ts).tracks (m.grant? score (step score i ts).request) with
          he | ⟨k, us, m', hk, hus, hs, hp⟩
        · exact .inl he
        · refine .inr ⟨k + 1, us, m', Nat.succ_lt_succ hk, .next hflow hus, hs, ?_⟩
          rw [Nat.add_sub_add_right]
          exact hp
      | rests => exact .inl rfl
      | finishes => exact .inl rfl

/-! ## Rows -/

/-- The row of a track does the same to the tracks whatever machine it is played
    on, and its pattern is over or not for all of them alike.  So it is
    without a machine, but for one word: where the row comes to a loop without
    end of the track, with every track stopped or in a loop without end, the
    row without a machine is over there, and the one with a machine goes on
    from the same tracks. -/
theorem simulateRow_cases (score : Score) (i : Slot) (ts : Tracks) :
    (∀ m m', (playRow score i ts m).1.1 = (playRow score i ts m').1.1 ∧
      (playRow score i ts m).2 = (playRow score i ts m').2) ∧
    ∀ m, simulateRow score i ts = ((playRow score i ts m).1.1, (playRow score i ts m).2) ∨
      ∃ rs n us m', enter i ts = .runs rs ∧ n < rowBound ∧ EndsAtLoop score i n rs us ∧
        us[i].looped = true ∧ allDone us = true ∧ simulateRow score i ts = (us, true) ∧
        playRow score i ts m =
          playWords score i (rowBound - (n + 1)) us (Machine.reachEnd m') := by
  have hdone : ∀ {n rs us}, EndsAtLoop score i n rs us →
      us[i].looped = true ∧ allDone us = true := by
    intro n rs us h
    induction h with
    | here _ _ hlooped hdone => exact ⟨hlooped, hdone⟩
    | next _ _ ih => exact ih
  unfold playRow simulateRow
  cases enter i ts with
  | idle rs => exact ⟨fun m m' => ⟨rfl, rfl⟩, fun m => .inl rfl⟩
  | switchesOff rs channel => exact ⟨fun m m' => ⟨rfl, rfl⟩, fun m => .inl rfl⟩
  | runs rs =>
    refine ⟨fun m m' => playWords_congr score i m m' rowBound rs, fun m => ?_⟩
    refine (simulateWords_cases score i rowBound rs m).imp id ?_
    rintro ⟨n, us, m', hn, hus, hs, hp⟩
    exact ⟨rs, n, us, m', rfl, hn, hus, (hdone hus).1, (hdone hus).2, hs, hp⟩

end PaulaReplay.Tracks
