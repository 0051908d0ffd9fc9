/-
  Songs: how many sub-songs a tune has.

  The song table ends at an entry that holds no position, that begins past the track
  steps, that is zero and followed by zero, or that is the second one to begin at zero.
  The number of sub-songs is the index at which the reading of the table stops.  That is
  the entry that ends it, or else the last one, which is not counted then.

  * `endsTable`: an entry ends the table; `Score.validSongs`: the entries before the first
    one that does;
  * `StopsAt`: the reading stops at the first entry that ends the table, or at the last
    one; `stopsAt_stopIndex` by recursion over the entries that are left;
  * `Score.songCount_law`: the number of sub-songs is that of the valid entries where one
    ends the table, and one less where none does.
-/
import PaulaReplay.Proofs.Playback

namespace PaulaReplay

open Player (numberBytes wordBytes)

/-! ## The end of a song table -/

/-- How many of some sub-songs begin at zero. -/
def zeroStarts (ss : List SubSong) : Nat := ss.countP (·.first == 0)

/-- Whether entry `i` ends a song table. -/
def endsTable (steps : Nat) (ss : List SubSong) (i : Nat) : Bool :=
  ss[i]?.any fun s =>
    s.first == 0x1ff || s.last == 0x1ff || steps ≤ s.first.toNat ||
      (s.first == 0 && s.last == 0 && (ss[i + 1]?.map SubSong.first).getD 0 == 0) ||
      (s.first == 0 && zeroStarts (ss.take i) == 1)

/-- The entries before the first one that ends the table; all of them if none does. -/
def Score.validSongs (score : Score) : Nat :=
  (List.range 32).findIdx (endsTable score.trackSteps.size score.songs.toList)

variable {steps : Nat} {ss : List SubSong} {i : Nat}

/-- An entry ends the table by itself and the next one, or by those before it. -/
theorem endsTable_append (steps : Nat) (before : List SubSong) (s : SubSong)
    (rest : List SubSong) : endsTable steps (before ++ s :: rest) before.length =
      (s.isLast steps ((rest.head?.map SubSong.first).getD 0) ||
        (s.first == 0 && zeroStarts before == 1)) := by
  have hentry : (before ++ s :: rest)[before.length]? = some s := by simp
  have hnext : (before ++ s :: rest)[before.length + 1]? = rest.head? := by
    rw [List.getElem?_append_right (Nat.le_add_right _ 1), Nat.add_sub_cancel_left,
      List.head?_eq_getElem?]
    rfl
  have hzero : (s.first == s.last && s.first == 0) = (s.first == 0 && s.last == 0) := by
    rw [Bool.eq_iff_iff]
    simp only [Bool.and_eq_true, beq_iff_eq]
    exact ⟨fun ⟨h, h'⟩ => ⟨h', h ▸ h'⟩, fun ⟨h, h'⟩ => ⟨h.trans h'.symm, h⟩⟩
  rw [endsTable, hentry, hnext, List.take_left, Option.any_some, SubSong.isLast, hzero]
  rfl

theorem zeroStarts_concat (before : List SubSong) (s : SubSong) :
    zeroStarts (before ++ [s]) = zeroStarts before + if s.first = 0 then 1 else 0 := by
  simp [zeroStarts, List.countP_cons]

/-- One more entry that does not end the table. -/
theorem not_endsTable_concat {before : List SubSong}
    (hbefore : ∀ i < before.length, endsTable steps ss i = false)
    (hnot : endsTable steps ss before.length = false) (s : SubSong) :
    ∀ i < (before ++ [s]).length, endsTable steps ss i = false := by
  intro i hi
  rw [List.length_append, List.length_singleton] at hi
  rcases Nat.lt_succ_iff_lt_or_eq.1 hi with hi | rfl
  · exact hbefore i hi
  · exact hnot

/-! ## Where the reading stops -/

/-- The reading of a table stops at the first entry that ends it, or at the last one. -/
structure StopsAt (steps : Nat) (ss : List SubSong) (stop : Nat) : Prop where
  lt : stop < ss.length
  before : ∀ i < stop, endsTable steps ss i = false
  ends : endsTable steps ss stop = true ∨ stop + 1 = ss.length

/-- So it does from an entry on before which none ends the table. -/
theorem stopsAt_stopIndex : ∀ (rest before : List SubSong) (zeros : Nat), rest ≠ [] → 0 < zeros →
    zeros + zeroStarts before = 2 →
    (∀ i < before.length, endsTable steps (before ++ rest) i = false) →
      StopsAt steps (before ++ rest) (stopIndex steps zeros before.length rest)
  | [], _, _, hrest, _, _, _ => absurd rfl hrest
  | s :: rest, before, zeros, _, hpos, hzeros, hbefore => by
    have hlength : (before ++ s :: rest).length = before.length + rest.length + 1 := by
      rw [List.length_append, List.length_cons, Nat.add_assoc]
    have hends := endsTable_append steps before s rest
    rw [stopIndex]
    generalize hleft : (if s.first = 0 then zeros - 1 else zeros) = left
    generalize (rest.head?.map SubSong.first).getD 0 = next at hends
    -- the entry is the last one to begin at zero just where one before it does
    have hused : left = 0 ↔ s.first = 0 ∧ zeroStarts before = 1 := by
      rw [← hleft]
      split
      · next hzero =>
        rw [and_iff_right hzero]
        omega
      · next hzero => exact iff_of_false (Nat.ne_of_gt hpos) fun h => hzero h.1
    split
    · next hstop =>
      refine ⟨by omega, hbefore, ?_⟩
      rcases hstop with hlast | hnone | hrest
      · left
        rw [hends, hlast, Bool.true_or]
      · left
        rw [hends, beq_iff_eq.2 (hused.1 hnone).1, beq_iff_eq.2 (hused.1 hnone).2]
        exact Bool.or_true _
      · right
        rw [hlength, hrest]
        rfl
    · next hgoes =>
      obtain ⟨hlast, hleftover, hmore⟩ : s.isLast steps next = false ∧ left ≠ 0 ∧ rest ≠ [] := by
        simpa only [not_or, Bool.not_eq_true] using hgoes
      have htable : before ++ s :: rest = before ++ [s] ++ rest := List.append_cons before s rest
      have hnot : endsTable steps (before ++ s :: rest) before.length = false := by
        rw [hends, hlast, Bool.false_or, ← Bool.not_eq_true, Bool.and_eq_true, beq_iff_eq,
          beq_iff_eq, ← hused]
        exact hleftover
      have hcount : left + zeroStarts (before ++ [s]) = 2 := by
        rw [zeroStarts_concat, ← hleft]
        split <;> omega
      rw [htable] at hbefore hnot ⊢
      have hstop := stopsAt_stopIndex rest (before ++ [s]) left hmore
        (Nat.pos_of_ne_zero hleftover) hcount (not_endsTable_concat hbefore hnot s)
      rwa [List.length_append] at hstop

theorem stopsAt_stopIndex_zero (steps : Nat) (hss : ss ≠ []) :
    StopsAt steps ss (stopIndex steps 2 0 ss) :=
  stopsAt_stopIndex ss [] 2 hss (by decide) rfl nofun

/-! ## The number of sub-songs -/

namespace Score

variable {score : Score}

/-- Entry `i` ends the song table of a score. -/
def EndsAt (score : Score) (i : Nat) : Prop :=
  endsTable score.trackSteps.size score.songs.toList i = true

theorem validSongs_le (score : Score) : score.validSongs ≤ 32 := by
  have h : score.validSongs ≤ (List.range 32).length := List.findIdx_le_length
  rwa [List.length_range] at h

theorem not_endsAt_of_lt (h : i < score.validSongs) : ¬ score.EndsAt i := by
  have hi : i < 32 := Nat.lt_of_lt_of_le h score.validSongs_le
  have hnot := List.not_of_lt_findIdx h
  rw [List.getElem_range] at hnot
  exact Bool.eq_false_iff.1 hnot

/-- It is the first entry that ends the table. -/
theorem validSongs_eq (hi : i < 32) (hbefore : ∀ j < i, ¬ score.EndsAt j) (hend : score.EndsAt i) :
    score.validSongs = i := by
  rw [validSongs, List.findIdx_eq (by rwa [List.length_range])]
  simp only [List.getElem_range]
  exact ⟨hend, fun j hj => Bool.eq_false_iff.2 (hbefore j hj)⟩

theorem validSongs_eq_of_none (hnone : ∀ i < 32, ¬ score.EndsAt i) : score.validSongs = 32 := by
  rw [validSongs, List.findIdx_eq_length_of_false, List.length_range]
  exact fun i hi => Bool.eq_false_iff.2 (hnone i (List.mem_range.1 hi))

theorem endsAt_validSongs (h : score.validSongs < 32) : score.EndsAt score.validSongs := by
  have hlength : score.validSongs < (List.range 32).length := by rwa [List.length_range]
  have hend : score.EndsAt (List.range 32)[score.validSongs] := List.findIdx_getElem
  rwa [List.getElem_range] at hend

/-- Some entry ends the table if and only if not all of them come before that. -/
theorem validSongs_lt_iff : score.validSongs < 32 ↔ ∃ i < 32, score.EndsAt i := by
  refine ⟨fun h => ⟨_, h, endsAt_validSongs h⟩, fun ⟨i, hi, hend⟩ => ?_⟩
  refine Nat.lt_of_le_of_lt (Nat.le_of_not_lt fun hlt => ?_) hi
  exact not_endsAt_of_lt hlt hend

/-- An entry that does not end the table begins at a track step. -/
theorem first_lt_of_not_endsAt (hi : i < 32) (h : ¬ score.EndsAt i) :
    ∃ s, score.subSong? i = some s ∧ s.first.toNat < score.trackSteps.size := by
  have hentry : score.subSong? i = some score.songs[i] := Vector.getElem?_eq_getElem hi
  refine ⟨_, hentry, Nat.lt_of_not_le fun hle => h ?_⟩
  have htable : score.songs.toList[i]? = some score.songs[i] := by
    rw [Vector.getElem?_toList]
    exact hentry
  rw [EndsAt, endsTable, htable, Option.any_some, decide_eq_true hle, Bool.or_true, Bool.true_or,
    Bool.true_or]

/-- The reading stops at the first entry that ends the table, and at the last one if none
    does. -/
theorem stopIndex_eq (score : Score) :
    stopIndex score.trackSteps.size 2 0 score.songs.toList = min 31 score.validSongs := by
  have hlength : score.songs.toList.length = 32 := Vector.length_toList
  have hne : score.songs.toList ≠ [] := List.ne_nil_of_length_eq_add_one hlength
  obtain ⟨hlt, hbefore, hends⟩ := stopsAt_stopIndex_zero score.trackSteps.size hne
  generalize stopIndex score.trackSteps.size 2 0 score.songs.toList = stop at *
  rw [hlength] at hlt hends
  have hnot : ∀ i < stop, ¬ score.EndsAt i := fun i hi => Bool.eq_false_iff.1 (hbefore i hi)
  by_cases hend : score.EndsAt stop
  · rw [validSongs_eq hlt hnot hend]
    omega
  · have hlast : stop + 1 = 32 := hends.resolve_left hend
    have hnone : score.validSongs = 32 := validSongs_eq_of_none fun i hi => by
      rcases Nat.lt_or_eq_of_le (Nat.le_of_lt_succ (hlast ▸ hi)) with hi | rfl
      · exact hnot i hi
      · exact hend
    omega

/-- The number of sub-songs is that of the valid entries, but at least one, if and only if
    some entry ends the table; where none does, the last entry is not counted.  But for the
    first one, all sub-songs begin at a track step. -/
theorem songCount_law (score : Score) :
    (∀ i < score.validSongs, ¬ score.EndsAt i) ∧
    (score.validSongs < 32 ∧ score.EndsAt score.validSongs ∨ score.validSongs = 32) ∧
    score.songCount = max 1 (min 31 score.validSongs) ∧
    (score.songCount = max 1 score.validSongs ↔ ∃ i < 32, score.EndsAt i) ∧
    ∀ i, i ≠ 0 → i < score.songCount →
      ∃ s, score.subSong? i = some s ∧ s.first.toNat < score.trackSteps.size := by
  have hle := score.validSongs_le
  have hcount : score.songCount = max 1 (min 31 score.validSongs) := by
    rw [songCount, stopIndex_eq]
  refine ⟨fun i => not_endsAt_of_lt, ?_, hcount, ?_, fun i hne hi => ?_⟩
  · rcases Nat.lt_or_eq_of_le hle with hlt | heq
    · exact .inl ⟨hlt, endsAt_validSongs hlt⟩
    · exact .inr heq
  · rw [← validSongs_lt_iff, hcount]
    omega
  · have hvalid : i < score.validSongs := by omega
    exact first_lt_of_not_endsAt (by omega) (not_endsAt_of_lt hvalid)

end Score

/-! ## Tables with and without an end -/

/-- A tune whose song table begins with some entries that consist of one position each, and
    is filled up with zeros, of two track steps, one pattern and one macro. -/
def tableTune (positions : List UInt16) : ByteArray :=
  let zeros (n : Nat) : List UInt8 := List.replicate n 0
  let column := numberBytes (positions ++ List.replicate (32 - positions.length) 0)
  let step := numberBytes (0 :: List.replicate 7 0xff00)
  ⟨([[0x54, 0x46, 0x4d, 0x58], zeros 0xfc, column, column, zeros 0x50,
    wordBytes [0x200, 0x220, 0x224], zeros 0x24, step, step,
    wordBytes [0x228, 0x22c, 0xf3ff0000, 0x07000000]].flatten).toArray⟩

/-- Three sub-songs, and an entry that is zero behind them. -/
theorem songCount_three : ∃ tune, load (tableTune [0, 1, 1]) (some ⟨#[]⟩) = .ok tune ∧
    tune.score.EndsAt 3 ∧ tune.score.songCount = 3 ∧ tune.score.validSongs = 3 ∧
      ∃ s, tune.score.subSong? 2 = some s ∧ s.first.toNat < tune.score.trackSteps.size := by
  have h : (load (tableTune [0, 1, 1]) (some ⟨#[]⟩)).toOption.map (fun tune =>
      (endsTable tune.score.trackSteps.size tune.score.songs.toList 3, tune.score.songCount)) =
        some (true, 3) := by
    decide +kernel
  obtain ⟨tune, htune, hcounts⟩ := Option.map_eq_some_iff.1 h
  obtain ⟨hend, hcount⟩ := Prod.mk.inj hcounts
  obtain ⟨-, -, -, hiff, hfirst⟩ := tune.score.songCount_law
  have hvalid : tune.score.songCount = max 1 tune.score.validSongs :=
    hiff.2 ⟨3, by decide, hend⟩
  refine ⟨tune, Player.eq_ok_of_toOption htune, hend, hcount, by omega, ?_⟩
  exact hfirst 2 (by decide) (by omega)

/-- A full table of sub-songs, none of which ends it: the last one is not counted, and
    cannot be started. -/
theorem songCount_full : ∃ tune, load (tableTune (List.replicate 32 1)) (some ⟨#[]⟩) = .ok tune ∧
    (∀ i < 32, ¬ tune.score.EndsAt i) ∧ tune.score.validSongs = 32 ∧ tune.score.songCount = 31 ∧
      tune.score.subSong? 31 = some ⟨1, 1, 0⟩ ∧
      ∀ p : Player, p.tune = tune → p.start 31 = .error (.format (.invalidSong 31)) := by
  have h : (load (tableTune (List.replicate 32 1)) (some ⟨#[]⟩)).toOption.map (fun tune =>
      ((List.range 32).all (!endsTable tune.score.trackSteps.size tune.score.songs.toList ·),
        tune.score.songCount, tune.score.subSong? 31)) = some (true, 31, some ⟨1, 1, 0⟩) := by
    decide +kernel
  obtain ⟨tune, htune, hcounts⟩ := Option.map_eq_some_iff.1 h
  simp only [Prod.mk.injEq] at hcounts
  obtain ⟨hall, hcount, hlast⟩ := hcounts
  have hnone : ∀ i < 32, ¬ tune.score.EndsAt i := fun i hi => by
    have hnot := List.all_eq_true.1 hall i (List.mem_range.2 hi)
    exact Bool.eq_false_iff.1 (by simpa using hnot)
  refine ⟨tune, Player.eq_ok_of_toOption htune, hnone, Score.validSongs_eq_of_none hnone, hcount,
    hlast, fun p hp => ?_⟩
  rw [Player.start, hp, hcount]
  rfl

end PaulaReplay
