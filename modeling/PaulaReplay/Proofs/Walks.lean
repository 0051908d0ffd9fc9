/-
  Walks: which sub-songs switch the time share on.

  The kind for seven voices is told by walks over the command steps at which the
  sub-songs begin.  The walks are made one after the other, and each goes on
  with the loop counter that the one before it has left.

  * `commandAt?`, `Walk.step_eq`: what a walk does at a track step;
  * `StraightFor`: a walk comes to no loop; `Walk.run_withJumps`: it takes no
    notice of the counter then;
  * `walkOf` is the walk of a sub-song, `jumpsBefore` the counter that the walks
    before it leave; `anyTimeShare_iff`: the walks in turn;
  * `hasTimeShare_law`: each sub-song counts on its own where the counter that
    is left to it is that of a new walk, or its own walk comes to no loop;
  * `hasTimeShare_misled`: so it is not where two sub-songs come to loops.
-/
import PaulaReplay.Proofs.Playback

namespace PaulaReplay

open Bytes
open Player (numberBytes wordBytes)

variable {b : ByteArray} {start base : Nat}

/-! ## Command steps -/

/-- The command of a track step, `none` for a step that plays patterns. -/
def commandAt? (b : ByteArray) (base position : Nat) : Option Nat :=
  let o := base + position * 16
  if u16? b o = some commandMark then some ((u16? b (o + 2)).getD 0xffff).toNat else none

/-- A walk of so many steps from a position comes to no loop: a step that is not
    passed over, and so ends the walk, stands before the first one. -/
def StraightFor (b : ByteArray) (base n position : Nat) : Prop :=
  ∀ m < n, (∀ k < m, ∃ c ∈ [2, 3, 4], commandAt? b base (position + k) = some c) →
    commandAt? b base (position + m) ≠ some 1

/-- So it is if there is none up to a step that plays patterns. -/
theorem straightFor_of_end {n position k : Nat} (hend : commandAt? b base (position + k) = none)
    (hnone : ∀ m < k, commandAt? b base (position + m) ≠ some 1) :
    StraightFor b base n position := by
  intro m _ hpassed
  rcases Nat.lt_trichotomy m k with hlt | rfl | hlt
  · exact hnone m hlt
  · rw [hend]
    exact nofun
  · obtain ⟨c, -, hc⟩ := hpassed k hlt
    rw [hend] at hc
    cases hc

theorem StraightFor.ne_loop {n position : Nat} (h : StraightFor b base (n + 1) position) :
    commandAt? b base position ≠ some 1 :=
  h 0 (Nat.succ_pos n) nofun

theorem StraightFor.next {n position c : Nat} (h : StraightFor b base (n + 1) position)
    (hc : c ∈ [2, 3, 4]) (hcommand : commandAt? b base position = some c) :
    StraightFor b base n (position + 1) := by
  intro m hm hpassed
  rw [Nat.add_assoc, Nat.add_comm 1 m]
  refine h (m + 1) (Nat.succ_lt_succ hm) fun k hk => ?_
  cases k with
  | zero => exact ⟨c, hc, hcommand⟩
  | succ k =>
    obtain ⟨d, hd, hpass⟩ := hpassed k (Nat.lt_of_succ_lt_succ hk)
    rw [Nat.add_assoc, Nat.add_comm 1 k] at hpass
    exact ⟨d, hd, hpass⟩

namespace Walk

/-- What a walk does at a track step. -/
theorem step_eq (b : ByteArray) (base : Nat) (w : Walk) : w.step b base =
    match commandAt? b base w.position with
    | none => (w, false)
    | some 1 =>
      (w.loop ((u16? b (base + w.position * 16 + 4)).getD 0).toNat
        ((u16? b (base + w.position * 16 + 6)).getD 0).toNat, true)
    | some 2 | some 4 => ({ w with position := w.position + 1 }, true)
    | some 3 => ({ w with position := w.position + 1, timeShare := true }, true)
    | some _ => ({ w with timeShare := false }, false) := by
  rw [step, commandAt?]
  by_cases hmark : u16? b (base + w.position * 16) = some commandMark
  · simp only [hmark, ne_eq, not_true_eq_false, if_false, if_true]
    split <;> simp_all
  · simp only [hmark, ne_eq, not_false_eq_true, if_true, if_false]

/-- At a step that is no loop a walk goes to the next position or ends, and its
    counter neither matters nor changes. -/
theorem step_withJumps (w : Walk) (jumps : Int) (h : commandAt? b base w.position ≠ some 1) :
    { w with jumps }.step b base = ({ (w.step b base).1 with jumps }, (w.step b base).2) ∧
      ((w.step b base).2 = true → (w.step b base).1.position = w.position + 1 ∧
        ∃ c ∈ [2, 3, 4], commandAt? b base w.position = some c) := by
  rw [step_eq, step_eq]
  cases hc : commandAt? b base w.position with
  | none => exact ⟨rfl, nofun⟩
  | some c =>
    rw [hc] at h
    split <;> simp_all

/-- A walk that comes to no loop takes no notice of the counter. -/
theorem run_withJumps : ∀ (n : Nat) (w : Walk) (jumps : Int), StraightFor b base n w.position →
    run b base n { w with jumps } = { run b base n w with jumps }
  | 0, _, _, _ => rfl
  | n + 1, w, jumps, h => by
    obtain ⟨hstep, hgoes⟩ := step_withJumps w jumps h.ne_loop
    rw [run, run, hstep]
    generalize hw : w.step b base = next at hgoes
    obtain ⟨w', goesOn⟩ := next
    cases goesOn with
    | false => rfl
    | true =>
      obtain ⟨hposition, c, hc, hcommand⟩ := hgoes rfl
      refine run_withJumps n w' jumps ?_
      rw [hposition]
      exact h.next hc hcommand

end Walk

/-! ## Sub-songs -/

/-- Where the track steps begin over which the walks go; `none` where the header
    is cut short. -/
def walkBase? (b : ByteArray) (start : Nat) : Option Nat :=
  (u32? b (start + tableOffset)).map fun offset =>
    start + if offset = 0 then 0x800 else offset.toNat

/-- The position at which sub-song `i` begins. -/
def songStart? (b : ByteArray) (start i : Nat) : Option UInt16 :=
  u16? b (start + songStartOffset + i * 2)

/-- None of the sub-songs up to `i` ends the table. -/
def Listed (b : ByteArray) (start i : Nat) : Prop := ∀ j ≤ i, songStart? b start j ≠ some 0x1ff

/-- The walk of sub-song `i` from a loop counter. -/
def walkOf (b : ByteArray) (start base i : Nat) (jumps : Int) : Walk :=
  Walk.run b base walkBound ⟨((songStart? b start i).getD 0).toNat, jumps, false⟩

/-- The walk of sub-song `i` from a loop counter switches the time share on. -/
def SwitchesOn (b : ByteArray) (start base i : Nat) (jumps : Int) : Prop :=
  (walkOf b start base i jumps).timeShare = true

/-- The walk of sub-song `i` comes to no loop. -/
def Straight (b : ByteArray) (start base i : Nat) : Prop :=
  StraightFor b base walkBound ((songStart? b start i).getD 0).toNat

/-- The loop counter that the walks of the sub-songs before `i` leave. -/
def jumpsBefore (b : ByteArray) (start base : Nat) : Nat → Int
  | 0 => 0
  | i + 1 => (walkOf b start base i (jumpsBefore b start base i)).jumps

theorem walkOf_of_straight {i : Nat} (h : Straight b start base i) (jumps : Int) :
    walkOf b start base i jumps = { walkOf b start base i 0 with jumps } :=
  Walk.run_withJumps walkBound ⟨_, 0, false⟩ jumps h

/-- A walk that comes to no loop finds the same from every counter. -/
theorem switchesOn_of_straight {i : Nat} (h : Straight b start base i) (jumps : Int) :
    SwitchesOn b start base i jumps ↔ SwitchesOn b start base i 0 := by
  rw [SwitchesOn, walkOf_of_straight h jumps, SwitchesOn]

/-- Walks that come to no loop leave the counter of a new walk. -/
theorem jumpsBefore_eq_zero : ∀ (i : Nat), (∀ j < i, Straight b start base j) →
    jumpsBefore b start base i = 0
  | 0, _ => rfl
  | i + 1, h => by
    rw [jumpsBefore, walkOf_of_straight (h i (Nat.lt_succ_self i)),
      jumpsBefore_eq_zero i fun j hj => h j (Nat.lt_succ_of_lt hj)]

/-- The song table lies before the places of the tables, and so it can be read
    where they can. -/
theorem exists_songStart {i : Nat} (hbase : walkBase? b start = some base) (hi : i < 31) :
    ∃ position, songStart? b start i = some position := by
  rw [← Option.ne_none_iff_exists', songStart?, ne_eq, u16?_eq_none_iff]
  obtain ⟨offset, hoffset, -⟩ := Option.map_eq_some_iff.1 hbase
  have hsize : ¬ b.size < start + tableOffset + 4 := fun hlt => by
    rw [u32?_eq_none_iff.2 hlt] at hoffset
    cases hoffset
  rw [tableOffset] at hsize
  rw [songStartOffset]
  omega

/-- The walks from sub-song `i` on, one after the other, until one switches the
    time share on. -/
theorem anyTimeShare_iff (hread : ∀ j < 31, ∃ position, songStart? b start j = some position) :
    ∀ (n i : Nat), i + n ≤ 31 → (∀ j < i, songStart? b start j ≠ some 0x1ff) →
      (anyTimeShare b start base n i (jumpsBefore b start base i) = true ↔
        ∃ k, i ≤ k ∧ k < i + n ∧ Listed b start k ∧
          SwitchesOn b start base k (jumpsBefore b start base k))
  | 0, i, _, _ => iff_of_false Bool.false_ne_true fun ⟨k, hle, hlt, _⟩ => by omega
  | n + 1, i, hn, hbefore => by
    obtain ⟨position, hposition⟩ := hread i (by omega)
    have hwalk : walkOf b start base i (jumpsBefore b start base i) = Walk.run b base walkBound
        ⟨position.toNat, jumpsBefore b start base i, false⟩ := by
      rw [walkOf, hposition, Option.getD_some]
    have hentry : u16? b (start + songStartOffset + i * 2) = some position := hposition
    rw [anyTimeShare, hentry]
    simp only [← hwalk]
    by_cases hlast : position = 0x1ff
    · rw [if_pos hlast]
      refine iff_of_false Bool.false_ne_true fun ⟨k, hle, _, hlisted, _⟩ => ?_
      exact hlisted i hle (hlast ▸ hposition)
    · have hlisted : Listed b start i := fun j hj => by
        rcases Nat.lt_or_eq_of_le hj with hlt | rfl
        · exact hbefore j hlt
        · rw [hposition]
          exact fun h => hlast (Option.some.inj h)
      rw [if_neg hlast]
      by_cases hon : (walkOf b start base i (jumpsBefore b start base i)).timeShare = true
      · rw [if_pos hon]
        exact iff_of_true rfl ⟨i, Nat.le_refl i, by omega, hlisted, hon⟩
      · rw [if_neg hon]
        have hrest := anyTimeShare_iff hread n (i + 1) (by omega) fun j hj =>
          hlisted j (Nat.lt_succ_iff.1 hj)
        refine hrest.trans ⟨?_, ?_⟩
        · rintro ⟨k, hle, hlt, h⟩
          exact ⟨k, by omega, by omega, h⟩
        · rintro ⟨k, hle, hlt, hk, hswitch⟩
          have hne : k ≠ i := fun h => hon (h ▸ hswitch)
          exact ⟨k, by omega, by omega, hk, hswitch⟩

/-! ## The kind for seven voices -/

/-- A tune is of the kind for seven voices if, and only if, the walk of one of
    its first 31 sub-songs switches the time share on, from the loop counter
    that the walks before it leave.  That is the counter of a new walk as long
    as no walk has come to a loop; and if each sub-song has that counter or
    comes to no loop itself, then each of them counts on its own. -/
theorem hasTimeShare_law (b : ByteArray) (start : Nat) :
    (hasTimeShare b start = true ↔ ∃ base, walkBase? b start = some base ∧
      ∃ i < 31, Listed b start i ∧ SwitchesOn b start base i (jumpsBefore b start base i)) ∧
    ∀ base, walkBase? b start = some base →
      (∀ i, (∀ j < i, Straight b start base j) → jumpsBefore b start base i = 0) ∧
      ((∀ i < 31, Listed b start i →
          jumpsBefore b start base i = 0 ∨ Straight b start base i) →
        (hasTimeShare b start = true ↔
          ∃ i < 31, Listed b start i ∧ SwitchesOn b start base i 0)) := by
  have hturns : ∀ base, walkBase? b start = some base → (hasTimeShare b start = true ↔
      ∃ i < 31, Listed b start i ∧ SwitchesOn b start base i (jumpsBefore b start base i)) := by
    intro base hbase
    have hread : ∀ j < 31, ∃ position, songStart? b start j = some position := fun j hj =>
      exists_songStart hbase hj
    obtain ⟨offset, hoffset, hplace⟩ := Option.map_eq_some_iff.1 hbase
    rw [hasTimeShare, hoffset]
    simp only [hplace]
    refine (anyTimeShare_iff hread 31 0 (Nat.le_refl 31) nofun).trans (exists_congr fun i => ?_)
    rw [and_iff_right (Nat.zero_le i), Nat.zero_add]
  refine ⟨⟨fun h => ?_, fun ⟨base, hbase, h⟩ => (hturns base hbase).2 h⟩, fun base hbase => ?_⟩
  · cases hoffset : u32? b (start + tableOffset) with
    | none =>
      rw [hasTimeShare, hoffset] at h
      exact absurd h Bool.false_ne_true
    | some offset =>
      have hbase := congrArg (Option.map fun offset : UInt32 =>
        start + if offset = 0 then 0x800 else offset.toNat) hoffset
      exact ⟨_, hbase, (hturns _ hbase).1 h⟩
  · refine ⟨jumpsBefore_eq_zero, fun hown => (hturns base hbase).trans ?_⟩
    refine exists_congr fun i => and_congr_right fun hi => and_congr_right fun hlisted => ?_
    rcases hown i hi hlisted with hzero | hstraight
    · rw [hzero]
    · exact switchesOn_of_straight hstraight _

/-! ## Loops in two sub-songs -/

/-- The head of a tune with some sub-songs and track steps.  The fields of a
    track step that are not given are zero. -/
def headOf (starts : List UInt16) (steps : List (List UInt16)) : ByteArray :=
  let zeros (n : Nat) : List UInt8 := List.replicate n 0
  let step (fields : List UInt16) := numberBytes (fields ++ List.replicate (8 - fields.length) 0)
  ⟨([0x54, 0x46, 0x4d, 0x58, 0x2d, 0x53, 0x4f, 0x4e, 0x47] ++ zeros 0xf7 ++
    numberBytes (starts ++ List.replicate (32 - starts.length) 0x1ff) ++ zeros 0x90 ++
    wordBytes [0x200] ++ zeros 0x2c ++ steps.flatMap step).toArray⟩

/-- A step that switches the time share on. -/
def shareStep : List UInt16 := [commandMark, 3]

/-- A sub-song that begins with a loop, and one that begins at step 2 with a
    loop to `target`, behind which come the two steps that are given. -/
def loopedHead (target : UInt16) (third fourth : List UInt16) : ByteArray :=
  headOf [0, 2] [[commandMark, 1], [0], [commandMark, 1, target], third, fourth]

/-- A sub-song that begins with a loop, and one that switches the time share on
    without a loop: the counter that is left to it does not matter. -/
theorem hasTimeShare_straight :
    jumpsBefore (headOf [0, 2] [[commandMark, 1], [0], shareStep, [0]]) 0 0x200 1 = -1 ∧
      hasTimeShare (headOf [0, 2] [[commandMark, 1], [0], shareStep, [0]]) 0 = true ∧
      ∃ i < 31, Listed (headOf [0, 2] [[commandMark, 1], [0], shareStep, [0]]) 0 i ∧
        SwitchesOn (headOf [0, 2] [[commandMark, 1], [0], shareStep, [0]]) 0 0x200 i 0 := by
  generalize hb : headOf [0, 2] [[commandMark, 1], [0], shareStep, [0]] = b
  obtain ⟨hbase, hleft, hstart, hend, hshare, hplays, hon⟩ : walkBase? b 0 = some 0x200 ∧
      jumpsBefore b 0 0x200 1 = -1 ∧ songStart? b 0 1 = some 2 ∧ songStart? b 0 2 = some 0x1ff ∧
      commandAt? b 0x200 2 = some 3 ∧ commandAt? b 0x200 3 = none ∧ hasTimeShare b 0 = true := by
    rw [← hb]
    decide +kernel
  have hown : ∀ i < 31, Listed b 0 i → jumpsBefore b 0 0x200 i = 0 ∨ Straight b 0 0x200 i := by
    intro i _ hlisted
    match i with
    | 0 => exact .inl rfl
    | 1 =>
      right
      rw [Straight, hstart]
      refine straightFor_of_end (k := 1) hplays fun m hm => ?_
      rw [Nat.lt_one_iff.1 hm]
      exact fun h => absurd (hshare.symm.trans h) (by decide)
    | i + 2 => exact absurd hend (hlisted 2 (Nat.le_add_left 2 i))
  exact ⟨hleft, hon, (((hasTimeShare_law b 0).2 0x200 hbase).2 hown).1 hon⟩

/-- With loops in two sub-songs the walk of the second one goes another way than
    it would on its own.  So it misses the time share, or comes to one that no
    sub-song switches on. -/
theorem hasTimeShare_misled :
    (walkBase? (loopedHead 1 shareStep [0]) 0 = some 0x200 ∧
      Listed (loopedHead 1 shareStep [0]) 0 1 ∧
      SwitchesOn (loopedHead 1 shareStep [0]) 0 0x200 1 0 ∧
      hasTimeShare (loopedHead 1 shareStep [0]) 0 = false) ∧
    (walkBase? (loopedHead 4 [0] shareStep) 0 = some 0x200 ∧
      (∀ i < 31, Listed (loopedHead 4 [0] shareStep) 0 i →
        ¬ SwitchesOn (loopedHead 4 [0] shareStep) 0 0x200 i 0) ∧
      hasTimeShare (loopedHead 4 [0] shareStep) 0 = true) := by
  have hmissed : songStart? (loopedHead 1 shareStep [0]) 0 0 = some 0 ∧
      songStart? (loopedHead 1 shareStep [0]) 0 1 = some 2 ∧
      (walkOf (loopedHead 1 shareStep [0]) 0 0x200 1 0).timeShare = true := by
    decide +kernel
  have hmistaken : songStart? (loopedHead 4 [0] shareStep) 0 2 = some 0x1ff ∧
      (walkOf (loopedHead 4 [0] shareStep) 0 0x200 0 0).timeShare = false ∧
      (walkOf (loopedHead 4 [0] shareStep) 0 0x200 1 0).timeShare = false := by
    decide +kernel
  refine ⟨⟨by decide +kernel, fun j hj => ?_, hmissed.2.2, by decide +kernel⟩,
    ⟨by decide +kernel, fun i _ hlisted => ?_, by decide +kernel⟩⟩
  · match j, hj with
    | 0, _ =>
      rw [hmissed.1]
      decide
    | 1, _ =>
      rw [hmissed.2.1]
      decide
  · rw [SwitchesOn, Bool.not_eq_true]
    match i with
    | 0 => exact hmistaken.2.1
    | 1 => exact hmistaken.2.2
    | i + 2 => exact absurd hmistaken.1 (hlisted 2 (Nat.le_add_left 2 i))

end PaulaReplay
