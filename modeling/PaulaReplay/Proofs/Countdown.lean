/-
  Countdown: a wait for a voice is over once, at the right end of a region.

  A voice is rendered again and again, with its registers changed in between.
  What the ends of its regions mean is left alone, so the count goes on from one
  rendering to the next.

  * `LoopMode.after`, `LoopMode.fires`: what so many ends of regions make of a
    count, and whether it runs out in them;
  * `Voice.entries`, `Voice.entered`: how often a voice goes into its next
    region;
  * `Voice.count_render`: a rendering counts just that often;
  * `Voice.Call`: a rendering among others, `Voice.firings` those that tell the
    macro to resume; `Voice.fires_once`: that is one of them, or none.
-/
import Mathlib.Tactic.SplitIfs
import PaulaReplay.Proofs.Rendering

namespace PaulaReplay

/-! ## Counts -/

namespace LoopMode

/-- What is left of a count as so many more regions have been entered. -/
def after : LoopMode → Nat → LoopMode
  | .normal, _ => .normal
  | .armOnCount n, k =>
    if k ≤ n.toNat then .armOnCount (UInt16.ofNat (n.toNat - k)) else .normal

/-- Whether a count runs out as so many more regions are entered. -/
def fires : LoopMode → Nat → Bool
  | .normal, _ => false
  | .armOnCount n, k => n.toNat < k

theorem after_zero (m : LoopMode) : m.after 0 = m := by
  cases m with
  | normal => rfl
  | armOnCount n => rw [after, if_pos (Nat.zero_le _), Nat.sub_zero, UInt16.ofNat_toNat]

theorem fires_zero (m : LoopMode) : m.fires 0 = false := by
  cases m with
  | normal => rfl
  | armOnCount n => exact decide_eq_false (Nat.not_lt_zero n.toNat)

/-- A count that has run out is gone. -/
theorem after_of_fires {m : LoopMode} {k : Nat} (h : m.fires k = true) : m.after k = .normal := by
  cases m with
  | normal => rfl
  | armOnCount n => exact if_neg (Nat.not_le.2 (of_decide_eq_true h))

theorem toNat_sub_count (n : UInt16) (k : Nat) :
    (UInt16.ofNat (n.toNat - k)).toNat = n.toNat - k :=
  UInt16.toNat_ofNat_of_lt (Nat.lt_of_le_of_lt (Nat.sub_le n.toNat k) n.toNat_lt)

theorem after_add (m : LoopMode) (j k : Nat) : m.after (j + k) = (m.after j).after k := by
  cases m with
  | normal => rfl
  | armOnCount n =>
    by_cases hj : j ≤ n.toNat
    · have hfirst : (armOnCount n).after j = .armOnCount (UInt16.ofNat (n.toNat - j)) := if_pos hj
      rw [hfirst, after, after, toNat_sub_count, Nat.sub_sub]
      split_ifs <;> first | rfl | omega
    · have hfirst : (armOnCount n).after j = .normal := if_neg hj
      rw [hfirst]
      exact if_neg (by omega)

theorem fires_add (m : LoopMode) (j k : Nat) :
    m.fires (j + k) = (m.fires j || (m.after j).fires k) := by
  cases m with
  | normal => rfl
  | armOnCount n =>
    by_cases hj : j ≤ n.toNat
    · have hfirst : (armOnCount n).after j = .armOnCount (UInt16.ofNat (n.toNat - j)) := if_pos hj
      rw [hfirst, fires, fires, fires, toNat_sub_count, decide_eq_false (Nat.not_lt.2 hj),
        Bool.false_or, decide_eq_decide]
      omega
    · have hfires : (armOnCount n).fires j = true := decide_eq_true (Nat.not_le.1 hj)
      rw [hfires, Bool.true_or]
      exact decide_eq_true (by omega)

end LoopMode

namespace Voice

variable {bank : Bank} {v w : Voice}

theorem count_eq_after (v : Voice) :
    v.count = ({ v with loopMode := v.loopMode.after 1 }, v.loopMode.fires 1) := by
  unfold count
  cases hmode : v.loopMode with
  | normal => simp only [LoopMode.after, LoopMode.fires, ← hmode]
  | armOnCount n =>
    by_cases hn : n = 0
    · subst hn
      rfl
    · have hpos : 1 ≤ n.toNat := by
        have hne : n.toNat ≠ 0 := fun h => hn (UInt16.toNat_inj.1 h)
        omega
      have hsub : UInt16.ofNat (n.toNat - 1) = n - 1 := by
        have hone : (1 : UInt16) ≤ n := UInt16.le_iff_toNat_le.2 hpos
        rw [← UInt16.toNat_inj, LoopMode.toNat_sub_count, UInt16.toNat_sub_of_le _ _ hone]
        rfl
      simp only [if_neg hn, LoopMode.after, LoopMode.fires, if_pos hpos, hsub,
        decide_eq_false (Nat.not_lt.2 hpos)]

/-! ## Regions -/

/-- How often a voice that plays goes into its next region in so many frames. -/
def entries : Nat → Voice → Nat
  | 0, _ => 0
  | n + 1, v =>
    let v := v.advance
    if v.phase < v.limit then entries n v
    else if v.enter.limit < leastLimit then 0
    else 1 + entries n v.enter

theorem entries_succ (n : Nat) (v : Voice) :
    entries (n + 1) v = if v.advance.phase < v.limit then entries n v.advance
      else if v.advance.enter.limit < leastLimit then 0
      else 1 + entries n v.advance.enter := rfl

/-- How often a voice goes into its next region as it is rendered. -/
def entered (bank : Bank) (n : Nat) (v : Voice) : Nat :=
  if v.audible bank then entries n v.latch else 0

/-- Where a voice goes does not depend on what the ends of its regions mean. -/
theorem entries_withLoopMode (mode : LoopMode) : ∀ (n : Nat) (v : Voice),
    entries n { v with loopMode := mode } = entries n v
  | 0, _ => rfl
  | n + 1, v => by
    have hnext := entries_withLoopMode mode n v.advance
    have henter := entries_withLoopMode mode n v.advance.enter
    rw [entries_succ, entries_succ]
    exact ite_congr rfl (fun _ => hnext) fun _ =>
      ite_congr rfl (fun _ => rfl) fun _ => congrArg (1 + ·) henter

theorem latch_withLoopMode (mode : LoopMode) (v : Voice) :
    ({ v with loopMode := mode } : Voice).latch = { v.latch with loopMode := mode } := by
  unfold latch
  split <;> rfl

theorem entered_withLoopMode (mode : LoopMode) (bank : Bank) (n : Nat) (v : Voice) :
    ({ v with loopMode := mode } : Voice).entered bank n = v.entered bank n := by
  unfold entered
  rw [latch_withLoopMode, entries_withLoopMode]
  rfl

/-! ## Renderings -/

/-- The frames of a voice count the regions that it goes into. -/
theorem count_play (bank : Bank) : ∀ (n : Nat) (r : Rendering),
    (play bank n r).voice.loopMode = r.voice.loopMode.after (entries n r.voice) ∧
      (play bank n r).fired = (r.fired || r.voice.loopMode.fires (entries n r.voice))
  | 0, r => by
    rw [entries, LoopMode.after_zero, LoopMode.fires_zero, Bool.or_false]
    exact ⟨rfl, rfl⟩
  | n + 1, ⟨v, frames, fired⟩ => by
    rw [play, frame, entries]
    rcases v.advance.settle_cases with ⟨hphase, hs⟩ | ⟨hphase, hlimit, hs⟩ | ⟨hphase, hlimit, hs⟩
    · simp only [hs, if_pos hphase]
      rw [Bool.or_false]
      exact count_play bank n ⟨v.advance, frames.push _, fired⟩
    -- the voice has left its region, but into no other one
    · simp only [hs, if_neg hphase, if_pos hlimit]
      rw [LoopMode.after_zero, LoopMode.fires_zero, Bool.or_false]
      exact ⟨rfl, rfl⟩
    · rw [count_eq_after] at hs
      simp only [hs, if_neg hphase, if_neg (UInt32.not_lt.2 hlimit)]
      obtain ⟨hplay, hfired⟩ := count_play bank n
        ⟨{ v.advance.enter with loopMode := v.loopMode.after 1 }, frames.push _,
          fired || v.loopMode.fires 1⟩
      rw [entries_withLoopMode] at hplay hfired
      rw [LoopMode.after_add, LoopMode.fires_add, ← Bool.or_assoc]
      exact ⟨hplay, hfired⟩

/-- Switching a voice off or on is no end of a region. -/
theorem loopMode_release (v : Voice) : v.release.loopMode = v.loopMode := by
  unfold release
  split <;> rfl

theorem loopMode_latch (v : Voice) : v.latch.loopMode = v.loopMode := by
  unfold latch
  split <;> rfl

/-- A rendering counts the regions that the voice goes into. -/
theorem count_render (bank : Bank) (n : Nat) (v : Voice) :
    (v.render bank n).voice.loopMode = v.loopMode.after (v.entered bank n) ∧
      (v.render bank n).fired = v.loopMode.fires (v.entered bank n) := by
  unfold render entered
  split
  · obtain ⟨hmode, hfired⟩ := count_play bank n ⟨v.latch, Array.emptyWithCapacity n, false⟩
    rw [loopMode_latch] at hmode hfired
    rw [Bool.false_or] at hfired
    exact ⟨(loopMode_release _).trans hmode, hfired⟩
  · rw [LoopMode.after_zero, LoopMode.fires_zero]
    exact ⟨rfl, rfl⟩

/-! ## Renderings in a row -/

/-- A rendering among others: the registers that the voice has by then, but for
    what the ends of its regions mean, and how many frames of which bank. -/
structure Call where
  bank : Bank
  registers : Voice
  frames : Nat

/-- What comes of a rendering, as the ones before it have left the count. -/
def Call.rendering (c : Call) (mode : LoopMode) : Rendering :=
  ({ c.registers with loopMode := mode } : Voice).render c.bank c.frames

/-- How often the voice goes into its next region in a rendering. -/
def Call.entered (c : Call) : Nat := c.registers.entered c.bank c.frames

/-- How often the voice goes into its next region in some renderings. -/
def enteredIn : List Call → Nat
  | [] => 0
  | c :: calls => c.entered + enteredIn calls

/-- What some renderings leave of the count. -/
def modeAfter : LoopMode → List Call → LoopMode
  | mode, [] => mode
  | mode, c :: calls => modeAfter (c.rendering mode).voice.loopMode calls

/-- Which of some renderings tell the macro to resume. -/
def firings : LoopMode → List Call → List Bool
  | _, [] => []
  | mode, c :: calls =>
    (c.rendering mode).fired :: firings (c.rendering mode).voice.loopMode calls

theorem Call.count_rendering (c : Call) (mode : LoopMode) :
    (c.rendering mode).voice.loopMode = mode.after c.entered ∧
      (c.rendering mode).fired = mode.fires c.entered := by
  have h := count_render c.bank c.frames { c.registers with loopMode := mode }
  rw [entered_withLoopMode] at h
  exact h

theorem modeAfter_eq : ∀ (calls : List Call) (mode : LoopMode),
    modeAfter mode calls = mode.after (enteredIn calls)
  | [], mode => mode.after_zero.symm
  | c :: calls, mode => by
    rw [modeAfter, (c.count_rendering mode).1, modeAfter_eq calls, ← LoopMode.after_add]
    rfl

/-- A rendering fires if the count has not run out before it, and runs out in
    it. -/
theorem firings_eq : ∀ (calls : List Call) (mode : LoopMode),
    firings mode calls = (List.range calls.length).map fun i =>
      !mode.fires (enteredIn (calls.take i)) && mode.fires (enteredIn (calls.take (i + 1)))
  | [], _ => rfl
  | c :: calls, mode => by
    obtain ⟨hmode, hfired⟩ := c.count_rendering mode
    rw [firings, hfired, hmode, firings_eq calls, List.length_cons, List.range_succ_eq_map,
      List.map_cons, List.map_map]
    congr 1
    · show mode.fires c.entered = (!mode.fires 0 && mode.fires (c.entered + 0))
      rw [LoopMode.fires_zero, Nat.add_zero, Bool.not_false, Bool.true_and]
    · refine List.map_congr_left fun i _ => ?_
      show _ = (!mode.fires (c.entered + enteredIn (calls.take i)) &&
        mode.fires (c.entered + enteredIn (calls.take (i + 1))))
      rw [LoopMode.fires_add, LoopMode.fires_add]
      cases hover : mode.fires c.entered with
      | false => rw [Bool.false_or, Bool.false_or]
      | true =>
        rw [LoopMode.after_of_fires hover]
        rfl

theorem count_firings : ∀ (calls : List Call) (mode : LoopMode),
    (firings mode calls).count true = if mode.fires (enteredIn calls) then 1 else 0
  | [], mode => by
    show 0 = if mode.fires 0 then 1 else 0
    rw [LoopMode.fires_zero]
    rfl
  | c :: calls, mode => by
    obtain ⟨hmode, hfired⟩ := c.count_rendering mode
    have hsum : enteredIn (c :: calls) = c.entered + enteredIn calls := rfl
    rw [firings, List.count_cons, hmode, hfired, count_firings calls, hsum, LoopMode.fires_add]
    cases hover : mode.fires c.entered with
    | false => rfl
    | true =>
      rw [LoopMode.after_of_fires hover]
      rfl

/-- However a voice is rendered, and whatever becomes of its other registers in
    between: a count that was set to `n` has lost one for each region entered
    and is gone with the one after; and just the rendering in which that one is
    entered tells the macro to resume. -/
theorem fires_once (n : UInt16) (calls : List Call) :
    modeAfter (.armOnCount n) calls = (if enteredIn calls ≤ n.toNat then
      .armOnCount (UInt16.ofNat (n.toNat - enteredIn calls)) else .normal) ∧
    firings (.armOnCount n) calls = (List.range calls.length).map (fun i =>
      decide (enteredIn (calls.take i) < n.toNat + 1 ∧
        n.toNat + 1 ≤ enteredIn (calls.take (i + 1)))) ∧
    (firings (.armOnCount n) calls).count true = if n.toNat + 1 ≤ enteredIn calls then 1 else 0 := by
  refine ⟨modeAfter_eq calls _, ?_, ?_⟩
  · rw [firings_eq]
    refine List.map_congr_left fun i _ => ?_
    rw [Bool.decide_and, LoopMode.fires, LoopMode.fires, ← decide_not]
    simp only [Nat.not_lt, Nat.lt_succ_iff, Nat.succ_le_iff]
  · rw [count_firings, LoopMode.fires]
    simp only [decide_eq_true_eq]
    rfl

/-- A voice that is switched on again and again: its second region ends in the
    third of four renderings, and that counts no more in the fourth. -/
example : firings (.armOnCount 1)
    [⟨ramp, looping, 6⟩, ⟨ramp, looping, 3⟩, ⟨ramp, looping, 6⟩, ⟨ramp, looping, 6⟩] =
      [false, false, true, false] := by decide +kernel

end Voice

end PaulaReplay
