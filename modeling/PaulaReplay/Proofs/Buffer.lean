/-
  Buffers: how they are filled, said without running.

  * `Player.Fills`: the rules of the filling;
  * `fill_eq_ok_iff`: `Player.fill` follows the rules, and no others;
  * `Player.Intact`: what is left of the last tick is there;
  * `Player.Overruns`: a buffer asks for more of the last tick than there is,
    and `fill_of_overruns` says what becomes of it.
-/
import Mathlib.Tactic.Common
import PaulaReplay.Proofs.Steady

namespace PaulaReplay.Player

/-! ## Taking from the last tick -/

/-- What is left of the last tick is there. -/
structure Intact (p : Player) : Prop where
  consumed : p.consumed ≤ p.available
  available : p.available ≤ p.mix.stereo.size

/-- A buffer of `n` samples asks for more of the last tick than there is. -/
def Overruns (p : Player) (n : Nat) : Prop :=
  0 < n ∧ p.consumed < p.available ∧
    p.mix.stereo.size < p.consumed + min n (p.available - p.consumed)

theorem Intact.not_overruns {p : Player} (h : p.Intact) (n : Nat) : ¬ p.Overruns n := by
  rintro ⟨-, -, hlt⟩
  have := h.consumed
  have := h.available
  omega

/-- The sound of the last tick that is in no buffer yet. -/
def pending (p : Player) : Array Int16 := p.mix.stereo.extract p.consumed p.available

/-- The player with `n` more samples of the last tick taken, or the rest of
    it. -/
def skip (p : Player) (n : Nat) : Player :=
  { p with consumed := p.consumed + min n (p.available - p.consumed) }

theorem take_eq_ok_iff {p q : Player} {n : Nat} {samples : Array Int16} :
    p.take n = .ok (samples, q) ↔
      p.consumed ≤ p.available ∧
        p.consumed + min n (p.available - p.consumed) ≤ p.mix.stereo.size ∧
        samples = p.mix.stereo.extract p.consumed (p.consumed + min n (p.available - p.consumed)) ∧
        q = p.skip n := by
  unfold take
  simp only
  split
  · next h =>
    constructor
    · intro he
      simp only [Except.ok.injEq, Prod.mk.injEq] at he
      exact ⟨h.1, h.2, he.1.symm, he.2.symm⟩
    · rintro ⟨-, -, rfl, rfl⟩; rfl
  · next h =>
    constructor
    · intro he; cases he
    · rintro ⟨h₁, h₂, -⟩; exact absurd ⟨h₁, h₂⟩ h

theorem size_of_take {p q : Player} {n : Nat} {samples : Array Int16}
    (h : p.take n = .ok (samples, q)) : samples.size = min n (p.available - p.consumed) := by
  obtain ⟨-, hs, rfl, -⟩ := take_eq_ok_iff.1 h
  rw [Array.size_extract]
  omega

theorem take_of_overruns {p : Player} {n : Nat} (h : p.Overruns n) :
    p.take n = .error ⟨p.consumed + min n (p.available - p.consumed), p.mix.stereo.size⟩ :=
  if_neg fun hc => Nat.not_lt.2 hc.2 h.2.2

/-- Beyond the last tick it does not matter how much is asked for. -/
theorem take_eq_take {p : Player} {n m : Nat} (hn : p.available - p.consumed ≤ n)
    (hm : p.available - p.consumed ≤ m) : p.take n = p.take m := by
  unfold take
  rw [Nat.min_eq_right hn, Nat.min_eq_right hm]

/-- Taking twice within a tick is taking once. -/
theorem take_add {p q r : Player} {n m : Nat} {a b : Array Int16} (ha : p.take n = .ok (a, q))
    (hn : n ≤ p.available - p.consumed) (hb : q.take m = .ok (b, r)) :
    p.take (n + m) = .ok (a ++ b, r) := by
  obtain ⟨h₁, -, rfl, rfl⟩ := take_eq_ok_iff.1 ha
  obtain ⟨-, h₂, rfl, rfl⟩ := take_eq_ok_iff.1 hb
  have hstop : p.consumed + min (n + m) (p.available - p.consumed) =
      p.consumed + min n (p.available - p.consumed) +
        min m (p.available - (p.consumed + min n (p.available - p.consumed))) := by omega
  simp only [skip] at h₂
  refine take_eq_ok_iff.2 ⟨h₁, by rw [hstop]; exact h₂, ?_, ?_⟩
  · simp only [skip]
    rw [Array.extract_append_extract, hstop]
    congr 1 <;> omega
  · simp only [skip, hstop]

/-! ## Refilling -/

/-- The last buffer of a song is at its end, or the next tick is there to be
    taken. -/
theorem refill_cases (p : Player) (loops : Nat) :
    ((0 < loops ∧ loops ≤ p.tick.loopCount) ∧
      p.refill loops = ({ p.tick with isOver := true, consumed := 0, available := 0 }, false)) ∨
    (¬ (0 < loops ∧ loops ≤ p.tick.loopCount) ∧
      p.refill loops =
        ({ p.tick with consumed := 0, available := p.tick.mix.stereo.size }, true)) := by
  unfold refill
  simp only
  split
  · next h => exact Or.inl ⟨h, rfl⟩
  · next h => exact Or.inr ⟨h, rfl⟩

theorem refill_eq_false {p q : Player} {loops : Nat} (h : p.refill loops = (q, false)) :
    (0 < loops ∧ loops ≤ p.tick.loopCount) ∧
      q = { p.tick with isOver := true, consumed := 0, available := 0 } := by
  rcases refill_cases p loops with ⟨hl, he⟩ | ⟨-, he⟩
  · rw [he] at h; cases h; exact ⟨hl, rfl⟩
  · rw [he] at h; cases h

theorem refill_eq_true {p q : Player} {loops : Nat} (h : p.refill loops = (q, true)) :
    ¬ (0 < loops ∧ loops ≤ p.tick.loopCount) ∧
      q = { p.tick with consumed := 0, available := p.tick.mix.stereo.size } := by
  rcases refill_cases p loops with ⟨-, he⟩ | ⟨hl, he⟩
  · rw [he] at h; cases h
  · rw [he] at h; cases h; exact ⟨hl, rfl⟩

/-! ## The rules -/

/-- A buffer of `n` samples, filled by a player, and the player after it. -/
inductive Fills (loops : Nat) : Nat → Player → Array Int16 → Player → Prop where
  /-- The buffer is full. -/
  | full {p} : Fills loops 0 p #[] p
  /-- The song has ended often enough. -/
  | ended {n p q} : n ≠ 0 → p.consumed = p.available → p.refill loops = (q, false) →
      Fills loops n p (Array.replicate n 0) q
  /-- The last tick is used up. -/
  | refill {n p q out r} : n ≠ 0 → p.consumed = p.available → p.refill loops = (q, true) →
      Fills loops n q out r → Fills loops n p out r
  /-- Something is left of the last tick. -/
  | take {n p samples q out r} : n ≠ 0 → p.consumed ≠ p.available →
      p.take n = .ok (samples, q) → Fills loops (n - samples.size) q out r →
      Fills loops n p (samples ++ out) r

section
variable {loops n : Nat} {p q : Player} {out : Array Int16}

theorem Fills.fillFrom_eq (h : Fills loops n p out q) :
    ∀ acc : Array Int16, fillFrom loops n p acc = some (.ok (acc ++ out, q)) := by
  induction h with
  | full => intro acc; rw [fillFrom, if_pos rfl, Array.append_empty]
  | ended hn hc hr => intro acc; rw [fillFrom, if_neg hn, if_pos hc, hr]
  | refill hn hc hr _ ih => intro acc; rw [fillFrom, if_neg hn, if_pos hc, hr]; exact ih acc
  | take hn hc ht _ ih =>
    intro acc
    rw [fillFrom, if_neg hn, if_neg hc, ht]
    simp only
    rw [ih, Array.append_assoc]

theorem fills_of_fillFrom {acc : Array Int16} {r : Filled} (h : fillFrom loops n p acc = some r) :
    ∀ {o q}, r = .ok (o, q) → ∃ out, o = acc ++ out ∧ Fills loops n p out q := by
  refine fillFrom.partial_correctness loops (fun n p acc r => ∀ {o q}, r = .ok (o, q) →
    ∃ out, o = acc ++ out ∧ Fills loops n p out q) ?_ n p acc r h
  intro f ih n p acc r hr o q ho
  subst ho
  split at hr
  · next hn =>
    subst hn
    cases hr
    exact ⟨#[], Array.append_empty.symm, .full⟩
  · next hn =>
    split at hr
    · next hc =>
      split at hr
      · next q' he =>
        obtain ⟨out, ho, hf⟩ := ih _ _ _ _ hr rfl
        exact ⟨out, ho, .refill hn hc he hf⟩
      · next q' he => cases hr; exact ⟨_, rfl, .ended hn hc he⟩
    · next hc =>
      split at hr
      · next samples q' he =>
        obtain ⟨out, ho, hf⟩ := ih _ _ _ _ hr rfl
        exact ⟨samples ++ out, by rw [ho, Array.append_assoc], .take hn hc he hf⟩
      · next e he => cases hr

/-- The filling follows the rules, and no others. -/
theorem fill_eq_ok_iff : p.fill n loops = some (.ok (out, q)) ↔ Fills loops n p out q := by
  constructor
  · intro h
    obtain ⟨out', ho, hf⟩ := fills_of_fillFrom h rfl
    rw [Array.emptyWithCapacity_eq, Array.empty_append] at ho
    rwa [ho]
  · intro h
    rw [fill, h.fillFrom_eq, Array.emptyWithCapacity_eq, Array.empty_append]

theorem fill_of_overruns (h : p.Overruns n) : p.fill n loops =
    some (.error ⟨p.consumed + min n (p.available - p.consumed), p.mix.stereo.size⟩) := by
  rw [fill, fillFrom, if_neg h.1.ne', if_neg h.2.1.ne, take_of_overruns h]

end

end PaulaReplay.Player
