/-
  Approach: numbers that are brought to a goal.

  A fade, an envelope and a slide bring a number to a goal in the same way: a timer counts
  down from step to step, and each time it is over the number goes some way towards the
  goal.

  * `Nears`: from one number to another is towards the goal, and not past it;
  * `ArrivesBy`: numbers that stay between a start and a goal, never turn back, and are at
    the goal after so many steps;
  * `stepsLeft`: how many steps are left at most, from the timer and the way that is left;
    `stepsLeft_count` and `stepsLeft_move` say that each step takes one off;
  * `arrivesBy_of_left`: so numbers arrive where each step takes one off what is left.
-/
import Mathlib.Logic.Function.Iterate

namespace PaulaReplay

variable {goal x y z : Int}

/-! ## The way to a goal -/

/-- From `x` to `y` is towards the goal, and not past it. -/
def Nears (goal x y : Int) : Prop := x ≤ y ∧ y ≤ goal ∨ goal ≤ y ∧ y ≤ x

instance (goal x y : Int) : Decidable (Nears goal x y) := inferInstanceAs (Decidable (_ ∨ _))

theorem Nears.refl (goal x : Int) : Nears goal x x := by
  rcases Int.le_total x goal with h | h
  · exact .inl ⟨Int.le_refl x, h⟩
  · exact .inr ⟨h, Int.le_refl x⟩

theorem nears_goal (goal x : Int) : Nears goal x goal := by
  rcases Int.le_total x goal with h | h
  · exact .inl ⟨h, Int.le_refl goal⟩
  · exact .inr ⟨Int.le_refl goal, h⟩

theorem Nears.trans (hxy : Nears goal x y) (hyz : Nears goal y z) : Nears goal x z := by
  unfold Nears at *
  omega

/-- Nothing but the goal itself is between it and the goal. -/
theorem Nears.eq_goal (h : Nears goal goal y) : y = goal := by
  unfold Nears at h
  omega

/-- Numbers that stay between a start and a goal, never move away from the goal, and are
    there from the step `n` on. -/
structure ArrivesBy (n : Nat) (start goal : Int) (v : Nat → Int) : Prop where
  between : ∀ k, Nears goal start (v k)
  nears : ∀ j k, j ≤ k → Nears goal (v j) (v k)
  there : ∀ k, n ≤ k → v k = goal

/-- From further off they arrive as well, and a later bound is one too. -/
theorem ArrivesBy.of_le {m n : Nat} {v : Nat → Int} (h : ArrivesBy n x goal v)
    (hx : Nears goal y x) (hn : n ≤ m) : ArrivesBy m y goal v :=
  ⟨fun k => hx.trans (h.between k), h.nears, fun k hk => h.there k (Nat.le_trans hn hk)⟩

/-- They arrive, sooner or later. -/
def Arrives (start goal : Int) (v : Nat → Int) : Prop := ∃ n, ArrivesBy n start goal v

/-- It is enough to look at each step, and at the last one. -/
theorem arrivesBy_of_steps {n : Nat} {v : Nat → Int} {start : Int} (hstart : Nears goal start (v 0))
    (hstep : ∀ k, Nears goal (v k) (v (k + 1))) (hlast : v n = goal) :
    ArrivesBy n start goal v := by
  have hnears : ∀ j k, j ≤ k → Nears goal (v j) (v k) := by
    intro j k hjk
    obtain ⟨d, rfl⟩ := Nat.exists_eq_add_of_le hjk
    clear hjk
    induction d with
    | zero => exact .refl goal (v j)
    | succ d ih => exact ih.trans (hstep (j + d))
  refine ⟨fun k => hstart.trans (hnears 0 k k.zero_le), hnears, fun k hk => ?_⟩
  exact Nears.eq_goal (hlast ▸ hnears n k hk)

/-! ## Steps and timers -/

/-- One step more. -/
theorem natCast_succ_mul (k : Nat) (step : Int) :
    ((k + 1 : Nat) : Int) * step = k * step + step := by
  rw [Int.natCast_succ, Int.add_mul, Int.one_mul]

/-- A bound on the steps that are left where a timer of `time` steps moves a number that is
    `way` off its goal, and then does so every `reset` steps: each time the number comes at
    least one nearer. -/
def stepsLeft (time reset way : Nat) : Nat := if way = 0 then 0 else time + (way - 1) * reset

theorem stepsLeft_zero (time reset : Nat) : stepsLeft time reset 0 = 0 := rfl

theorem stepsLeft_eq_zero_iff {time reset way : Nat} (ht : 0 < time) :
    stepsLeft time reset way = 0 ↔ way = 0 := by
  unfold stepsLeft
  split <;> omega

/-- At its start a timer stands at the steps between two moves. -/
theorem stepsLeft_self (reset way : Nat) : stepsLeft reset reset way = reset * way := by
  unfold stepsLeft
  cases way with
  | zero => rfl
  | succ way =>
    rw [if_neg (Nat.succ_ne_zero way), Nat.add_sub_cancel, Nat.mul_succ, Nat.mul_comm, Nat.add_comm]

/-- A timer that is not over counts down. -/
theorem toNat_sub_one_add_one {b : UInt8} (h : b ≠ 0) : (b - 1).toNat + 1 = b.toNat := by
  have hpos : 0 < b.toNat := Nat.pos_of_ne_zero fun h0 => h (UInt8.toNat_inj.1 h0)
  have hle : 1 ≤ b := UInt8.le_iff_toNat_le.2 hpos
  rw [UInt8.toNat_sub_of_le b 1 hle]
  exact Nat.sub_add_cancel hpos

/-- The timer counts. -/
theorem stepsLeft_count (time reset way : Nat) :
    stepsLeft time reset way ≤ stepsLeft (time + 1) reset way - 1 := by
  unfold stepsLeft
  split <;> omega

/-- The timer is over, and the number moves. -/
theorem stepsLeft_move (reset : Nat) {way way' : Nat} (h : way' < way) :
    stepsLeft reset reset way' ≤ stepsLeft 1 reset way - 1 := by
  have hmul : reset * way' ≤ reset * (way - 1) := Nat.mul_le_mul_left reset (by omega)
  rw [stepsLeft_self, stepsLeft, if_neg (by omega), Nat.mul_comm (way - 1)]
  omega

/-! ## Runs -/

variable {α : Type} {f : α → α} {I : α → Prop} {left : α → Nat}

/-- What each step keeps, some steps keep. -/
theorem iterate_keeps (hkeep : ∀ a, I a → I (f a)) : ∀ (n : Nat) {a : α}, I a → I (f^[n] a)
  | 0, _, ha => ha
  | n + 1, _, ha => iterate_keeps hkeep n (hkeep _ ha)

/-- What each step hands on from one place of a cycle to the next, some steps hand on. -/
theorem iterate_cycle {period : Nat} {J : Nat → α → Prop}
    (hstep : ∀ k a, k < period → J k a → J ((k + 1) % period) (f a)) {k : Nat} (hk : k < period)
    {a : α} (ha : J k a) (n : Nat) : J ((k + n) % period) (f^[n] a) := by
  induction n with
  | zero =>
    rw [Nat.add_zero, Nat.mod_eq_of_lt hk]
    exact ha
  | succ n ih =>
    have hnext := hstep _ _ (Nat.mod_lt _ (Nat.zero_lt_of_lt hk)) ih
    rw [Nat.mod_add_mod, Nat.add_assoc] at hnext
    rw [Function.iterate_succ_apply']
    exact hnext

/-- Where each step takes one off what is left, some steps take off as many. -/
theorem left_iterate_le (hkeep : ∀ a, I a → I (f a)) (hleft : ∀ a, I a → left (f a) ≤ left a - 1) :
    ∀ (n : Nat) {a : α}, I a → left (f^[n] a) ≤ left a - n
  | 0, _, _ => Nat.le_refl _
  | n + 1, a, ha => by
    have hn := left_iterate_le hkeep hleft n (hkeep a ha)
    have h := hleft a ha
    rw [Function.iterate_succ_apply]
    omega

/-- A number that nears its goal in each step arrives when nothing is left. -/
theorem arrivesBy_of_left {v : α → Int} (hkeep : ∀ a, I a → I (f a))
    (hnears : ∀ a, I a → Nears goal (v a) (v (f a)))
    (hleft : ∀ a, I a → left (f a) ≤ left a - 1)
    (hdone : ∀ a, I a → left a = 0 → v a = goal) {a : α} (ha : I a) :
    ArrivesBy (left a) (v a) goal fun n => v (f^[n] a) := by
  refine arrivesBy_of_steps (.refl goal (v a)) (fun k => ?_) ?_
  · rw [Function.iterate_succ_apply']
    exact hnears _ (iterate_keeps hkeep k ha)
  · have h := left_iterate_le hkeep hleft (left a) ha
    exact hdone _ (iterate_keeps hkeep _ ha) (by omega)

end PaulaReplay
