/-
  Resampling: the step of a voice against the quotient that it stands for.

  A voice goes through its samples in steps of the chip clock over its period and the
  output rate.  The product of these two is reckoned in 32 bits.  They hold it for all
  periods at rates up to 65537, and at the accepted rates above that for the shorter ones
  only: a longer one has a step that is none at all or far too long.

  * `exactStep`: the quotient over whole numbers; `ProductFits`: 32 bits hold the product;
  * `toNat_playbackStep`: the step is the quotient by what 32 bits hold of the product;
  * `toNat_playbackStep_of_fits`, `exactStep_pos`, `exactStep_anti`: where the product
    fits, the step is exact, none is zero, and a longer period has no longer one;
  * `playbackStep_of_wraps`: where it does not fit, the step is not even near;
  * `playbackStep_exact_iff`: so a step is exact if and only if the product fits.
-/
import Mathlib.Algebra.Group.Nat.Defs
import PaulaReplay.Player

namespace PaulaReplay

/-- The chip clock over a period and an output rate, as a step counts it. -/
def exactStep (period rate : Nat) : Nat := 3579545 * 512 / (period * rate / 32)

/-- 32 bits hold the product of a period and an output rate. -/
def ProductFits (period : UInt16) (rate : UInt32) : Prop :=
  period.toNat * rate.toNat < 2 ^ 32

variable {period shorter : UInt16} {rate : UInt32}

theorem one_le_toNat (h : period ≠ 0) : 1 ≤ period.toNat :=
  Nat.one_le_iff_ne_zero.2 fun h0 => h (UInt16.toNat_inj.1 h0)

/-- The step of a voice is the quotient by what 32 bits hold of the product.  Where that
    is none, so is the step: it is not divided by zero. -/
theorem toNat_playbackStep (period : UInt16) (rate : UInt32) :
    (playbackStep period rate).toNat =
      3579545 * 512 / (period.toNat * rate.toNat % 2 ^ 32 / 32) := by
  have hdivisor : ((period.toUInt32 * rate) >>> 5).toNat =
      period.toNat * rate.toNat % 2 ^ 32 / 32 := by
    rw [UInt32.toNat_shiftRight, UInt32.toNat_mul, UInt16.toNat_toUInt32]
    exact Nat.shiftRight_eq_div_pow _ 5
  rw [← hdivisor]
  unfold playbackStep
  split
  · next h =>
    rw [h, show (0 : UInt16).toUInt32 = 0 from rfl, UInt32.zero_mul]
    rfl
  · simp only
    split
    · next h => rw [h]; rfl
    · exact UInt32.toNat_div _ _

/-! ## Products that fit -/

theorem toNat_playbackStep_of_fits (h : ProductFits period rate) :
    (playbackStep period rate).toNat = exactStep period.toNat rate.toNat := by
  rw [toNat_playbackStep, Nat.mod_eq_of_lt h, exactStep]

/-- At an accepted rate no period is too short to divide by. -/
theorem divisor_pos (hperiod : period ≠ 0) (hlow : minRate ≤ rate) :
    0 < period.toNat * rate.toNat / 32 := by
  have hrate : 4000 ≤ rate.toNat := UInt32.le_iff_toNat_le.1 hlow
  have hproduct : 1 * 4000 ≤ period.toNat * rate.toNat :=
    Nat.mul_le_mul (one_le_toNat hperiod) hrate
  omega

/-- No divisor that comes of 32 bits is too large. -/
theorem exactStep_pos (hperiod : period ≠ 0) (hlow : minRate ≤ rate)
    (h : ProductFits period rate) : 0 < exactStep period.toNat rate.toNat := by
  have hfits : period.toNat * rate.toNat < 2 ^ 32 := h
  exact Nat.div_pos (by omega) (divisor_pos hperiod hlow)

/-- A longer period has no longer step. -/
theorem exactStep_anti (hshorter : shorter ≠ 0) (hle : shorter ≤ period)
    (hlow : minRate ≤ rate) :
    exactStep period.toNat rate.toNat ≤ exactStep shorter.toNat rate.toNat := by
  refine Nat.div_le_div_left (Nat.div_le_div_right ?_) (divisor_pos hshorter hlow)
  exact Nat.mul_le_mul_right _ (UInt16.le_iff_toNat_le.1 hle)

theorem ProductFits.of_le (h : ProductFits period rate) (hle : shorter ≤ period) :
    ProductFits shorter rate :=
  Nat.lt_of_le_of_lt (Nat.mul_le_mul_right _ (UInt16.le_iff_toNat_le.1 hle)) h

/-! ## Products that do not fit -/

/-- No product is as much as twice what 32 bits hold. -/
theorem product_le (period : UInt16) (hhigh : rate ≤ maxRate) :
    period.toNat * rate.toNat ≤ 65535 * 96000 :=
  Nat.mul_le_mul (Nat.le_of_lt_succ period.toNat_lt) (UInt32.le_iff_toNat_le.1 hhigh)

theorem exactStep_of_wraps (hhigh : rate ≤ maxRate) (h : ¬ ProductFits period rate) :
    9 ≤ exactStep period.toNat rate.toNat ∧ exactStep period.toNat rate.toNat ≤ 13 := by
  have hwraps : 2 ^ 32 ≤ period.toNat * rate.toNat := Nat.not_lt.1 h
  have hmost := product_le period hhigh
  constructor
  · calc 9 = 3579545 * 512 / (65535 * 96000 / 32) := by decide
      _ ≤ exactStep period.toNat rate.toNat :=
        Nat.div_le_div_left (Nat.div_le_div_right hmost) (by omega)
  · calc exactStep period.toNat rate.toNat ≤ 3579545 * 512 / (2 ^ 32 / 32) :=
        Nat.div_le_div_left (Nat.div_le_div_right hwraps) (by decide)
      _ = 13 := by decide

/-- What 32 bits hold of such a product is so little that the step is none at all, or more
    than twice the quotient. -/
theorem playbackStep_of_wraps (hhigh : rate ≤ maxRate) (h : ¬ ProductFits period rate) :
    playbackStep period rate = 0 ∨
      2 * exactStep period.toNat rate.toNat < (playbackStep period rate).toNat := by
  have hwraps : 2 ^ 32 ≤ period.toNat * rate.toNat := Nat.not_lt.1 h
  have hmost := product_le period hhigh
  have hexact := (exactStep_of_wraps hhigh h).2
  rcases Nat.eq_zero_or_pos (period.toNat * rate.toNat % 2 ^ 32 / 32) with hzero | hpos
  · left
    rw [← UInt32.toNat_inj, toNat_playbackStep, hzero]
    rfl
  · right
    have hleft : period.toNat * rate.toNat % 2 ^ 32 / 32 ≤ (65535 * 96000 - 2 ^ 32) / 32 := by
      omega
    calc 2 * exactStep period.toNat rate.toNat < 29 := by omega
      _ = 3579545 * 512 / ((65535 * 96000 - 2 ^ 32) / 32) := by decide
      _ ≤ 3579545 * 512 / (period.toNat * rate.toNat % 2 ^ 32 / 32) :=
        Nat.div_le_div_left hleft hpos
      _ = (playbackStep period rate).toNat := (toNat_playbackStep period rate).symm

theorem toNat_playbackStep_ne_of_wraps (hhigh : rate ≤ maxRate) (h : ¬ ProductFits period rate) :
    (playbackStep period rate).toNat ≠ exactStep period.toNat rate.toNat := by
  have hexact := (exactStep_of_wraps hhigh h).1
  rcases playbackStep_of_wraps hhigh h with hzero | hmore
  · rw [hzero, UInt32.toNat_zero]
    omega
  · omega

/-! ## All periods and accepted rates -/

/-- The products of all periods fit just at the rates up to 65537. -/
theorem forall_productFits_iff :
    (∀ period : UInt16, period ≠ 0 → ProductFits period rate) ↔ rate ≤ 65537 := by
  rw [UInt32.le_iff_toNat_le, show (65537 : UInt32).toNat = 65537 from rfl]
  constructor
  · intro h
    have hlongest : 65535 * rate.toNat < 2 ^ 32 := h 0xffff (by decide)
    omega
  · intro h period _
    calc period.toNat * rate.toNat ≤ 65535 * 65537 :=
        Nat.mul_le_mul (Nat.le_of_lt_succ period.toNat_lt) h
      _ < 2 ^ 32 := by decide

/-- At an accepted rate the step of a period is exact if and only if 32 bits hold the
    product of the two; then it is not zero, and no longer than that of any shorter period.
    Otherwise it is none at all, or more than twice as long as it should be.  So all steps
    are exact at the rates up to 65537, and at no accepted rate above. -/
theorem playbackStep_exact_iff (hlow : minRate ≤ rate) (hhigh : rate ≤ maxRate) :
    (∀ period : UInt16, period ≠ 0 →
      ((playbackStep period rate).toNat = exactStep period.toNat rate.toNat ↔
        ProductFits period rate)) ∧
    (∀ period : UInt16, period ≠ 0 → ProductFits period rate →
      playbackStep period rate ≠ 0 ∧ ∀ shorter : UInt16, shorter ≠ 0 → shorter ≤ period →
        playbackStep period rate ≤ playbackStep shorter rate) ∧
    (∀ period : UInt16, ¬ ProductFits period rate → playbackStep period rate = 0 ∨
      2 * exactStep period.toNat rate.toNat < (playbackStep period rate).toNat) ∧
    ((∀ period : UInt16, period ≠ 0 →
      (playbackStep period rate).toNat = exactStep period.toNat rate.toNat) ↔
        rate ≤ 65537) := by
  have hexact : ∀ period : UInt16,
      (playbackStep period rate).toNat = exactStep period.toNat rate.toNat ↔
        ProductFits period rate := by
    intro period
    by_cases h : ProductFits period rate
    · exact iff_of_true (toNat_playbackStep_of_fits h) h
    · exact iff_of_false (toNat_playbackStep_ne_of_wraps hhigh h) h
  refine ⟨fun period _ => hexact period, fun period hperiod hfits => ⟨fun hzero => ?_,
    fun shorter hshorter hle => ?_⟩, fun period => playbackStep_of_wraps hhigh, ?_⟩
  · have hpos := exactStep_pos hperiod hlow hfits
    rw [← toNat_playbackStep_of_fits hfits, hzero] at hpos
    exact absurd hpos (Nat.lt_irrefl 0)
  · rw [UInt32.le_iff_toNat_le, toNat_playbackStep_of_fits hfits,
      toNat_playbackStep_of_fits (hfits.of_le hle)]
    exact exactStep_anti hshorter hle hlow
  · simp only [hexact]
    exact forall_productFits_iff

/-- The longest period at the usual rate. -/
theorem playbackStep_exact_usual : minRate ≤ usualRate ∧ usualRate ≤ maxRate ∧
    ProductFits 0xffff usualRate ∧ playbackStep 0xffff usualRate = 20 ∧
      (playbackStep 0xffff usualRate).toNat = exactStep 0xffff 44100 ∧
      ∀ shorter : UInt16, shorter ≠ 0 → 20 ≤ playbackStep shorter usualRate := by
  have hlow : minRate ≤ usualRate := by decide
  have hhigh : usualRate ≤ maxRate := by decide
  have hfits : ProductFits 0xffff usualRate := by unfold ProductFits; decide
  obtain ⟨hiff, hanti, -, -⟩ := playbackStep_exact_iff hlow hhigh
  refine ⟨hlow, hhigh, hfits, by decide, (hiff 0xffff (by decide)).2 hfits, ?_⟩
  intro shorter hshorter
  refine (hanti 0xffff (by decide) hfits).2 shorter hshorter (UInt16.le_iff_toNat_le.2 ?_)
  exact Nat.le_of_lt_succ shorter.toNat_lt

/-- Two accepted rates at which the product does not fit: at the one a period has no step
    at all, at the other a longer period has a step that is sixty thousand times longer. -/
theorem playbackStep_wraps : minRate ≤ 85865 ∧ 85865 ≤ maxRate ∧
    playbackStep 50020 85865 = 0 ∧ exactStep 50020 85865 = 13 ∧
    playbackStep 44739 maxRate = 13 ∧ exactStep 44739 96000 = 13 ∧
    playbackStep 44740 maxRate = 806658 ∧ exactStep 44740 96000 = 13 := by
  decide

end PaulaReplay
