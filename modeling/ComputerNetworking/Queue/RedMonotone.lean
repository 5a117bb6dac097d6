import ComputerNetworking.Queue.RedDefault
import ComputerNetworking.Queue.RedPole

/-!
# When the modified drop function does not fall

`temp_p` is a quotient of two cubics in the average. Up to `k2` it rises, and it jumps
upwards where `max_p` is adjusted. Above `k2` the raised `max_p` may pass `th_min`, and
then `temp_p` may fall; and the count correction has a pole where `count * temp_p` is 1.
The function never falls exactly when the correction stays below its pole above `k2` and
`temp_p` either does not start to fall there or is so large that the result is 1
throughout (`modified_neverFalls_iff`).
-/

set_option autoImplicit false

namespace ComputerNetworking.Queue

open Filter Topology

/-! ## A quotient of cubics -/

/-- Sign of the change of `temp_p` from an average `v` to an average `w`. -/
def climb (thMin maxP bufferSize v w : ℚ) : ℚ :=
  (1 - maxP) * (bufferSize - thMin) ^ 3 *
      ((w - thMin) ^ 2 + (w - thMin) * (v - thMin) + (v - thMin) ^ 2) +
    maxP * (thMin - maxP) *
      (((w - thMin) * (v - maxP)) ^ 2 +
        (w - thMin) * (v - maxP) * ((v - thMin) * (w - maxP)) +
        ((v - thMin) * (w - maxP)) ^ 2)

/-- Slope of `temp_p` at an average, up to a positive factor. -/
def slope (thMin maxP bufferSize v : ℚ) : ℚ :=
  (1 - maxP) * (bufferSize - thMin) ^ 3 + maxP * (thMin - maxP) * (v - maxP) ^ 2

theorem climb_self (thMin maxP bufferSize v : ℚ) :
    climb thMin maxP bufferSize v v = 3 * (v - thMin) ^ 2 * slope thMin maxP bufferSize v := by
  rw [climb, slope]
  ring

/-- The two products that decide between the quotients at two averages. -/
theorem cross_eq (thMin maxP bufferSize v w : ℚ) :
    cubicBlend v thMin maxP bufferSize * cubicRise w thMin maxP -
        cubicBlend w thMin maxP bufferSize * cubicRise v thMin maxP =
      maxP * (w - v) * climb thMin maxP bufferSize v w := by
  simp only [cubicBlend, cubicRise, climb]
  ring

/-- A quadratic form that grows with its arguments. -/
theorem quadratic_le {a b p q : ℚ} (ha : |a| ≤ p) (hb : |b| ≤ q) :
    a ^ 2 + a * b + b ^ 2 ≤ p ^ 2 + p * q + q ^ 2 := by
  have hp : 0 ≤ p := (abs_nonneg a).trans ha
  have haa : a ^ 2 ≤ p ^ 2 := sq_le_sq' (by linarith [neg_abs_le a]) ((le_abs_self a).trans ha)
  have hbb : b ^ 2 ≤ q ^ 2 := sq_le_sq' (by linarith [neg_abs_le b]) ((le_abs_self b).trans hb)
  have hab : a * b ≤ p * q := by
    calc
      a * b ≤ |a * b| := le_abs_self _
      _ = |a| * |b| := abs_mul a b
      _ ≤ p * q := mul_le_mul ha hb (abs_nonneg b) hp
  linarith

section Climb

variable {thMin maxP bufferSize z v w : ℚ} (hmax : 0 < maxP) (hz : thMin ≤ z) (hzv : z ≤ v)
  (hvw : v ≤ w)

include hmax hz hzv hvw

/-- With `max_p` at most `th_min` a slope that is not negative stays so. -/
theorem climb_nonneg_of_le (hle : maxP ≤ thMin) (hslope : 0 ≤ slope thMin maxP bufferSize z) :
    0 ≤ climb thMin maxP bufferSize v w := by
  have hx : 0 ≤ v - thMin := by linarith
  have hy : 0 ≤ w - thMin := by linarith
  have he : 0 ≤ z - maxP := by linarith
  have hgrow : ((w - thMin) * (z - maxP)) ^ 2 +
        (w - thMin) * (z - maxP) * ((v - thMin) * (z - maxP)) +
        ((v - thMin) * (z - maxP)) ^ 2 ≤
      ((w - thMin) * (v - maxP)) ^ 2 +
        (w - thMin) * (v - maxP) * ((v - thMin) * (w - maxP)) +
        ((v - thMin) * (w - maxP)) ^ 2 := by
    apply quadratic_le
    · rw [abs_of_nonneg (mul_nonneg hy he)]
      exact mul_le_mul_of_nonneg_left (by linarith) hy
    · rw [abs_of_nonneg (mul_nonneg hx he)]
      exact mul_le_mul_of_nonneg_left (by linarith) hx
  have hfactor := mul_le_mul_of_nonneg_left hgrow (mul_nonneg hmax.le (sub_nonneg.2 hle))
  have hsum : 0 ≤ ((w - thMin) ^ 2 + (w - thMin) * (v - thMin) + (v - thMin) ^ 2) *
      slope thMin maxP bufferSize z := mul_nonneg (by positivity) hslope
  rw [slope] at hsum
  rw [climb]
  linarith

/-- Below a `max_p` above `th_min` it does, too. -/
theorem climb_nonneg_of_below (hlt : thMin < maxP) (hw : w ≤ maxP)
    (hslope : 0 ≤ slope thMin maxP bufferSize z) : 0 ≤ climb thMin maxP bufferSize v w := by
  have hx : 0 ≤ v - thMin := by linarith
  have hy : 0 ≤ w - thMin := by linarith
  have hshrink : ((w - thMin) * (v - maxP)) ^ 2 +
        (w - thMin) * (v - maxP) * ((v - thMin) * (w - maxP)) +
        ((v - thMin) * (w - maxP)) ^ 2 ≤
      ((w - thMin) * (maxP - z)) ^ 2 +
        (w - thMin) * (maxP - z) * ((v - thMin) * (maxP - z)) +
        ((v - thMin) * (maxP - z)) ^ 2 := by
    apply quadratic_le
    · rw [abs_mul, abs_of_nonneg hy, abs_of_nonpos (by linarith)]
      exact mul_le_mul_of_nonneg_left (by linarith) hy
    · rw [abs_mul, abs_of_nonneg hx, abs_of_nonpos (by linarith)]
      exact mul_le_mul_of_nonneg_left (by linarith) hx
  have hfactor := mul_le_mul_of_nonneg_left hshrink (mul_nonneg hmax.le (sub_nonneg.2 hlt.le))
  have hsum : 0 ≤ ((w - thMin) ^ 2 + (w - thMin) * (v - thMin) + (v - thMin) ^ 2) *
      slope thMin maxP bufferSize z := mul_nonneg (by positivity) hslope
  rw [slope] at hsum
  rw [climb]
  linarith

omit hz hzv in
/-- Above it `temp_p` climbs to every value below 1. -/
theorem climb_nonneg_of_lt_one (hlt : thMin < maxP) (hv : thMin ≤ v) (hw : maxP ≤ w)
    (hhalf : maxP - thMin ≤ 2 * (v - thMin))
    (hone : cubicRise w thMin maxP ≤ cubicBlend w thMin maxP bufferSize) :
    0 ≤ climb thMin maxP bufferSize v w := by
  have hx : 0 ≤ v - thMin := by linarith
  have hy : 0 ≤ w - thMin := by linarith
  -- the constant term outweighs the square at `w`
  have hbig : maxP * (maxP - thMin) * (w - thMin) ^ 2 ≤ (1 - maxP) * (bufferSize - thMin) ^ 3 := by
    rw [cubicRise, cubicBlend] at hone
    have hcube : maxP * (w - thMin) ^ 3 - maxP * (w - maxP) ^ 3 =
        maxP * (maxP - thMin) * (w - thMin) ^ 2 +
          maxP * (maxP - thMin) * ((w - thMin) * (w - maxP) + (w - maxP) ^ 2) := by
      ring
    have hrest : 0 ≤ maxP * (maxP - thMin) * ((w - thMin) * (w - maxP) + (w - maxP) ^ 2) := by
      have hd : 0 ≤ maxP - thMin := by linarith
      have hd' : 0 ≤ w - maxP := by linarith
      positivity
    linarith
  have hshrink : ((w - thMin) * (v - maxP)) ^ 2 +
        (w - thMin) * (v - maxP) * ((v - thMin) * (w - maxP)) +
        ((v - thMin) * (w - maxP)) ^ 2 ≤
      ((w - thMin) * (v - thMin)) ^ 2 +
        (w - thMin) * (v - thMin) * ((v - thMin) * (w - thMin)) +
        ((v - thMin) * (w - thMin)) ^ 2 := by
    apply quadratic_le
    · rw [abs_mul, abs_of_nonneg hy]
      apply mul_le_mul_of_nonneg_left _ hy
      rw [abs_le]
      constructor <;> linarith
    · rw [abs_mul, abs_of_nonneg hx, abs_of_nonneg (by linarith)]
      exact mul_le_mul_of_nonneg_left (by linarith) hx
  have hd : 0 ≤ maxP * (maxP - thMin) := mul_nonneg hmax.le (by linarith)
  have hfactor := mul_le_mul_of_nonneg_left hshrink hd
  have hforms : 3 * (v - thMin) ^ 2 ≤
      (w - thMin) ^ 2 + (w - thMin) * (v - thMin) + (v - thMin) ^ 2 := by
    nlinarith
  have hlarge : maxP * (maxP - thMin) * (w - thMin) ^ 2 * (3 * (v - thMin) ^ 2) ≤
      (1 - maxP) * (bufferSize - thMin) ^ 3 *
        ((w - thMin) ^ 2 + (w - thMin) * (v - thMin) + (v - thMin) ^ 2) := by
    apply mul_le_mul hbig hforms (by positivity)
    exact (mul_nonneg hd (sq_nonneg _)).trans hbig
  rw [climb]
  linarith

end Climb

/-! ## The rise of `temp_p` -/

section Rise

variable {thMin maxP bufferSize v w : ℚ}

theorem tempP_nonneg (hmax : 0 ≤ maxP) (hv : thMin ≤ v)
    (hblend : 0 < cubicBlend v thMin maxP bufferSize) : 0 ≤ tempP v thMin maxP bufferSize := by
  have hx : 0 ≤ v - thMin := by linarith
  rw [tempP, cubicRise]
  positivity

/-- The quotients are ordered as `climb` says. -/
theorem tempP_le_of_climb (hmax : 0 < maxP) (hvw : v ≤ w)
    (hv : 0 < cubicBlend v thMin maxP bufferSize) (hw : 0 < cubicBlend w thMin maxP bufferSize)
    (hclimb : 0 ≤ climb thMin maxP bufferSize v w) :
    tempP v thMin maxP bufferSize ≤ tempP w thMin maxP bufferSize := by
  rw [tempP, tempP, div_le_div_iff₀ hv hw]
  have hcross := cross_eq thMin maxP bufferSize v w
  have hsign : 0 ≤ maxP * (w - v) * climb thMin maxP bufferSize v w :=
    mul_nonneg (mul_nonneg hmax.le (sub_nonneg.2 hvw)) hclimb
  linarith

theorem climb_nonneg_of_tempP_le (hmax : 0 < maxP) (hvw : v < w)
    (hv : 0 < cubicBlend v thMin maxP bufferSize) (hw : 0 < cubicBlend w thMin maxP bufferSize)
    (hle : tempP v thMin maxP bufferSize ≤ tempP w thMin maxP bufferSize) :
    0 ≤ climb thMin maxP bufferSize v w := by
  rw [tempP, tempP, div_le_div_iff₀ hv hw] at hle
  have hcross := cross_eq thMin maxP bufferSize v w
  have hsign : 0 ≤ maxP * (w - v) * climb thMin maxP bufferSize v w := by linarith
  exact nonneg_of_mul_nonneg_right hsign (mul_pos hmax (sub_pos.2 hvw))

/-- The blend is positive while `max_p` is a probability of at most `th_min`. -/
theorem cubicBlend_pos (hmax : 0 < maxP) (hone : maxP < 1) (hle : maxP ≤ thMin)
    (hbuffer : thMin < bufferSize) (hv : thMin ≤ v) : 0 < cubicBlend v thMin maxP bufferSize := by
  have h1 : 0 < 1 - maxP := by linarith
  have h2 : 0 < bufferSize - thMin := by linarith
  have h3 : 0 ≤ v - maxP := by linarith
  rw [cubicBlend]
  positivity

/-- `temp_p` rises with the average while `max_p` is a probability of at most `th_min`. -/
theorem tempP_mono_ave (hmax : 0 < maxP) (hone : maxP < 1) (hle : maxP ≤ thMin)
    (hbuffer : thMin < bufferSize) (hv : thMin ≤ v) (hvw : v ≤ w) :
    tempP v thMin maxP bufferSize ≤ tempP w thMin maxP bufferSize := by
  apply tempP_le_of_climb hmax hvw (cubicBlend_pos hmax hone hle hbuffer hv)
    (cubicBlend_pos hmax hone hle hbuffer (hv.trans hvw))
  apply climb_nonneg_of_le hmax le_rfl hv hvw hle
  have h1 : 0 < 1 - maxP := by linarith
  have h2 : 0 < bufferSize - thMin := by linarith
  have h3 : 0 ≤ thMin - maxP := by linarith
  rw [slope]
  positivity

/-- `temp_p` rises with `max_p`. -/
theorem tempP_mono_max {maxP' : ℚ} (hmax : 0 < maxP) (hle : maxP ≤ maxP')
    (hbuffer : thMin < bufferSize) (hv : thMin ≤ v)
    (hblend : 0 < cubicBlend v thMin maxP bufferSize)
    (hblend' : 0 < cubicBlend v thMin maxP' bufferSize) :
    tempP v thMin maxP bufferSize ≤ tempP v thMin maxP' bufferSize := by
  rw [tempP, tempP, div_le_div_iff₀ hblend hblend']
  have hd : 0 < bufferSize - thMin := by linarith
  have hx : 0 ≤ v - thMin := by linarith
  have hcube : (v - maxP') ^ 3 ≤ (v - maxP) ^ 3 := by
    apply (show Odd 3 by decide).pow_le_pow.2
    linarith
  have hscaled : maxP * cubicBlend v thMin maxP' bufferSize ≤
      maxP' * cubicBlend v thMin maxP bufferSize := by
    have hfirst : 0 ≤ (maxP' - maxP) * (bufferSize - thMin) ^ 3 :=
      mul_nonneg (by linarith) (by positivity)
    have hsecond : 0 ≤ maxP * maxP' * ((v - maxP) ^ 3 - (v - maxP') ^ 3) :=
      mul_nonneg (mul_nonneg hmax.le (hmax.le.trans hle)) (by linarith)
    simp only [cubicBlend]
    linarith
  have hmul := mul_le_mul_of_nonneg_right hscaled (show 0 ≤ (v - thMin) ^ 3 by positivity)
  simp only [cubicRise]
  linarith

end Rise

/-! ## The count correction -/

/-- The value of the function for `temp_p` at `t`. -/
def correctedProb (count t : ℚ) : ℚ :=
  clampOne (if 1 - count * t = 0 then 1 else t / (1 - count * t))

theorem clampAbove_countCorrected {vAve thMin count maxP bufferSize : ℚ}
    (hblend : cubicBlend vAve thMin maxP bufferSize ≠ 0) :
    clampAbove (countCorrected vAve thMin count maxP bufferSize) =
      some (correctedProb count (tempP vAve thMin maxP bufferSize)) := by
  simp only [countCorrected, if_neg hblend, correctedProb]
  split <;> rfl

section Corrected

variable {count t t' : ℚ} (hcount : 0 ≤ count)

/-- The clamp cuts in exactly from `(1 + count) * t = 1` on. -/
theorem correctedProb_lt_one_iff (h0 : 0 ≤ t) (hpole : count * t ≤ 1) :
    correctedProb count t < 1 ↔ (1 + count) * t < 1 := by
  rw [correctedProb, clampOne_eq_min]
  by_cases hzero : 1 - count * t = 0
  · rw [if_pos hzero, min_self]
    constructor
    · intro h
      exact absurd h (lt_irrefl 1)
    · intro h
      linarith
  · have hpos : 0 < 1 - count * t := lt_of_le_of_ne (by linarith) (Ne.symm hzero)
    rw [if_neg hzero, min_lt_iff, or_iff_left (lt_irrefl 1), div_lt_one hpos]
    constructor <;> intro h <;> linarith

include hcount

theorem correctedProb_mono (hle : t ≤ t') (hpole : count * t' ≤ 1) :
    correctedProb count t ≤ correctedProb count t' := by
  by_cases hzero : 1 - count * t' = 0
  · rw [correctedProb.eq_def count t', if_pos hzero, clampOne_of_le le_rfl]
    exact clampOne_le_one _
  · have hmul : count * t ≤ count * t' := mul_le_mul_of_nonneg_left hle hcount
    have hpos' : 0 < 1 - count * t' := lt_of_le_of_ne (by linarith) (Ne.symm hzero)
    have hpos : 0 < 1 - count * t := by linarith
    rw [correctedProb, correctedProb, if_neg hzero, if_neg hpos.ne']
    apply clampOne_mono
    rw [div_le_div_iff₀ hpos hpos']
    linarith

/-- Where the value is below 1 it tells `temp_p` apart. -/
theorem correctedProb_lt (hlt : t < t') (hpole : count * t' ≤ 1)
    (hone : correctedProb count t < 1) : correctedProb count t < correctedProb count t' := by
  have hmul : count * t ≤ count * t' := mul_le_mul_of_nonneg_left hlt.le hcount
  by_cases hzero : 1 - count * t' = 0
  · rw [correctedProb.eq_def count t', if_pos hzero, clampOne_of_le le_rfl]
    exact hone
  · have hpos' : 0 < 1 - count * t' := lt_of_le_of_ne (by linarith) (Ne.symm hzero)
    have hpos : 0 < 1 - count * t := by linarith
    have hfirst : t / (1 - count * t) < t' / (1 - count * t') := by
      rw [div_lt_div_iff₀ hpos hpos']
      linarith
    rw [correctedProb.eq_def count t', if_neg hzero, clampOne_eq_min, lt_min_iff]
    refine ⟨?_, hone⟩
    rw [correctedProb, if_neg hpos.ne', clampOne_eq_min]
    exact (min_le_left _ _).trans_lt hfirst

end Corrected

/-! ## All averages -/

/-- `f` is defined from 0 on and never falls. -/
def NeverFalls (f : ℚ → Option ℚ) : Prop :=
  ∀ v w, 0 ≤ v → v ≤ w → ∃ p q, f v = some p ∧ f w = some q ∧ p ≤ q

/-- `max_p` above `k2`. -/
def raisedMaxP (maxP : ℚ) : ℚ := maxP + raiseStep maxP

/-- Above `k2` the blend is positive and the count correction stays below its pole. -/
def BelowPoleAbove (thMin count maxP bufferSize : ℚ) : Prop :=
  ∀ v, k2 thMin bufferSize < v → v < bufferSize →
    0 < cubicBlend v thMin (raisedMaxP maxP) bufferSize ∧
      count * cubicRise v thMin (raisedMaxP maxP) ≤
        cubicBlend v thMin (raisedMaxP maxP) bufferSize

/-- Above `k2` the corrected value is 1 or more. -/
def CertainAbove (thMin count maxP bufferSize : ℚ) : Prop :=
  ∀ v, k2 thMin bufferSize < v → v < bufferSize →
    cubicBlend v thMin (raisedMaxP maxP) bufferSize ≤
      (1 + count) * cubicRise v thMin (raisedMaxP maxP)

section Function

variable {thMin count maxP bufferSize v w : ℚ} (h0 : 0 < maxP) (h1 : maxP < 1)
  (hle : maxP ≤ thMin) (hbuffer : thMin < bufferSize) (hcount : 0 ≤ count)

/-- The value below the buffer size. -/
theorem modified_value (edv : Edv) (thMax : ℚ) (hv : thMin ≤ v) (hv' : v < bufferSize)
    (hblend : cubicBlend v thMin (adjustMaxP v thMin maxP bufferSize) bufferSize ≠ 0) :
    (calculatePModifiedRed edv v thMax thMin count maxP bufferSize).1 =
      some (correctedProb count
        (tempP v thMin (adjustMaxP v thMin maxP bufferSize) bufferSize)) := by
  rw [calculatePModifiedRed, if_neg (not_lt.2 hv), if_neg (not_le.2 hv')]
  exact clampAbove_countCorrected hblend

theorem adjustMaxP_above (hbuffer : thMin < bufferSize) (hv : k2 thMin bufferSize < v)
    (maxP : ℚ) : adjustMaxP v thMin maxP bufferSize = raisedMaxP maxP := by
  have hk1 : ¬v < k1 thMin bufferSize := by
    rw [k2] at hv
    rw [k1]
    linarith
  rw [adjustMaxP, if_neg hk1, if_pos hv]
  rfl

include h0

theorem raisedMaxP_pos : 0 < raisedMaxP maxP := (raiseStep_pos_iff maxP).2 h0

theorem le_raisedMaxP : maxP ≤ raisedMaxP maxP := by
  rw [raisedMaxP, raiseStep]
  split <;> linarith

/-- Up to `k2` the adjusted `max_p` is positive, at most `max_p`, and grows with the
average. -/
theorem adjustMaxP_below (hv : v ≤ k2 thMin bufferSize) :
    0 < adjustMaxP v thMin maxP bufferSize ∧ adjustMaxP v thMin maxP bufferSize ≤ maxP := by
  rw [adjustMaxP]
  split
  · constructor <;> linarith
  · rw [if_neg (not_lt.2 hv)]
    exact ⟨h0, le_rfl⟩

theorem adjustMaxP_mono (hvw : v ≤ w) (hw : w ≤ k2 thMin bufferSize) :
    adjustMaxP v thMin maxP bufferSize ≤ adjustMaxP w thMin maxP bufferSize := by
  rw [adjustMaxP.eq_def w]
  split
  next hlow =>
    rw [adjustMaxP, if_pos (hvw.trans_lt hlow)]
  next =>
    rw [if_neg (not_lt.2 hw)]
    exact (adjustMaxP_below h0 (hvw.trans hw)).2

include h1 hle hbuffer

/-- Up to `k2` the blend is positive. -/
theorem cubicBlend_pos_below (hv : thMin ≤ v) (hv' : v ≤ k2 thMin bufferSize) :
    0 < cubicBlend v thMin (adjustMaxP v thMin maxP bufferSize) bufferSize := by
  obtain ⟨hpos, hmax⟩ := adjustMaxP_below h0 hv'
  exact cubicBlend_pos hpos (by linarith) (by linarith) hbuffer hv

/-- Up to `k2` `temp_p` rises, also where `max_p` jumps. -/
theorem tempP_mono_below (hv : thMin ≤ v) (hvw : v ≤ w) (hw : w ≤ k2 thMin bufferSize) :
    tempP v thMin (adjustMaxP v thMin maxP bufferSize) bufferSize ≤
      tempP w thMin (adjustMaxP w thMin maxP bufferSize) bufferSize := by
  obtain ⟨hpos, hmax⟩ := adjustMaxP_below h0 (hvw.trans hw)
  obtain ⟨hpos', hmax'⟩ := adjustMaxP_below h0 hw
  calc
    _ ≤ tempP v thMin (adjustMaxP w thMin maxP bufferSize) bufferSize :=
        tempP_mono_max hpos (adjustMaxP_mono h0 hvw hw) hbuffer hv
          (cubicBlend_pos hpos (by linarith) (by linarith) hbuffer hv)
          (cubicBlend_pos hpos' (by linarith) (by linarith) hbuffer hv)
    _ ≤ _ := tempP_mono_ave hpos' (by linarith) (by linarith) hbuffer hv hvw

/-- At `k2` it jumps upwards. -/
theorem tempP_le_above (hv : thMin ≤ v) (hv' : v ≤ k2 thMin bufferSize)
    (hw : k2 thMin bufferSize < w)
    (hblend : 0 < cubicBlend w thMin (raisedMaxP maxP) bufferSize) :
    tempP v thMin (adjustMaxP v thMin maxP bufferSize) bufferSize ≤
      tempP w thMin (raisedMaxP maxP) bufferSize := by
  obtain ⟨hpos, hmax⟩ := adjustMaxP_below h0 hv'
  have hvw : v ≤ w := hv'.trans hw.le
  calc
    _ ≤ tempP v thMin maxP bufferSize :=
        tempP_mono_max hpos hmax hbuffer hv
          (cubicBlend_pos hpos (by linarith) (by linarith) hbuffer hv)
          (cubicBlend_pos h0 h1 hle hbuffer hv)
    _ ≤ tempP w thMin maxP bufferSize := tempP_mono_ave h0 h1 hle hbuffer hv hvw
    _ ≤ _ := tempP_mono_max h0 (le_raisedMaxP h0) hbuffer (hv.trans hvw)
        (cubicBlend_pos h0 h1 hle hbuffer (hv.trans hvw)) hblend

omit h1 hle in
/-- Above `k2` it rises to every value below 1 if it starts to rise. -/
theorem tempP_mono_above
    (hslope : 0 ≤ slope thMin (raisedMaxP maxP) bufferSize (k2 thMin bufferSize))
    (hv : k2 thMin bufferSize < v) (hvw : v ≤ w) (hw : w < bufferSize)
    (hpos : 0 < cubicBlend v thMin (raisedMaxP maxP) bufferSize)
    (hpos' : 0 < cubicBlend w thMin (raisedMaxP maxP) bufferSize)
    (hone : tempP w thMin (raisedMaxP maxP) bufferSize < 1) :
    tempP v thMin (raisedMaxP maxP) bufferSize ≤ tempP w thMin (raisedMaxP maxP) bufferSize := by
  have hmax := raisedMaxP_pos h0
  have hk2 : thMin ≤ k2 thMin bufferSize := by
    rw [k2]
    linarith
  have hv' : bufferSize - thMin ≤ 2 * (v - thMin) := by
    rw [k2] at hv
    linarith
  apply tempP_le_of_climb hmax hvw hpos hpos'
  rcases le_or_gt (raisedMaxP maxP) thMin with hlow | hhigh
  · exact climb_nonneg_of_le hmax hk2 hv.le hvw hlow hslope
  · rcases le_or_gt w (raisedMaxP maxP) with hbelow | habove
    · exact climb_nonneg_of_below hmax hk2 hv.le hvw hhigh hbelow hslope
    · rw [tempP, div_lt_one hpos'] at hone
      exact climb_nonneg_of_lt_one hmax hvw hhigh (hk2.trans hv.le) habove.le (by linarith) hone.le

/-- Below the pole, on the whole range of the division. -/
theorem tempP_sound (hcount : 0 ≤ count) (hpole : BelowPoleAbove thMin count maxP bufferSize)
    (hv : thMin ≤ v) (hv' : v < bufferSize) :
    0 < cubicBlend v thMin (adjustMaxP v thMin maxP bufferSize) bufferSize ∧
      0 ≤ tempP v thMin (adjustMaxP v thMin maxP bufferSize) bufferSize ∧
      count * tempP v thMin (adjustMaxP v thMin maxP bufferSize) bufferSize ≤ 1 := by
  have habove : ∀ w, k2 thMin bufferSize < w → w < bufferSize →
      0 < cubicBlend w thMin (raisedMaxP maxP) bufferSize ∧
        count * tempP w thMin (raisedMaxP maxP) bufferSize ≤ 1 := by
    intro w hw hw'
    obtain ⟨hpos, hle⟩ := hpole w hw hw'
    refine ⟨hpos, ?_⟩
    rw [tempP, ← mul_div_assoc, div_le_one hpos]
    exact hle
  rcases le_or_gt v (k2 thMin bufferSize) with hlow | hhigh
  · -- an average above `k2` with a larger `temp_p`
    obtain ⟨w, hw, hw'⟩ := exists_between (show k2 thMin bufferSize < bufferSize by
      rw [k2]
      linarith)
    obtain ⟨hpos', hle'⟩ := habove w hw hw'
    have hpos := cubicBlend_pos_below h0 h1 hle hbuffer hv hlow
    obtain ⟨hmax, -⟩ := adjustMaxP_below h0 hlow
    have ht := tempP_le_above h0 h1 hle hbuffer hv hlow hw hpos'
    refine ⟨hpos, tempP_nonneg hmax.le hv hpos, ?_⟩
    exact (mul_le_mul_of_nonneg_left ht hcount).trans hle'
  · rw [adjustMaxP_above hbuffer hhigh]
    obtain ⟨hpos, hle'⟩ := habove v hhigh hv'
    exact ⟨hpos, tempP_nonneg (raisedMaxP_pos h0).le hv hpos, hle'⟩

/-- The values do not fall between `th_min` and the buffer size. -/
theorem correctedProb_mono_ave (hcount : 0 ≤ count)
    (hpole : BelowPoleAbove thMin count maxP bufferSize)
    (htop : 0 ≤ slope thMin (raisedMaxP maxP) bufferSize (k2 thMin bufferSize) ∨
      CertainAbove thMin count maxP bufferSize)
    (hv : thMin ≤ v) (hvw : v ≤ w) (hw : w < bufferSize) :
    correctedProb count (tempP v thMin (adjustMaxP v thMin maxP bufferSize) bufferSize) ≤
      correctedProb count (tempP w thMin (adjustMaxP w thMin maxP bufferSize) bufferSize) := by
  obtain ⟨hpos, -, -⟩ := tempP_sound h0 h1 hle hbuffer hcount hpole hv (hvw.trans_lt hw)
  obtain ⟨hpos', hnonneg', hle'⟩ := tempP_sound h0 h1 hle hbuffer hcount hpole (hv.trans hvw) hw
  rcases le_or_gt w (k2 thMin bufferSize) with hlow | hhigh
  · exact correctedProb_mono hcount (tempP_mono_below h0 h1 hle hbuffer hv hvw hlow) hle'
  · rw [adjustMaxP_above hbuffer hhigh] at hpos' hnonneg' hle' ⊢
    rcases le_or_gt v (k2 thMin bufferSize) with hlow | hhigh'
    · exact correctedProb_mono hcount
        (tempP_le_above h0 h1 hle hbuffer hv hlow hhigh hpos') hle'
    · rw [adjustMaxP_above hbuffer hhigh'] at hpos ⊢
      by_cases hone : correctedProb count (tempP w thMin (raisedMaxP maxP) bufferSize) < 1
      · -- a value below 1 comes from a `temp_p` below 1
        rw [correctedProb_lt_one_iff hnonneg' hle'] at hone
        have hscaled := hone
        rw [tempP, ← mul_div_assoc, div_lt_one hpos'] at hscaled
        have hlt : tempP w thMin (raisedMaxP maxP) bufferSize < 1 := by
          have hmul := mul_nonneg hcount hnonneg'
          linarith
        rcases htop with hslope | hcertain
        · exact correctedProb_mono hcount
            (tempP_mono_above h0 hbuffer hslope hhigh' hvw hw hpos hpos' hlt) hle'
        · exact absurd hscaled (not_lt.2 (hcertain w hhigh hw))
      · exact (clampOne_le_one _).trans (not_lt.1 hone)

/-! ### What a function that never falls gives -/

section Falls

variable {edv : Edv} {thMax : ℚ}
  (hnever : NeverFalls fun v => (calculatePModifiedRed edv v thMax thMin count maxP bufferSize).1)

include hnever

omit h1 in
/-- Its values are not negative, so the correction is below its pole. -/
theorem NeverFalls.belowPole (hcount : 0 ≤ count) :
    BelowPoleAbove thMin count maxP bufferSize := by
  intro v hv hv'
  have hk2 : thMin < k2 thMin bufferSize := by
    rw [k2]
    linarith
  have hmin : thMin < v := hk2.trans hv
  obtain ⟨p, q, hp, hq, hpq⟩ := hnever 0 v le_rfl (by linarith)
  have hzero : p = 0 := by
    have hlow : (0 : ℚ) < thMin := by linarith
    simp only [calculatePModifiedRed, if_pos hlow, clampAbove, Option.some.injEq] at hp
    rw [← hp]
    norm_num
  rw [hzero] at hpq
  have hrise : 0 < cubicRise v thMin (raisedMaxP maxP) := by
    have hx : 0 < v - thMin := by linarith
    have hmax := raisedMaxP_pos h0
    rw [cubicRise]
    positivity
  have hvalue :
      clampAbove (countCorrected v thMin count (raisedMaxP maxP) bufferSize) = some q := by
    rw [← adjustMaxP_above hbuffer hv maxP, ← hq]
    simp only [calculatePModifiedRed, if_neg (not_lt.2 hmin.le), if_neg (not_le.2 hv')]
  have hblend : cubicBlend v thMin (raisedMaxP maxP) bufferSize ≠ 0 := by
    intro h
    simp only [countCorrected, if_pos h, clampAbove] at hvalue
    cases hvalue
  rw [clampAbove_countCorrected hblend, Option.some.injEq, correctedProb, clampOne_eq_min] at hvalue
  rw [← hvalue, le_min_iff] at hpq
  -- the quotient of the correction over one denominator
  by_cases hfull : 1 - count * tempP v thMin (raisedMaxP maxP) bufferSize = 0
  · have hsame : count * cubicRise v thMin (raisedMaxP maxP) =
        cubicBlend v thMin (raisedMaxP maxP) bufferSize := by
      rw [tempP] at hfull
      field_simp at hfull
      linarith
    have hnonneg : 0 ≤ cubicBlend v thMin (raisedMaxP maxP) bufferSize := by
      rw [← hsame]
      positivity
    exact ⟨lt_of_le_of_ne hnonneg hblend.symm, hsame.le⟩
  · have hquot := hpq.1
    rw [if_neg hfull, tempP, corrected_eq hblend] at hquot
    have hden : 0 < cubicBlend v thMin (raisedMaxP maxP) bufferSize -
        count * cubicRise v thMin (raisedMaxP maxP) := by
      by_contra hle0
      have hne : cubicBlend v thMin (raisedMaxP maxP) bufferSize -
          count * cubicRise v thMin (raisedMaxP maxP) ≠ 0 := by
        rw [tempP] at hfull
        exact (one_sub_ne_zero_iff hblend).1 hfull
      have hneg := div_neg_of_pos_of_neg hrise (lt_of_le_of_ne (not_lt.1 hle0) hne)
      linarith
    have hcorr : 0 ≤ count * cubicRise v thMin (raisedMaxP maxP) := mul_nonneg hcount hrise.le
    exact ⟨by linarith, by linarith⟩

/-- If some value above `k2` is below 1, `temp_p` starts to rise there. -/
theorem NeverFalls.slope_nonneg (hcount : 0 ≤ count)
    (hpole : BelowPoleAbove thMin count maxP bufferSize)
    (hbelow : ¬CertainAbove thMin count maxP bufferSize) :
    0 ≤ slope thMin (raisedMaxP maxP) bufferSize (k2 thMin bufferSize) := by
  have hk2 : thMin < k2 thMin bufferSize := by
    rw [k2]
    linarith
  simp only [CertainAbove, not_forall, not_le] at hbelow
  obtain ⟨top, htop, htop', hone⟩ := hbelow
  by_contra hneg
  -- two averages close to `k2`, the second twice as far from it
  have hclimb : ∀ᶠ ε in 𝓝[>] (0 : ℚ), climb thMin (raisedMaxP maxP) bufferSize
      (k2 thMin bufferSize + ε) (k2 thMin bufferSize + 2 * ε) < 0 := by
    have hcont : Continuous fun ε => climb thMin (raisedMaxP maxP) bufferSize
        (k2 thMin bufferSize + ε) (k2 thMin bufferSize + 2 * ε) := by
      simp only [climb]
      fun_prop
    have hlim := (hcont.tendsto 0).mono_left (nhdsWithin_le_nhds (s := Set.Ioi 0))
    apply hlim.eventually_lt_const
    rw [mul_zero, add_zero, climb_self]
    apply mul_neg_of_pos_of_neg _ (not_le.1 hneg)
    have hx : 0 < k2 thMin bufferSize - thMin := by linarith
    positivity
  have hnear : ∀ᶠ ε in 𝓝[>] (0 : ℚ), k2 thMin bufferSize + 2 * ε < top := by
    have hcont : Continuous fun ε : ℚ => k2 thMin bufferSize + 2 * ε := by fun_prop
    have hlim := (hcont.tendsto 0).mono_left (nhdsWithin_le_nhds (s := Set.Ioi 0))
    apply hlim.eventually_lt_const
    rw [mul_zero, add_zero]
    exact htop
  obtain ⟨ε, hε, hfall, hlt⟩ := (eventually_mem_nhdsWithin.and (hclimb.and hnear)).exists
  have hε' : 0 < ε := hε
  -- the values at the three averages, all at most the last one
  have hvalue : ∀ v, k2 thMin bufferSize < v → v < bufferSize →
      (calculatePModifiedRed edv v thMax thMin count maxP bufferSize).1 =
        some (correctedProb count (tempP v thMin (raisedMaxP maxP) bufferSize)) := by
    intro v hv hv'
    have hpos := (hpole v hv hv').1
    rw [← adjustMaxP_above hbuffer hv maxP] at hpos ⊢
    exact modified_value edv thMax (hk2.trans hv).le hv' hpos.ne'
  have hle : ∀ v w, k2 thMin bufferSize < v → v ≤ w → w < bufferSize →
      correctedProb count (tempP v thMin (raisedMaxP maxP) bufferSize) ≤
        correctedProb count (tempP w thMin (raisedMaxP maxP) bufferSize) := by
    intro v w hv hvw hw
    obtain ⟨p, q, hp, hq, hpq⟩ := hnever v w (by linarith) hvw
    simp only [hvalue v hv (hvw.trans_lt hw), hvalue w (hv.trans_le hvw) hw,
      Option.some.injEq] at hp hq
    rwa [hp, hq]
  have hsound : ∀ v, k2 thMin bufferSize < v → v < bufferSize →
      0 ≤ tempP v thMin (raisedMaxP maxP) bufferSize ∧
        count * tempP v thMin (raisedMaxP maxP) bufferSize ≤ 1 := by
    intro v hv hv'
    have hs := tempP_sound h0 h1 ‹_› hbuffer hcount hpole (hk2.trans hv).le hv'
    rw [adjustMaxP_above hbuffer hv] at hs
    exact hs.2
  have hfirst : k2 thMin bufferSize < k2 thMin bufferSize + ε := by linarith
  have hsecond : k2 thMin bufferSize < k2 thMin bufferSize + 2 * ε := by linarith
  have hbefore : k2 thMin bufferSize + 2 * ε < bufferSize := hlt.trans htop'
  have htopone : correctedProb count (tempP top thMin (raisedMaxP maxP) bufferSize) < 1 := by
    obtain ⟨hnonneg, hle1⟩ := hsound top htop htop'
    rw [correctedProb_lt_one_iff hnonneg hle1, tempP, ← mul_div_assoc,
      div_lt_one (hpole top htop htop').1]
    exact hone
  have hsecondone := (hle _ _ hsecond hlt.le htop').trans_lt htopone
  have hordered := hle _ _ hfirst (by linarith) hbefore
  have htemp : tempP (k2 thMin bufferSize + ε) thMin (raisedMaxP maxP) bufferSize ≤
      tempP (k2 thMin bufferSize + 2 * ε) thMin (raisedMaxP maxP) bufferSize := by
    by_contra hgt
    have hpole1 := (hsound _ hfirst (by linarith)).2
    exact absurd (correctedProb_lt hcount (not_le.1 hgt) hpole1 hsecondone) (not_lt.2 hordered)
  have hclimb' := climb_nonneg_of_tempP_le (raisedMaxP_pos h0) (by linarith)
    (hpole _ hfirst (by linarith)).1 (hpole _ hsecond hbefore).1 htemp
  linarith

end Falls

end Function

/-- For `0 < max_p < 1`, `max_p <= th_min < buffer_size` and a count that is not negative,
the function never falls over all averages exactly when, above `k2`, the blend is positive
and the count correction below its pole, and `temp_p` starts to rise at `k2` or the value
is 1 throughout. -/
theorem modified_neverFalls_iff (edv : Edv) (thMax thMin count maxP bufferSize : ℚ)
    (h0 : 0 < maxP) (h1 : maxP < 1) (hle : maxP ≤ thMin) (hbuffer : thMin < bufferSize)
    (hcount : 0 ≤ count) :
    NeverFalls (fun v => (calculatePModifiedRed edv v thMax thMin count maxP bufferSize).1) ↔
      BelowPoleAbove thMin count maxP bufferSize ∧
        (0 ≤ slope thMin (raisedMaxP maxP) bufferSize (k2 thMin bufferSize) ∨
          CertainAbove thMin count maxP bufferSize) := by
  constructor
  · intro hnever
    have hpole := hnever.belowPole h0 hle hbuffer hcount
    refine ⟨hpole, ?_⟩
    by_cases hcertain : CertainAbove thMin count maxP bufferSize
    · exact Or.inr hcertain
    · exact Or.inl (hnever.slope_nonneg h0 h1 hle hbuffer hcount hpole hcertain)
  · rintro ⟨hpole, htop⟩ v w hv hvw
    have hlow : ∀ v, v < thMin →
        (calculatePModifiedRed edv v thMax thMin count maxP bufferSize).1 = some 0 := by
      intro v hv
      simp only [calculatePModifiedRed, if_pos hv, clampAbove]
      norm_num
    have hhigh : ∀ v, bufferSize ≤ v →
        (calculatePModifiedRed edv v thMax thMin count maxP bufferSize).1 = some 1 := by
      intro v hv
      simp only [calculatePModifiedRed, if_neg (not_lt.2 (hbuffer.le.trans hv)), ge_iff_le,
        if_pos hv, clampAbove]
      norm_num
    have hmid : ∀ v, thMin ≤ v → v < bufferSize →
        (calculatePModifiedRed edv v thMax thMin count maxP bufferSize).1 =
            some (correctedProb count
              (tempP v thMin (adjustMaxP v thMin maxP bufferSize) bufferSize)) ∧
          0 ≤ correctedProb count
            (tempP v thMin (adjustMaxP v thMin maxP bufferSize) bufferSize) := by
      intro v hv hv'
      obtain ⟨hpos, hnonneg, hle1⟩ := tempP_sound h0 h1 hle hbuffer hcount hpole hv hv'
      refine ⟨modified_value edv thMax hv hv' hpos.ne', ?_⟩
      -- the correction of a `temp_p` of 0 is 0
      have hzero := correctedProb_mono hcount hnonneg hle1
      have hstart : correctedProb count 0 = 0 := by
        rw [correctedProb, mul_zero, sub_zero, if_neg one_ne_zero, zero_div]
        exact clampOne_of_le zero_le_one
      rwa [hstart] at hzero
    rcases lt_or_ge v thMin with hv1 | hv1
    · rcases lt_or_ge w thMin with hw1 | hw1
      · exact ⟨0, 0, hlow v hv1, hlow w hw1, le_rfl⟩
      · rcases lt_or_ge w bufferSize with hw2 | hw2
        · obtain ⟨hvalue, hnonneg⟩ := hmid w hw1 hw2
          exact ⟨0, _, hlow v hv1, hvalue, hnonneg⟩
        · exact ⟨0, 1, hlow v hv1, hhigh w hw2, zero_le_one⟩
    · rcases lt_or_ge w bufferSize with hw2 | hw2
      · exact ⟨_, _, (hmid v hv1 (hvw.trans_lt hw2)).1, (hmid w (hv1.trans hvw) hw2).1,
          correctedProb_mono_ave h0 h1 hle hbuffer hcount hpole htop hv1 hvw hw2⟩
      · rcases lt_or_ge v bufferSize with hv2 | hv2
        · exact ⟨_, 1, (hmid v hv1 hv2).1, hhigh w hw2, clampOne_le_one _⟩
        · exact ⟨1, 1, hhigh v hv2, hhigh w hw2, le_rfl⟩

/-- Right after a drop the value for a `max_p` of 1/10 never falls. -/
theorem modified_neverFalls_iff_tenth :
    NeverFalls fun v => (calculatePModifiedRed {} v 15 5 0 (1 / 10) 50).1 := by
  refine (modified_neverFalls_iff {} 15 5 0 (1 / 10) 50 (by norm_num) (by norm_num) (by norm_num)
    (by norm_num) le_rfl).2 ⟨?_, Or.inl (by decide +kernel)⟩
  intro v hk hv
  have hraised : raisedMaxP (1 / 10) = 11 / 100 := by decide +kernel
  have hv' : 0 < v - 11 / 100 := by
    have hk2 : k2 5 50 = 32 := by decide +kernel
    linarith
  have hblend : 0 < cubicBlend v 5 (raisedMaxP (1 / 10)) 50 := by
    rw [cubicBlend, hraised]
    have hcube : 0 < (v - 11 / 100) ^ 3 := pow_pos hv' 3
    linarith
  exact ⟨hblend, by linarith⟩

/-- `max_p` 1/10, `th_min` 5, a buffer of 50 and a count of 20: the value is 0 at an
average of 5 and negative at 49. -/
theorem modified_falls_past_pole : ¬∀ (edv : Edv) (thMax thMin count maxP bufferSize : ℚ),
    0 < maxP → maxP < 1 → maxP ≤ thMin → thMin < bufferSize → 0 ≤ count →
      NeverFalls fun v => (calculatePModifiedRed edv v thMax thMin count maxP bufferSize).1 := by
  intro hall
  obtain ⟨p, q, hp, hq, hpq⟩ := hall {} 15 5 20 (1 / 10) 50 (by norm_num) (by norm_num)
    (by norm_num) (by norm_num) (by norm_num) 5 49 (by norm_num) (by norm_num)
  have hlow : (calculatePModifiedRed {} 5 15 5 20 (1 / 10) 50).1 = some 0 := by
    decide +kernel
  have hhigh : ((calculatePModifiedRed {} 49 15 5 20 (1 / 10) 50).1.map fun x => decide (x < 0)) =
      some true := by
    decide +kernel
  have hp0 : p = 0 := Option.some.inj (hp.symm.trans hlow)
  have hq0 : ((some q).map fun x => decide (x < 0)) = some true := by
    rw [← hq]
    exact hhigh
  have hneg : q < 0 := by simpa using hq0
  rw [hp0] at hpq
  exact absurd hneg (not_lt.2 hpq)

end ComputerNetworking.Queue
