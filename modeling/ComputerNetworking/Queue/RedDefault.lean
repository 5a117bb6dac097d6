import ComputerNetworking.Queue.RedProbability
import Mathlib.Topology.Instances.Rat
import Mathlib.Topology.Order.DenselyOrdered

/-!
# The default drop function

`calculate_p_new` with the coefficients that `reset` computes: its linear part
between the thresholds, its gentle part from the upper threshold on, and when
the two meet continuously.
-/

set_option autoImplicit false

namespace ComputerNetworking.Queue

open Filter Topology

/-- `if (p > 1.0) p = 1.0` on numbers. -/
def clampOne (p : ℚ) : ℚ := if p > 1 then 1 else p

theorem clampOne_eq_min (p : ℚ) : clampOne p = min p 1 := by
  rw [clampOne]
  split
  next h => exact (min_eq_right h.le).symm
  next h => exact (min_eq_left (not_lt.1 h)).symm

theorem clampOne_mono {x y : ℚ} (h : x ≤ y) : clampOne x ≤ clampOne y := by
  rw [clampOne_eq_min, clampOne_eq_min]
  exact min_le_min_right 1 h

theorem clampOne_of_le {x : ℚ} (h : x ≤ 1) : clampOne x = x := if_neg (not_lt.2 h)

theorem clampOne_le_one (p : ℚ) : clampOne p ≤ 1 := by
  rw [clampOne_eq_min]
  exact min_le_right p 1

/-- Position of an average between the thresholds: 0 at `thMin`, 1 at `thMax`. -/
def rise (thMin thMax ave : ℚ) : ℚ := (ave - thMin) / (thMax - thMin)

theorem rise_nonneg {thMin thMax ave : ℚ} (hlt : thMin < thMax) (h : thMin ≤ ave) :
    0 ≤ rise thMin thMax ave :=
  div_nonneg (sub_nonneg.2 h) (sub_pos.2 hlt).le

theorem rise_lt_one {thMin thMax ave : ℚ} (hlt : thMin < thMax) (h : ave < thMax) :
    rise thMin thMax ave < 1 := by
  rw [rise, div_lt_one (sub_pos.2 hlt)]
  linarith

theorem rise_eq_zero_iff {thMin thMax ave : ℚ} (hlt : thMin < thMax) :
    rise thMin thMax ave = 0 ↔ ave = thMin := by
  rw [rise, div_eq_zero_iff, sub_eq_zero]
  exact or_iff_left (sub_pos.2 hlt).ne'

theorem rise_thMax {thMin thMax : ℚ} (hlt : thMin < thMax) : rise thMin thMax thMax = 1 :=
  div_self (sub_pos.2 hlt).ne'

section Coefficients

variable {thMin thMax vA vB : ℚ} (hA : vA = 1 / (thMax - thMin))
  (hB : vB = -thMin / (thMax - thMin))

include hA hB

/-- Below the upper threshold the function is linear in both modes. -/
theorem calculatePNew_linear {vAve : ℚ} (h : vAve < thMax) (gentle : Bool) (vC vD maxP : ℚ) :
    calculatePNew vAve thMax gentle vA vB vC vD maxP =
      clampOne (rise thMin thMax vAve * maxP) := by
  have hge : ¬vAve ≥ thMax := not_le.2 h
  have hlin : vA * vAve + vB = rise thMin thMax vAve := by
    rw [hA, hB, rise]
    ring
  simp only [calculatePNew, hge, and_false, if_false, hlin]
  rfl

end Coefficients

/-- At the upper threshold of gentle mode the value is the gentle line's. -/
theorem calculatePNew_gentle {vAve thMax : ℚ} (h : thMax ≤ vAve) (vA vB vC vD maxP : ℚ) :
    calculatePNew vAve thMax true vA vB vC vD maxP = clampOne (vC * vAve + vD) := by
  simp only [calculatePNew, ge_iff_le, h, and_self, if_true]
  rfl

/-- A function that agrees below `a` with one continuous at `a` is continuous from
below at `a` exactly when the two agree there. -/
theorem continuousWithinAt_Iio_iff {f g : ℚ → ℚ} {a : ℚ} (hfg : Set.EqOn f g (Set.Iio a))
    (hg : ContinuousAt g a) : ContinuousWithinAt f (Set.Iio a) a ↔ f a = g a := by
  have hlim : Tendsto f (𝓝[<] a) (𝓝 (g a)) := by
    refine (tendsto_congr' ?_).2 (hg.tendsto.mono_left nhdsWithin_le_nhds)
    filter_upwards [self_mem_nhdsWithin] with x hx
    exact hfg hx
  constructor
  · intro h
    exact tendsto_nhds_unique h hlim
  · intro h
    rw [ContinuousWithinAt, h]
    exact hlim

/-- Gentle mode is continuous from below at the upper threshold exactly when the
gentle line starts at the value the linear part reaches. -/
theorem calculatePNew_continuous_iff {thMin thMax vA vB : ℚ} (hA : vA = 1 / (thMax - thMin))
    (hB : vB = -thMin / (thMax - thMin)) (hlt : thMin < thMax) (vC vD maxP : ℚ) :
    ContinuousWithinAt (fun ave => calculatePNew ave thMax true vA vB vC vD maxP)
        (Set.Iio thMax) thMax ↔
      clampOne (vC * thMax + vD) = clampOne maxP := by
  have hcont : Continuous fun ave => clampOne (rise thMin thMax ave * maxP) := by
    simp only [clampOne_eq_min, rise]
    fun_prop
  have heq : Set.EqOn (fun ave => calculatePNew ave thMax true vA vB vC vD maxP)
      (fun ave => clampOne (rise thMin thMax ave * maxP)) (Set.Iio thMax) :=
    fun ave h => calculatePNew_linear hA hB h true vC vD maxP
  rw [continuousWithinAt_Iio_iff heq hcont.continuousAt]
  simp only [calculatePNew_gentle le_rfl, rise_thMax hlt, one_mul]

end ComputerNetworking.Queue
