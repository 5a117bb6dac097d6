import ComputerNetworking.Queue.RedMaxP

/-!
# Adaptive RED and the bounds of the maximum probability

`updateMaxP` looks at `cur_max_p` before it changes it: above `bottom_` it multiplies
by `beta_`, below `top_` it adds `alpha_`, capped at a quarter. The value stays
between the bounds over a run exactly when no step starts so close to a bound that it
jumps over it (`maxP_within_iff`); `loweredBelow` is a run with the default
parameters that goes below `bottom_`. What every run keeps are the bounds less or
more one step (`maxP_within_oneStep`).
-/

set_option autoImplicit false

namespace ComputerNetworking.Queue

open ComputerNetworking.Foundations

/-- One call of the adaptive part of `estimator`, with the new average and the time. -/
def adaptStep (edp : Edp) (edv : Edv) (call : ℚ × ℚ) : Except Crash Edv :=
  .ok (adapt edp edv call.1 call.2)

/-- `cur_max_p` lies between `bottom_` and `top_`. -/
def MaxPWithin (edp : Edp) (edv : Edv) : Prop := edp.bottom ≤ edv.curMaxP ∧ edv.curMaxP ≤ edp.top

/-- The additive increase, capped at a quarter of `cur_max_p`. -/
def increase (edp : Edp) (edv : Edv) : ℚ :=
  if edp.alpha > 1 / 4 * edv.curMaxP then 1 / 4 * edv.curMaxP else edp.alpha

/-- The call decreases `cur_max_p`. -/
def Decreases (edp : Edp) (edv : Edv) (call : ℚ × ℚ) : Prop :=
  edv.lastset + edp.interval < call.2 ∧
    call.1 < edp.thMin + 4 / 10 * (edp.thMax - edp.thMin) ∧ edp.bottom < edv.curMaxP

/-- The call increases `cur_max_p`. -/
def Increases (edp : Edp) (edv : Edv) (call : ℚ × ℚ) : Prop :=
  edv.lastset + edp.interval < call.2 ∧ ¬Decreases edp edv call ∧
    edp.thMax - 4 / 10 * (edp.thMax - edp.thMin) < call.1 ∧ edv.curMaxP < edp.top

/-- A decrease starts high enough above `bottom_`, and an increase low enough below
`top_`. -/
def KeepsBounds (edp : Edp) (edv : Edv) (call : ℚ × ℚ) : Prop :=
  (Decreases edp edv call → edp.bottom ≤ edv.curMaxP * edp.beta) ∧
    (Increases edp edv call → edv.curMaxP + increase edp edv ≤ edp.top)

/-- `cur_max_p` is past a bound by one step at most. -/
def WithinOneStep (edp : Edp) (edv : Edv) : Prop :=
  edp.bottom * edp.beta ≤ edv.curMaxP ∧ edv.curMaxP ≤ edp.top + edp.alpha

instance (edp : Edp) (edv : Edv) : Decidable (MaxPWithin edp edv) :=
  inferInstanceAs (Decidable (_ ∧ _))

instance (edp : Edp) (edv : Edv) (call : ℚ × ℚ) : Decidable (Decreases edp edv call) :=
  inferInstanceAs (Decidable (_ ∧ _ ∧ _))

instance (edp : Edp) (edv : Edv) (call : ℚ × ℚ) : Decidable (Increases edp edv call) :=
  inferInstanceAs (Decidable (_ ∧ _ ∧ _ ∧ _))

instance (edp : Edp) (edv : Edv) (call : ℚ × ℚ) : Decidable (KeepsBounds edp edv call) :=
  inferInstanceAs (Decidable ((_ → _ ≤ _) ∧ (_ → _ ≤ _)))

/-- `cur_max_p` after one call of the variant that is not Feng's. -/
theorem adapt_curMaxP {edp : Edp} (hadaptive : edp.adaptive = 1) (hfeng : edp.fengAdaptive ≠ 1)
    (edv : Edv) (call : ℚ × ℚ) :
    (adapt edp edv call.1 call.2).curMaxP =
      if Decreases edp edv call then edv.curMaxP * edp.beta
      else if Increases edp edv call then edv.curMaxP + increase edp edv
      else edv.curMaxP := by
  rw [adapt, if_pos hadaptive, if_neg hfeng]
  by_cases hdue : edv.lastset + edp.interval < call.2
  · rw [if_pos hdue, updateMaxP]
    simp only [Decreases, Increases, hdue, true_and, gt_iff_lt, increase]
    split
    · rfl
    · rename_i hno
      simp only [hno, not_false_eq_true, true_and]
      split <;> rfl
  · rw [if_neg hdue, if_neg fun h => hdue h.1, if_neg fun h => hdue h.1]

section Bounds

variable {edp : Edp} (hadaptive : edp.adaptive = 1) (hfeng : edp.fengAdaptive = 0)
  (hbottom : 0 < edp.bottom) (hbeta : 0 < edp.beta ∧ edp.beta < 1) (halpha : 0 < edp.alpha)

include halpha in
theorem increase_mem {edv : Edv} (hpos : 0 < edv.curMaxP) :
    0 < increase edp edv ∧ increase edp edv ≤ edp.alpha := by
  rw [increase]
  split
  · constructor <;> linarith
  · exact ⟨halpha, le_rfl⟩

include hadaptive hfeng hbottom hbeta halpha

/-- One call from within the bounds. -/
theorem keepsBounds_iff {edv : Edv} (h : MaxPWithin edp edv) (call : ℚ × ℚ) :
    (∀ edv', adaptStep edp edv call = .ok edv' → MaxPWithin edp edv') ↔
      KeepsBounds edp edv call := by
  obtain ⟨hlo, hhi⟩ := h
  have hpos : 0 < edv.curMaxP := hbottom.trans_le hlo
  have hfeng' : edp.fengAdaptive ≠ 1 := by omega
  have hstep := adapt_curMaxP hadaptive hfeng' edv call
  simp only [adaptStep, Except.ok.injEq, forall_eq']
  rw [MaxPWithin, hstep, KeepsBounds]
  by_cases hdec : Decreases edp edv call
  · -- a decrease stays below `top_`
    have hno : ¬Increases edp edv call := fun hinc => hinc.2.1 hdec
    have hle : edv.curMaxP * edp.beta ≤ edp.top := by
      have hmul : edv.curMaxP * edp.beta ≤ edv.curMaxP * 1 := by gcongr; exact hbeta.2.le
      linarith
    simp [hdec, hno, hle]
  · rw [if_neg hdec]
    by_cases hinc : Increases edp edv call
    · -- an increase stays above `bottom_`
      have hge := (increase_mem halpha hpos).1
      have hle : edp.bottom ≤ edv.curMaxP + increase edp edv := by linarith
      simp [hdec, hinc, hle]
    · rw [if_neg hinc]
      simp [hdec, hinc, hlo, hhi]

/-- Over every sequence of averages and update times, `cur_max_p` stays within the
bounds exactly when no call jumps over one of them. -/
theorem maxP_within_iff (edv : Edv) (hstart : MaxPWithin edp edv) (calls : List (ℚ × ℚ)) :
    AfterEach (adaptStep edp) (MaxPWithin edp) edv calls ↔
      Along (adaptStep edp) (KeepsBounds edp) edv calls := by
  symm
  apply along_congr (MaxPWithin edp)
  · intro t call t' _ hkeeps hstep
    exact hkeeps t' hstep
  · intro t call ht
    exact (keepsBounds_iff hadaptive hfeng hbottom hbeta halpha ht call).symm
  · exact hstart

theorem adaptStep_oneStep {edv edv' : Edv} (call : ℚ × ℚ) (h : WithinOneStep edp edv)
    (hstep : adaptStep edp edv call = .ok edv') : WithinOneStep edp edv' := by
  obtain ⟨hlo, hhi⟩ := h
  have hpos : 0 < edv.curMaxP := (mul_pos hbottom hbeta.1).trans_le hlo
  have hmove := adapt_curMaxP hadaptive (by omega) edv call
  simp only [adaptStep, Except.ok.injEq] at hstep
  rw [hstep] at hmove
  rw [WithinOneStep, hmove]
  split
  next hdec =>
    -- it starts above `bottom_`, and does not rise
    have hbelow : edp.bottom * edp.beta ≤ edv.curMaxP * edp.beta := by
      gcongr
      · exact hbeta.1.le
      · exact hdec.2.2.le
    have habove : edv.curMaxP * edp.beta ≤ edv.curMaxP := mul_le_of_le_one_right hpos.le hbeta.2.le
    exact ⟨hbelow, habove.trans hhi⟩
  next hdec =>
    split
    next hinc =>
      -- it starts below `top_`
      obtain ⟨hup, hle⟩ := increase_mem halpha hpos
      have htop := hinc.2.2.2
      constructor <;> linarith
    next hinc => exact ⟨hlo, hhi⟩

/-- Over every sequence of averages and update times from within the bounds, `cur_max_p` stays
within one step of them. -/
theorem maxP_within_oneStep (edv : Edv) (hstart : MaxPWithin edp edv) (calls : List (ℚ × ℚ)) :
    AfterEach (adaptStep edp) (WithinOneStep edp) edv calls := by
  have hfirst : WithinOneStep edp edv :=
    ⟨(mul_le_of_le_one_right hbottom.le hbeta.2.le).trans hstart.1,
      hstart.2.trans (le_add_of_nonneg_right halpha.le)⟩
  -- what a call leaves is what the next one starts from
  refine Along.of_kept ?_ ?_ hfirst calls
  · intro t call t' h hstep
    exact adaptStep_oneStep hadaptive hfeng hbottom hbeta halpha call h hstep
  · intro t call h t' hstep
    exact adaptStep_oneStep hadaptive hfeng hbottom hbeta halpha call h hstep

end Bounds

/-- Adaptive RED with `thresh_` 5, `maxthresh_` 15 and the other parameters at their
defaults. -/
def defaultAdaptive : Edp where
  thMin := 5
  thMax := 15
  adaptive := 1
  alpha := 1 / 100
  beta := 9 / 10
  interval := 1 / 2
  top := 1 / 2
  bottom := 1 / 100

/-- The variables after `reset` with `linterm_` 10. -/
def startAdaptive : Edv := { curMaxP := 1 / 10 }

/-- One average below the target range a second. -/
def loweredBelow : List (ℚ × ℚ) := (List.range 22).map fun k : ℕ => (0, k + 1)

/-- The first twenty-one decreases stay above `bottom_`. -/
theorem maxP_within_iff_default :
    AfterEach (adaptStep defaultAdaptive) (MaxPWithin defaultAdaptive) startAdaptive
      (loweredBelow.take 21) :=
  (maxP_within_iff rfl rfl (by decide +kernel) (by decide +kernel) (by decide +kernel) startAdaptive
    (by decide +kernel) (loweredBelow.take 21)).2 (by decide +kernel)

/-- The twenty-second decrease goes below `bottom_`. -/
theorem loweredBelow_leaves_bounds : ¬∀ (edp : Edp) (edv : Edv) (calls : List (ℚ × ℚ)),
    edp.adaptive = 1 → edp.fengAdaptive = 0 →
      0 < edp.bottom ∧ edp.bottom ≤ edp.top ∧ edp.top ≤ 1 →
      0 < edp.beta ∧ edp.beta < 1 → 0 < edp.alpha → MaxPWithin edp edv →
      AfterEach (adaptStep edp) (MaxPWithin edp) edv calls := by
  intro hall
  have hrun := hall defaultAdaptive startAdaptive loweredBelow rfl rfl (by decide +kernel)
    (by decide +kernel) (by decide +kernel) (by decide +kernel)
  have hend : (runAll (adaptStep defaultAdaptive) startAdaptive loweredBelow).map
      (fun edv => decide (MaxPWithin defaultAdaptive edv)) = .ok false := by
    decide +kernel
  cases hs : runAll (adaptStep defaultAdaptive) startAdaptive loweredBelow with
  | error e =>
      rw [hs] at hend
      cases hend
  | ok edv =>
      rw [hs] at hend
      have hin := hrun.of_runAll (by decide) hs
      have hout := of_decide_eq_false (Except.ok.inj hend)
      exact hout hin

end ComputerNetworking.Queue
