import ComputerNetworking.Queue.RedAdaptive
import ComputerNetworking.Queue.RedDefault

/-!
# Gentle mode after an adaptation

Up to `th_max` the drop probability is scaled by the current `cur_max_p`; from there on
it follows a line whose slope and offset `reset` has computed from the first one. The
two meet while `cur_max_p` is what it was at `reset`. So the law of gentle mode
(`GentleLaw`) holds along a run exactly when no adaptive update moves `cur_max_p`
(`gentleLaw_iff_unmoved`); `oneUpdate` is a run of a single arrival that breaks it.
-/

set_option autoImplicit false

namespace ComputerNetworking.Queue

open ComputerNetworking.Foundations

/-! ## When an adaptive update moves the maximum probability -/

/-- The adaptive update changes `cur_max_p`. -/
def MovesMaxP (edp : Edp) (edv : Edv) (call : ℚ × ℚ) : Prop :=
  edp.adaptive = 1 ∧
    if edp.fengAdaptive = 1 then
      (call.1 < edp.thMin ∧ edv.status ≠ .below ∧ edv.curMaxP / edp.alpha ≠ edv.curMaxP) ∨
        (edp.thMax < call.1 ∧ edv.status ≠ .above ∧ edv.curMaxP * edp.beta ≠ edv.curMaxP)
    else
      (Decreases edp edv call ∧ edv.curMaxP * edp.beta ≠ edv.curMaxP) ∨
        (Increases edp edv call ∧ increase edp edv ≠ 0)

instance (edp : Edp) (edv : Edv) (call : ℚ × ℚ) : Decidable (MovesMaxP edp edv call) := by
  unfold MovesMaxP
  infer_instance

/-- `MovesMaxP` says when. -/
theorem adapt_moves_iff {edp : Edp} (hlt : edp.thMin < edp.thMax) (edv : Edv) (call : ℚ × ℚ) :
    (adapt edp edv call.1 call.2).curMaxP ≠ edv.curMaxP ↔ MovesMaxP edp edv call := by
  rw [MovesMaxP]
  by_cases hadaptive : edp.adaptive = 1
  · by_cases hfeng : edp.fengAdaptive = 1
    · rw [if_pos hfeng, adapt, if_pos hadaptive, if_pos hfeng, updateMaxPFeng]
      -- an average is on one side of the thresholds, or between them
      by_cases hbelow : call.1 < edp.thMin
      · have hbetween : ¬(edp.thMin < call.1 ∧ call.1 < edp.thMax) := fun h => by linarith [h.1]
        have habove : ¬edp.thMax < call.1 := by linarith
        by_cases hst : edv.status = .below
        · simp [hbetween, habove, hst]
        · simp [hadaptive, hbelow, hbetween, habove, hst]
      · by_cases habove : edp.thMax < call.1
        · have hbetween : ¬(edp.thMin < call.1 ∧ call.1 < edp.thMax) := fun h => by linarith [h.2]
          by_cases hst : edv.status = .above
          · simp [hbelow, hbetween, hst]
          · simp [hadaptive, hbelow, hbetween, habove, hst]
        · simp only [gt_iff_lt, hbelow, habove, false_and, if_false, or_self, and_false, iff_false,
            not_not]
          split <;> rfl
    · rw [if_neg hfeng, adapt_curMaxP hadaptive hfeng]
      by_cases hdec : Decreases edp edv call
      · have hno : ¬Increases edp edv call := fun hinc => hinc.2.1 hdec
        simp [hadaptive, hdec, hno]
      · by_cases hinc : Increases edp edv call
        · simp [hadaptive, hdec, hinc]
        · simp [hdec, hinc]
  · rw [adapt, if_neg hadaptive]
    simp [hadaptive]

/-! ## The coefficients stay those of `reset` -/

/-- The coefficients of the two lines. -/
def Edv.coefficients (e : Edv) : ℚ × ℚ × ℚ × ℚ := (e.vA, e.vB, e.vC, e.vD)

namespace REDQueue

variable {lm : Libm} {s s' : REDQueue} {pkt pkt' : Packet} {u : ℚ} {op : Op}

theorem arrive_coefficients (s : REDQueue) (pkt : Packet) (now : ℚ) :
    (s.arrive pkt now).edv.coefficients = s.edv.coefficients := by
  obtain ⟨ave, m, l, st, h⟩ := s.arrive_edv pkt now
  rw [h]
  rfl

theorem threshold_coefficients {d : DropType} (h : s.threshold lm pkt u = .ok (s', pkt', d)) :
    s'.edv.coefficients = s.edv.coefficients := by
  rw [threshold] at h
  split at h
  · split at h
    · cases h
      rfl
    · split at h
      · cases h
        rfl
      · cases he : s.dropEarly lm pkt u with
        | error e =>
            rw [he] at h
            cases h
        | ok r =>
            obtain ⟨t, p, b⟩ := r
            obtain ⟨⟨q, c, cb, -, -, rfl⟩, -⟩ := dropEarly_ok lm he
            rw [he] at h
            cases b <;> cases h <;> rfl
  · cases h
    rfl

theorem settle_coefficients {r : ℕ} {d : DropType} {out : Option (Fate × Packet)}
    (h : s.settle pkt r d = .ok (s', out)) : s'.edv.coefficients = s.edv.coefficients := by
  cases d with
  | unforced =>
      have hsame : ¬(pickPacketForECN pkt).uid ≠ pkt.uid := fun h => h rfl
      rw [settle, if_neg hsame] at h
      cases h
      rfl
  | none =>
      cases h
      rfl
  | forced =>
      simp only [settle] at h
      split at h
      · cases h
      · split at h
        · cases h
        · cases h
          show Edv.coefficients (if s.ns1Compat then s.edv else _) = _
          split <;> rfl

/-- No call writes the coefficients. -/
theorem redStep_coefficients (h : redStep lm s op = .ok s') :
    s'.edv.coefficients = s.edv.coefficients := by
  rcases redStep_cases h with ⟨now, -, rfl⟩ | ⟨pkt, d, out, -, he⟩
  · rw [deque_edv]
  · rw [enque, classify] at he
    cases ht : (s.arrive pkt d.now).threshold lm pkt d.u with
    | error e =>
        rw [ht] at he
        cases he
    | ok r =>
        obtain ⟨t, p, dt⟩ := r
        rw [ht] at he
        rw [settle_coefficients he, threshold_coefficients ht, arrive_coefficients]

/-- In default mode the threshold decision leaves `cur_max_p` alone. -/
theorem thresholdMaxP_default (hmod : s.edp.isModifiedRed = false) :
    s.thresholdMaxP = s.edv.curMaxP := by
  have hmod' : ¬s.edp.isModifiedRed = true := by simp [hmod]
  rw [thresholdMaxP, earlyMaxP, calculateP, if_neg hmod']
  exact ite_self _

/-- `cur_max_p` after an arrival in default mode is what the adaptive update left. -/
theorem enque_curMaxP_default {d : Draw} {out : Option (Fate × Packet)}
    (hmod : s.edp.isModifiedRed = false) (h : s.enque lm pkt d = .ok (s', out)) :
    s'.edv.curMaxP = (adapt s.edp s.edv
      (newAverage s.edp s.qlen (s.idlePackets d.now + 1) s.edv.vAve s.edp.qW) d.now).curMaxP := by
  have hmod' : (s.arrive pkt d.now).edp.isModifiedRed = false := hmod
  rw [(enque_ok lm h).curMaxP, thresholdMaxP_default hmod']
  rfl

/-! ## The law in one state -/

/-- `v_prob1` in default mode, as a function of the average. -/
def defaultProb (s : REDQueue) (ave : ℚ) : ℚ :=
  calculatePNew ave s.edp.thMax s.edp.gentle s.edv.vA s.edv.vB s.edv.vC s.edv.vD s.edv.curMaxP

/-- `drop_early` computes it for the average of the state. -/
theorem earlyProb1_default (hmod : s.edp.isModifiedRed = false) :
    s.earlyProb1 = some (s.defaultProb s.edv.vAve) := by
  have hmod' : ¬s.edp.isModifiedRed = true := by simp [hmod]
  rw [earlyProb1, calculateP, if_neg hmod']
  rfl

/-- From `th_min` to `2 * th_max` the drop probability does not decrease, passes `th_max`
without a jump and through the current `cur_max_p`, and ends at 1. -/
structure GentleLaw (s : REDQueue) : Prop where
  mono : MonotoneOn s.defaultProb (Set.Icc s.edp.thMin (2 * s.edp.thMax))
  continuous : ContinuousAt s.defaultProb s.edp.thMax
  at_thMax : s.defaultProb s.edp.thMax = s.edv.curMaxP
  at_twice : s.defaultProb (2 * s.edp.thMax) = 1

/-- A gentle queue with the coefficients `reset` computes for the maximum probability `m`. -/
structure Gentle (s : REDQueue) (m : ℚ) : Prop where
  gentle : s.edp.gentle = true
  thMin_pos : 0 < s.edp.thMin
  thMin_lt : s.edp.thMin < s.edp.thMax
  coefficients : s.edv.coefficients = (1 / (s.edp.thMax - s.edp.thMin),
    -s.edp.thMin / (s.edp.thMax - s.edp.thMin), (1 - m) / s.edp.thMax, 2 * m - 1)

/-- The gentle line: from `m` at `th_max` to 1 at `2 * th_max`. -/
def gentleLine (m thMax ave : ℚ) : ℚ := m + (1 - m) * ((ave - thMax) / thMax)

section Law

variable {m : ℚ}

theorem Gentle.below (h : s.Gentle m) {ave : ℚ} (hlt : ave < s.edp.thMax) :
    s.defaultProb ave = clampOne (rise s.edp.thMin s.edp.thMax ave * s.edv.curMaxP) := by
  have hc := h.coefficients
  simp only [Edv.coefficients, Prod.mk.injEq] at hc
  exact calculatePNew_linear hc.1 hc.2.1 hlt s.edp.gentle s.edv.vC s.edv.vD s.edv.curMaxP

theorem Gentle.above (h : s.Gentle m) {ave : ℚ} (hle : s.edp.thMax ≤ ave) :
    s.defaultProb ave = clampOne (gentleLine m s.edp.thMax ave) := by
  have hc := h.coefficients
  simp only [Edv.coefficients, Prod.mk.injEq] at hc
  have hne : s.edp.thMax ≠ 0 := (h.thMin_pos.trans h.thMin_lt).ne'
  rw [defaultProb, h.gentle, calculatePNew_gentle hle, hc.2.2.1, hc.2.2.2, gentleLine]
  congr 1
  field_simp
  ring

theorem gentleLine_thMax (m thMax : ℚ) : gentleLine m thMax thMax = m := by
  rw [gentleLine, sub_self, zero_div, mul_zero, add_zero]

/-- The value at `th_max` is the line's, whatever `cur_max_p` has become. -/
theorem Gentle.at_thMax (h : s.Gentle m) : s.defaultProb s.edp.thMax = clampOne m := by
  rw [h.above le_rfl, gentleLine_thMax]

theorem Gentle.at_twice (h : s.Gentle m) : s.defaultProb (2 * s.edp.thMax) = 1 := by
  have hpos : 0 < s.edp.thMax := h.thMin_pos.trans h.thMin_lt
  rw [h.above (by linarith), gentleLine]
  have hone : (2 * s.edp.thMax - s.edp.thMax) / s.edp.thMax = 1 := by
    field_simp
    ring
  rw [hone, mul_one, add_sub_cancel]
  exact clampOne_of_le le_rfl

/-- The linear part and the line meet when `cur_max_p` is where the line starts. -/
theorem Gentle.monotoneOn (h : s.Gentle m) (hm0 : 0 ≤ m) (hm1 : m ≤ 1) (hcur : s.edv.curMaxP = m) :
    MonotoneOn s.defaultProb (Set.Icc s.edp.thMin (2 * s.edp.thMax)) := by
  have hpos : 0 < s.edp.thMax := h.thMin_pos.trans h.thMin_lt
  have hrise : ∀ a b, a ≤ b → rise s.edp.thMin s.edp.thMax a ≤ rise s.edp.thMin s.edp.thMax b := by
    intro a b hab
    exact div_le_div_of_nonneg_right (by linarith) (sub_pos.2 h.thMin_lt).le
  have hline : ∀ a b, a ≤ b → gentleLine m s.edp.thMax a ≤ gentleLine m s.edp.thMax b := by
    intro a b hab
    rw [gentleLine, gentleLine]
    have hdiv : (a - s.edp.thMax) / s.edp.thMax ≤ (b - s.edp.thMax) / s.edp.thMax :=
      div_le_div_of_nonneg_right (by linarith) hpos.le
    have hmul := mul_le_mul_of_nonneg_left hdiv (sub_nonneg.2 hm1)
    linarith
  intro a ha b hb hab
  by_cases hb' : b < s.edp.thMax
  · rw [h.below (hab.trans_lt hb'), h.below hb', hcur]
    exact clampOne_mono (mul_le_mul_of_nonneg_right (hrise a b hab) hm0)
  · rw [h.above (not_lt.1 hb')]
    by_cases ha' : a < s.edp.thMax
    · -- one average on each side: `m` lies between the two values
      rw [h.below ha', hcur]
      apply clampOne_mono
      have hle := hline _ _ (not_lt.1 hb')
      rw [gentleLine_thMax] at hle
      have hone := (rise_lt_one h.thMin_lt ha').le
      exact (mul_le_of_le_one_left hm0 hone).trans hle
    · rw [h.above (not_lt.1 ha')]
      exact clampOne_mono (hline a b hab)

theorem Gentle.continuousAt (h : s.Gentle m) (hcur : s.edv.curMaxP = m) :
    ContinuousAt s.defaultProb s.edp.thMax := by
  have hc := h.coefficients
  simp only [Edv.coefficients, Prod.mk.injEq] at hc
  rw [continuousAt_iff_continuous_left'_right']
  constructor
  · have hleft := (calculatePNew_continuous_iff hc.1 hc.2.1 h.thMin_lt s.edv.vC s.edv.vD
      s.edv.curMaxP).2 ?_
    · rw [← h.gentle] at hleft
      exact hleft
    · have hmeet := h.at_thMax
      rw [defaultProb, h.gentle, calculatePNew_gentle le_rfl] at hmeet
      rw [hmeet, hcur]
  · have hcont : Continuous fun ave => clampOne (gentleLine m s.edp.thMax ave) := by
      simp only [clampOne_eq_min, gentleLine]
      fun_prop
    refine hcont.continuousWithinAt.congr (fun ave have' => ?_) ?_
    · exact h.above (le_of_lt have')
    · exact h.above le_rfl

/-- The law holds exactly while `cur_max_p` is the one of `reset`. -/
theorem Gentle.law_iff (h : s.Gentle m) (hm0 : 0 ≤ m) (hm1 : m ≤ 1) :
    s.GentleLaw ↔ s.edv.curMaxP = m := by
  constructor
  · intro hlaw
    have hval := h.at_thMax
    rw [hlaw.at_thMax, clampOne_of_le hm1] at hval
    exact hval
  · intro hcur
    refine ⟨h.monotoneOn hm0 hm1 hcur, h.continuousAt hcur, ?_, h.at_twice⟩
    rw [h.at_thMax, clampOne_of_le hm1, hcur]

/-- A queue that starts with the law has a maximum probability. -/
theorem Gentle.mem_of_law (h : s.Gentle m) (hcur : s.edv.curMaxP = m) (hlaw : s.GentleLaw) :
    0 ≤ m ∧ m ≤ 1 := by
  have hval := h.at_thMax
  rw [hlaw.at_thMax, hcur] at hval
  have hle : m ≤ 1 := by
    rw [hval, clampOne_eq_min]
    exact min_le_right m 1
  refine ⟨?_, hle⟩
  have hmono := hlaw.mono (Set.left_mem_Icc.2 (by linarith [h.thMin_pos, h.thMin_lt]))
    ⟨h.thMin_lt.le, by linarith [h.thMin_pos, h.thMin_lt]⟩ h.thMin_lt.le
  have hzero : s.defaultProb s.edp.thMin = 0 := by
    rw [h.below h.thMin_lt, (rise_eq_zero_iff h.thMin_lt).2 rfl, zero_mul]
    exact clampOne_of_le zero_le_one
  rw [hzero, hlaw.at_thMax, hcur] at hmono
  exact hmono

end Law

end REDQueue

/-! ## The law along a run -/

open REDQueue

/-- The adaptive update of the call, if it makes one, leaves `cur_max_p` alone. -/
def KeepsStart (s : REDQueue) : Op → Prop
  | .enque pkt d =>
      ¬(s.arrive pkt d.now).DividesByZero →
        ¬MovesMaxP s.edp s.edv
          (newAverage s.edp s.qlen (s.idlePackets d.now + 1) s.edv.vAve s.edp.qW, d.now)
  | .deque _ => True

instance (s : REDQueue) : DecidablePred (KeepsStart s)
  | .enque pkt d =>
      inferInstanceAs (Decidable (¬(s.arrive pkt d.now).DividesByZero → ¬MovesMaxP _ _ _))
  | .deque _ => isTrue trivial

/-- A default queue in gentle mode whose maximum probability is still the one of `reset`. -/
structure Unmoved (m : ℚ) (s : REDQueue) : Prop extends s.Gentle m where
  isModifiedRed : s.edp.isModifiedRed = false
  curMaxP : s.edv.curMaxP = m

section Step

variable {lm : Libm} {s s' : REDQueue} {op : Op} {m : ℚ}

/-- A call keeps everything of a gentle queue but perhaps `cur_max_p`. -/
theorem redStep_gentle (hs : s.Gentle m) (h : redStep lm s op = .ok s') : s'.Gentle m := by
  have hedp := redStep_edp lm h
  have hcoef := redStep_coefficients h
  refine ⟨?_, ?_, ?_, ?_⟩
  · rw [hedp]
    exact hs.gentle
  · rw [hedp]
    exact hs.thMin_pos
  · rw [hedp]
    exact hs.thMin_lt
  · rw [hcoef, hedp]
    exact hs.coefficients

/-- A call leaves `cur_max_p` where it is exactly when it meets `KeepsStart`. -/
theorem keepsStart_iff (lm : Libm) (hs : Unmoved m s) (op : Op) :
    (∀ s', redStep lm s op = .ok s' → s'.edv.curMaxP = m) ↔ KeepsStart s op := by
  cases op with
  | deque now =>
      refine iff_of_true ?_ trivial
      intro s' h
      simp only [redStep_deque, Except.ok.injEq] at h
      rw [← h, deque_edv]
      exact hs.curMaxP
  | enque pkt d =>
      simp only [redStep_enque, KeepsStart]
      cases he : s.enque lm pkt d with
      | error e =>
          have hdiv := (enque_error_iff lm).1 he
          simp [hdiv.1]
      | ok r =>
          obtain ⟨t, out⟩ := r
          have hno : ¬(s.arrive pkt d.now).DividesByZero := by
            intro hdiv
            rw [(enque_error_iff lm (e := .divideByZero)).2 ⟨hdiv, rfl⟩] at he
            cases he
          have hmax := enque_curMaxP_default hs.isModifiedRed he
          have hmoves := adapt_moves_iff hs.thMin_lt s.edv
            (newAverage s.edp s.qlen (s.idlePackets d.now + 1) s.edv.vAve s.edp.qW, d.now)
          simp only [Except.ok.injEq, forall_eq', hno, not_false_eq_true, true_implies]
          rw [hmax, ← hmoves, hs.curMaxP, not_not]

/-- One call from a queue that obeys the law. -/
theorem keepsLaw_iff (hs : Unmoved m s) (hm : 0 ≤ m ∧ m ≤ 1) (op : Op) :
    (∀ s', redStep lm s op = .ok s' → s'.GentleLaw) ↔ KeepsStart s op := by
  rw [← keepsStart_iff lm hs op]
  apply forall₂_congr
  intro s' hstep
  exact (redStep_gentle hs.toGentle hstep).law_iff hm.1 hm.2

end Step

/-- `reset` starts a gentle queue with the maximum probability `1 / linterm_`. -/
theorem reset_unmoved {lm : Libm} {s : REDQueue} {now : ℚ}
    (hmod : s.edp.isModifiedRed = false) (hgentle : (s.reset lm now).1.edp.gentle = true)
    (hpos : 0 < (s.reset lm now).1.edp.thMin)
    (hlt : (s.reset lm now).1.edp.thMin < (s.reset lm now).1.edp.thMax) :
    Unmoved (1 / s.edp.maxPInv) (s.reset lm now).1 := by
  have hlinterm := resetEdp_maxPInv lm s.link s.qib s.edp
  have hdiff : (s.reset lm now).1.edp.thMax - (s.reset lm now).1.edp.thMin ≠ 0 :=
    (sub_pos.2 hlt).ne'
  refine ⟨⟨hgentle, hpos, hlt, ?_⟩, ?_, ?_⟩
  · generalize hr : (s.reset lm now).1 = r at hgentle hdiff ⊢
    have hedv : r.edv = resetEdv r.edp s.edv := by
      rw [← hr]
      rfl
    have hinv : r.edp.maxPInv = s.edp.maxPInv := by
      rw [← hr]
      exact hlinterm
    rw [hedv, resetEdv, Edv.coefficients]
    simp only [if_neg hdiff, if_pos hgentle, hinv]
  · rw [reset_isModifiedRed]
    exact hmod
  · show 1 / (resetEdp lm s.link s.qib s.edp).maxPInv = _
    rw [hlinterm]

/-- Over every run of a default queue in gentle mode, the law holds in every state
exactly when `linterm_` is at least 1 and no adaptive update moves `cur_max_p`. -/
theorem gentleLaw_iff_unmoved (lm : Libm) (s : REDQueue) (now : ℚ) (ops : List Op)
    (hmod : s.edp.isModifiedRed = false) (hgentle : (s.reset lm now).1.edp.gentle = true)
    (hpos : 0 < (s.reset lm now).1.edp.thMin)
    (hlt : (s.reset lm now).1.edp.thMin < (s.reset lm now).1.edp.thMax)
    (hlin : s.edp.maxPInv ≠ 0) :
    ((s.reset lm now).1.GentleLaw ∧
        AfterEach (redStep lm) GentleLaw (s.reset lm now).1 ops) ↔
      1 ≤ s.edp.maxPInv ∧ Along (redStep lm) KeepsStart (s.reset lm now).1 ops := by
  have hstart := reset_unmoved hmod hgentle hpos hlt
  generalize hr : (s.reset lm now).1 = r at hstart ⊢
  -- the maximum probability is one exactly when `linterm_` is at least 1
  have hunit : (0 ≤ 1 / s.edp.maxPInv ∧ 1 / s.edp.maxPInv ≤ 1) ↔ 1 ≤ s.edp.maxPInv := by
    constructor
    · rintro ⟨h0, h1⟩
      have hinv : 0 < s.edp.maxPInv := by
        rw [one_div, inv_nonneg] at h0
        exact lt_of_le_of_ne h0 hlin.symm
      rwa [div_le_one hinv] at h1
    · intro h
      have hinv : 0 < s.edp.maxPInv := by linarith
      exact ⟨by positivity, (div_le_one hinv).2 h⟩
  have hlaw : r.GentleLaw ↔ 1 ≤ s.edp.maxPInv := by
    constructor
    · intro h
      exact hunit.1 (hstart.mem_of_law hstart.curMaxP h)
    · intro h
      obtain ⟨h0, h1⟩ := hunit.2 h
      exact (hstart.law_iff h0 h1).2 hstart.curMaxP
  rw [hlaw]
  apply and_congr_right
  intro hge
  have hm := hunit.2 hge
  apply along_congr (Unmoved (1 / s.edp.maxPInv))
  · intro t op t' ht hkeeps hstep
    refine ⟨redStep_gentle ht.toGentle hstep, ?_, ?_⟩
    · rw [redStep_edp lm hstep]
      exact ht.isModifiedRed
    · exact (keepsStart_iff lm ht op).2 hkeeps t' hstep
  · intro t op ht
    exact keepsLaw_iff ht hm op
  · exact hstart

/-- Adaptive RED in gentle mode with `thresh_` 5, `maxthresh_` 15, `linterm_` 10 and
the other parameters at their defaults. -/
def gentleAdaptive : REDQueue where
  edp :=
    { meanPktsize := 500
      gentle := true
      thMinPkts := 5
      thMaxPkts := 15
      maxPInv := 10
      qW := 1 / 500
      adaptive := 1
      alpha := 1 / 100
      beta := 9 / 10
      interval := 1 / 2
      top := 1 / 2
      bottom := 1 / 100 }

/-- The same with an average that follows the queue length at once. -/
def gentleAtOnce : REDQueue :=
  { gentleAdaptive with edp := { gentleAdaptive.edp with qW := 1 } }

/-- Ten packets arrive before an update is due, and two more when one is. -/
def tenThenUpdates : List Op :=
  (List.range 10).map (fun k => .enque { uid := k, size := 1000 } ⟨0, 1 / 2, 0⟩) ++
    [.enque { uid := 10, size := 1000 } ⟨1, 1 / 2, 0⟩, .deque (3 / 2),
      .enque { uid := 11, size := 1000 } ⟨2, 1 / 2, 0⟩]

/-- Both updates find the average at 10, in the middle of the target range. -/
theorem gentleLaw_iff_unmoved_tenThenUpdates :
    (gentleAtOnce.reset zeroLibm 0).1.GentleLaw ∧
      AfterEach (redStep zeroLibm) GentleLaw (gentleAtOnce.reset zeroLibm 0).1 tenThenUpdates :=
  (gentleLaw_iff_unmoved zeroLibm gentleAtOnce 0 tenThenUpdates rfl rfl (by decide +kernel)
    (by decide +kernel) (by decide +kernel)).2 ⟨by decide +kernel, by decide +kernel⟩

/-- A packet that arrives at an empty queue after one second. -/
def oneUpdate : List Op := [.enque { uid := 0, size := 1000 } ⟨1, 1 / 2, 0⟩]

/-- The update lowers `cur_max_p` to 0.09, and the probability at `th_max` stays 0.1. -/
theorem oneUpdate_breaks_gentleLaw :
    ¬∀ (lm : Libm) (s : REDQueue) (now : ℚ) (ops : List Op),
      s.edp.isModifiedRed = false → (s.reset lm now).1.edp.gentle = true →
        0 < (s.reset lm now).1.edp.thMin →
        (s.reset lm now).1.edp.thMin < (s.reset lm now).1.edp.thMax → 1 ≤ s.edp.maxPInv →
        AfterEach (redStep lm) GentleLaw (s.reset lm now).1 ops := by
  intro hall
  have hrun := hall zeroLibm gentleAdaptive 0 oneUpdate rfl rfl (by decide +kernel)
    (by decide +kernel) (by decide +kernel)
  have hend : (runAll (redStep zeroLibm) (gentleAdaptive.reset zeroLibm 0).1 oneUpdate).map
      (fun s => decide (s.defaultProb s.edp.thMax = s.edv.curMaxP)) = .ok false := by
    decide +kernel
  cases hs : runAll (redStep zeroLibm) (gentleAdaptive.reset zeroLibm 0).1 oneUpdate with
  | error e =>
      rw [hs] at hend
      cases hend
  | ok s =>
      rw [hs] at hend
      have hlaw := hrun.of_runAll (by decide) hs
      exact of_decide_eq_false (Except.ok.inj hend) hlaw.at_thMax

end ComputerNetworking.Queue
