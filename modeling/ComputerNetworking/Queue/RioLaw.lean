import ComputerNetworking.Queue.Rio
import ComputerNetworking.Queue.RedDefault
import ComputerNetworking.Foundations.Runs

/-!
# The drop law of a RIO queue in default mode

RIO hands `calculate_p` the inverse of the maximum probability, as the name of
the argument says. `calculate_p` hands it on to `calculate_p_new`, which
multiplies by it. So the slope of either half is `linterm_` where it should be
`1/linterm_`. `rio_law_iff` says for which slopes and averages the probability
is the documented one all the same.
-/

set_option autoImplicit false

namespace ComputerNetworking.Queue

open ComputerNetworking.Foundations

/-! ## The coefficients stay those of `reset` -/

/-- The coefficients `reset` computes for one half. -/
structure FitsReset (half : EdpRio) (maxPInv : ℚ) (edv : EdvRio) : Prop where
  vA : edv.vA = 1 / (half.thMax - half.thMin)
  vB : edv.vB = -half.thMin / (half.thMax - half.thMin)
  vC : half.gentle = true → edv.vC = (1 - 1 / maxPInv) / half.thMax
  vD : half.gentle = true → edv.vD = 2 / maxPInv - 1

theorem resetEdvRio_fits (half : EdpRio) (maxPInv : ℚ) (edv : EdvRio) :
    FitsReset half maxPInv (resetEdvRio half maxPInv edv) := by
  refine ⟨rfl, rfl, ?_, ?_⟩
  · intro hg
    simp only [resetEdvRio, hg, if_true]
  · intro hg
    simp only [resetEdvRio, hg, if_true]

/-- The coefficients of one half. -/
def EdvRio.coefficients (e : EdvRio) : ℚ × ℚ × ℚ × ℚ := (e.vA, e.vB, e.vC, e.vD)

theorem FitsReset.congr {half : EdpRio} {maxPInv : ℚ} {e e' : EdvRio}
    (h : FitsReset half maxPInv e) (he : e'.coefficients = e.coefficients) :
    FitsReset half maxPInv e' := by
  simp only [EdvRio.coefficients, Prod.mk.injEq] at he
  obtain ⟨hA, hB, hC, hD⟩ := he
  exact ⟨hA.trans h.vA, hB.trans h.vB, fun hg => hC.trans (h.vC hg), fun hg => hD.trans (h.vD hg)⟩

theorem dropHalfEarly_coefficients {edp : Edp} {edv edv' : Edv} {vAve : ℚ} {half : EdpRio}
    {maxPInv : ℚ} {e e' : EdvRio} {pkt pkt' : Packet} {u : ℚ} {b : Bool}
    (h : dropHalfEarly edp edv vAve half maxPInv e pkt u = .ok (edv', e', pkt', b)) :
    e'.coefficients = e.coefficients ∧
      e'.vProb1 =
        (calculateP edp edv vAve half.thMax half.gentle e.vA e.vB e.vC e.vD maxPInv).1 := by
  simp only [dropHalfEarly] at h
  split at h
  · simp at h
  · split at h
    · split at h <;>
      · simp only [Except.ok.injEq, Prod.mk.injEq] at h
        obtain ⟨-, rfl, -, -⟩ := h
        exact ⟨rfl, rfl⟩
    · simp only [Except.ok.injEq, Prod.mk.injEq] at h
      obtain ⟨-, rfl, -, -⟩ := h
      exact ⟨rfl, rfl⟩

theorem thresholdHalf_coefficients {edp : Edp} {edv edv' : Edv} {vAve : ℚ} {len : Int}
    {half : EdpRio} {maxPInv : ℚ} {e e' : EdvRio} {pkt pkt' : Packet} {u : ℚ} {d : DropType}
    (h : thresholdHalf edp edv vAve len half maxPInv e pkt u = .ok (edv', e', pkt', d)) :
    e'.coefficients = e.coefficients := by
  simp only [thresholdHalf] at h
  split at h
  · split at h
    · simp only [Except.ok.injEq, Prod.mk.injEq] at h
      rw [← h.2.1]
    · split at h
      · simp only [Except.ok.injEq, Prod.mk.injEq] at h
        rw [← h.2.1]
        rfl
      · cases he : dropHalfEarly edp edv vAve half maxPInv e pkt u with
        | error c =>
            rw [he] at h
            simp at h
        | ok r =>
            obtain ⟨edv'', e'', pkt'', b⟩ := r
            rw [he] at h
            have hcoef := (dropHalfEarly_coefficients he).1
            cases b <;>
            · simp only [Except.ok.injEq, Prod.mk.injEq] at h
              rw [← h.2.1]
              exact hcoef
  · simp only [Except.ok.injEq, Prod.mk.injEq] at h
    rw [← h.2.1]
    rfl

namespace RIOQueue

/-- What no call on the queue writes. -/
def fixed (s : RIOQueue) : Edp × EdpRio × EdpRio × (ℚ × ℚ × ℚ × ℚ) × (ℚ × ℚ × ℚ × ℚ) :=
  (s.edp, s.edpIn, s.edpOut, s.edvIn.coefficients, s.edvOut.coefficients)

@[simp] theorem fixed_forget (s : RIOQueue) (p : Packet) : (s.forget p).fixed = s.fixed := by
  rw [forget]
  split <;> rfl

@[simp] theorem fixed_join (s : RIOQueue) (p : Packet) (b : Bool) :
    (s.join p b).fixed = s.fixed := by
  cases b <;> rfl

@[simp] theorem fixed_setQ (s : RIOQueue) (q : PacketQueue) :
    fixed { s with q } = s.fixed := rfl

theorem settle_fixed {s s' : RIOQueue} {pkt : Packet} {r : Nat} {b : Bool} {d : DropType}
    {out : Option (Fate × Packet)} (h : s.settle pkt r b d = .ok (s', out)) :
    s'.fixed = s.fixed := by
  cases d with
  | unforced =>
      have hne : ¬(pickPacketForECN pkt).uid ≠ pkt.uid := fun h => h rfl
      rw [settle, if_neg hne] at h
      simp only [Except.ok.injEq, Prod.mk.injEq] at h
      rw [← h.1]
  | none =>
      simp only [settle, Except.ok.injEq, Prod.mk.injEq] at h
      rw [← h.1, fixed_join]
  | forced =>
      simp only [settle] at h
      split at h
      · simp at h
      · split at h
        · simp at h
        · simp only [Except.ok.injEq, Prod.mk.injEq] at h
          rw [← h.1]
          split
          · show fixed _ = _
            rw [show ∀ t : RIOQueue, t.clearCounts.fixed = t.fixed from fun _ => rfl]
            simp
          · simp

/-- Neither an arrival nor a departure writes what `fixed` lists. -/
theorem rioStep_fixed {s s' : RIOQueue} {op : Op} (h : rioStep s op = .ok s') :
    s'.fixed = s.fixed := by
  cases op with
  | deque now =>
      simp only [rioStep, Except.ok.injEq] at h
      rw [← h, deque, REDQueue.deque]
      cases hq : s.q.deque with
      | mk out q =>
          cases out with
          | none => rfl
          | some p =>
              simp only [fixed_forget]
              split <;> rfl
  | enque pkt d =>
      simp only [rioStep] at h
      cases he : s.enque pkt d with
      | error e =>
          rw [he] at h
          simp at h
      | ok r =>
          obtain ⟨t, out⟩ := r
          simp only [he, Except.ok.injEq] at h
          rw [← h]
          simp only [enque] at he
          generalize (if s.priorityMethod = 1 then { pkt with pri := (pkt.flowid % 256).toNat }
            else pkt) = p at he
          split at he
          · -- an In packet
            simp only [classifyIn] at he
            cases hth : thresholdHalf (s.arriveIn p d.now).edp (s.arriveIn p d.now).edv
                (s.arriveIn p d.now).edvIn.vAve (s.arriveIn p d.now).inQlen
                (s.arriveIn p d.now).edpIn (s.arriveIn p d.now).edpIn.maxPInv
                (s.arriveIn p d.now).edvIn p d.u with
            | error e => simp [hth] at he
            | ok r =>
                obtain ⟨edv, edvIn, p', dt⟩ := r
                rw [hth] at he
                rw [settle_fixed he]
                have hcoef := thresholdHalf_coefficients hth
                simp only [fixed, hcoef]
                rfl
          · -- an Out packet
            simp only [classifyOut] at he
            cases hth : thresholdHalf (s.arriveOut p).edp (s.arriveOut p).edv
                (s.arriveOut p).edv.vAve (s.arriveOut p).qlen (s.arriveOut p).edpOut
                (s.arriveOut p).edp.maxPInv (s.arriveOut p).edvOut p d.u with
            | error e => simp [hth] at he
            | ok r =>
                obtain ⟨edv, edvOut, p', dt⟩ := r
                rw [hth] at he
                rw [settle_fixed he]
                have hcoef := thresholdHalf_coefficients hth
                simp only [fixed, hcoef]
                rfl

/-- Both halves carry the coefficients of `reset`. -/
structure Configured (s : RIOQueue) : Prop where
  inHalf : FitsReset s.edpIn s.edpIn.maxPInv s.edvIn
  outHalf : FitsReset s.edpOut s.edp.maxPInv s.edvOut

theorem Configured.congr {s s' : RIOQueue} (h : s.Configured) (he : s'.fixed = s.fixed) :
    s'.Configured := by
  simp only [fixed, Prod.mk.injEq] at he
  obtain ⟨hedp, hin, hout, hcin, hcout⟩ := he
  refine ⟨?_, ?_⟩
  · rw [hin]
    exact h.inHalf.congr hcin
  · rw [hout, hedp]
    exact h.outHalf.congr hcout

theorem foldl_forget_fixed (ps : List Packet) (s : RIOQueue) :
    (ps.foldl forget s).fixed = s.fixed := by
  induction ps generalizing s with
  | nil => rfl
  | cons p ps ih =>
      rw [List.foldl_cons, ih, fixed_forget]

theorem reset_configured (lm : Libm) (s : RIOQueue) (now : ℚ) :
    (s.reset lm now).1.Configured := by
  have hfix := foldl_forget_fixed s.q.packets
    { s with
      edpIn := resetEdpRio s.qib s.edp s.edpIn
      edpOut := resetEdpRio s.qib s.edp s.edpOut
      edvIn := resetEdvRio (resetEdpRio s.qib s.edp s.edpIn)
        (resetEdpRio s.qib s.edp s.edpIn).maxPInv s.edvIn
      edvOut := resetEdvRio (resetEdpRio s.qib s.edp s.edpOut) s.edp.maxPInv s.edvOut
      inIdle := true }
  simp only [fixed, Prod.mk.injEq] at hfix
  obtain ⟨-, hin, hout, hcin, hcout⟩ := hfix
  have hlin : (s.reset lm now).1.edp.maxPInv = s.edp.maxPInv :=
    resetEdp_maxPInv lm s.link s.qib s.edp
  constructor
  · show FitsReset (List.foldl forget _ s.q.packets).edpIn
      (List.foldl forget _ s.q.packets).edpIn.maxPInv (List.foldl forget _ s.q.packets).edvIn
    rw [hin]
    exact (resetEdvRio_fits _ _ _).congr hcin
  · rw [hlin]
    show FitsReset (List.foldl forget _ s.q.packets).edpOut s.edp.maxPInv
      (List.foldl forget _ s.q.packets).edvOut
    rw [hout]
    exact (resetEdvRio_fits _ _ _).congr hcout

/-- Every state that a run from `reset` reaches is configured, in the mode and with
the slopes and thresholds `reset` left. -/
theorem run_configured {lm : Libm} {s t : RIOQueue} {now : ℚ} {ops : List Op}
    (h : runAll rioStep (s.reset lm now).1 ops = .ok t) :
    t.Configured ∧ t.fixed = (s.reset lm now).1.fixed := by
  have hfix : t.fixed = (s.reset lm now).1.fixed :=
    runAll_invariant (fun x => x.fixed = (s.reset lm now).1.fixed)
      (fun x op y hx hstep => (rioStep_fixed hstep).trans hx) rfl h
  exact ⟨(reset_configured lm s now).congr hfix, hfix⟩

/-! ## The law -/

/-- `v_prob1` of the In half for the state's In average. -/
def inProb1 (s : RIOQueue) : Option ℚ :=
  (calculateP s.edp s.edv s.edvIn.vAve s.edpIn.thMax s.edpIn.gentle s.edvIn.vA s.edvIn.vB
    s.edvIn.vC s.edvIn.vD s.edpIn.maxPInv).1

/-- `v_prob1` of the Out half for the state's total average. -/
def outProb1 (s : RIOQueue) : Option ℚ :=
  (calculateP s.edp s.edv s.edv.vAve s.edpOut.thMax s.edpOut.gentle s.edvOut.vA s.edvOut.vB
    s.edvOut.vC s.edvOut.vD s.edp.maxPInv).1

/-- `drop_in_early` stores `inProb1` in `edv_in_.v_prob1`. -/
theorem dropInEarly_vProb1 {s : RIOQueue} {pkt pkt' : Packet} {u : ℚ} {edv : Edv} {e : EdvRio}
    {b : Bool} (h : s.dropInEarly pkt u = .ok (edv, e, pkt', b)) : e.vProb1 = s.inProb1 :=
  (dropHalfEarly_coefficients h).2

/-- `drop_out_early` stores `outProb1` in `edv_out_.v_prob1`. -/
theorem dropOutEarly_vProb1 {s : RIOQueue} {pkt pkt' : Packet} {u : ℚ} {edv : Edv} {e : EdvRio}
    {b : Bool} (h : s.dropOutEarly pkt u = .ok (edv, e, pkt', b)) : e.vProb1 = s.outProb1 :=
  (dropHalfEarly_coefficients h).2

/-- The state with any two averages in place of its own. -/
def withAverages (s : RIOQueue) (aveIn ave : ℚ) : RIOQueue :=
  { s with edvIn := { s.edvIn with vAve := aveIn }, edv := { s.edv with vAve := ave } }

/-- The drop probability of one half in default mode, as a function of the average. -/
def halfProbability (half : EdpRio) (maxPInv : ℚ) (e : EdvRio) (ave : ℚ) : ℚ :=
  calculatePNew ave half.thMax half.gentle e.vA e.vB e.vC e.vD maxPInv

/-- The documented law: between the thresholds the In probability rises linearly to
`1/in_linterm_` and the Out probability stays under `1/linterm_`, and in gentle
mode there is no jump at the upper threshold. -/
structure DropLaw (s : RIOQueue) : Prop where
  inLinear : s.edpIn.thMin ≤ s.edvIn.vAve → s.edvIn.vAve < s.edpIn.thMax →
    ∃ p, s.inProb1 = some p ∧
      p = 1 / s.edpIn.maxPInv * ((s.edvIn.vAve - s.edpIn.thMin) /
        (s.edpIn.thMax - s.edpIn.thMin)) ∧
      p ≤ 1 / s.edpIn.maxPInv
  outBound : s.edpOut.thMin ≤ s.edv.vAve → s.edv.vAve < s.edpOut.thMax →
    ∃ p, s.outProb1 = some p ∧ p ≤ 1 / s.edp.maxPInv
  inGentle : s.edpIn.gentle = true →
    ContinuousWithinAt (halfProbability s.edpIn s.edpIn.maxPInv s.edvIn)
      (Set.Iio s.edpIn.thMax) s.edpIn.thMax
  outGentle : s.edpOut.gentle = true →
    ContinuousWithinAt (halfProbability s.edpOut s.edp.maxPInv s.edvOut)
      (Set.Iio s.edpOut.thMax) s.edpOut.thMax

/-- The slopes at which multiplying by `linterm_` does no harm. -/
structure SlopesAgree (s : RIOQueue) : Prop where
  inLinear : s.edpIn.thMin ≤ s.edvIn.vAve → s.edvIn.vAve < s.edpIn.thMax →
    s.edvIn.vAve = s.edpIn.thMin ∨ s.edpIn.maxPInv = 1
  outBound : s.edpOut.thMin ≤ s.edv.vAve → s.edv.vAve < s.edpOut.thMax →
    s.edp.maxPInv ^ 2 * (s.edv.vAve - s.edpOut.thMin) ≤ s.edpOut.thMax - s.edpOut.thMin
  inGentle : s.edpIn.gentle = true → s.edpIn.maxPInv = 1
  outGentle : s.edpOut.gentle = true → s.edp.maxPInv = 1

end RIOQueue

/-- A clamped product with the inverse slope is the documented value only at the
lower threshold, or at slope 1. -/
theorem clampOne_mul_eq_iff {x L : ℚ} (hx0 : 0 ≤ x) (hx1 : x < 1) (hL : 0 < L) :
    clampOne (x * L) = 1 / L * x ∧ clampOne (x * L) ≤ 1 / L ↔ x = 0 ∨ L = 1 := by
  have hle : 1 / L * x ≤ 1 / L := mul_le_of_le_one_right (by positivity) hx1.le
  constructor
  · rintro ⟨h, -⟩
    rw [clampOne] at h
    split at h
    next hgt =>
      -- `1 = x / L` would make the slope smaller than 1 and the product smaller too
      have hxL : x = L := by
        field_simp at h
        linarith
      nlinarith
    next hgt =>
      -- `x * L = x / L` leaves `x = 0` or `L * L = 1`
      have hsq : x * (L * L - 1) = 0 := by
        field_simp at h
        linarith
      rcases mul_eq_zero.1 hsq with h0 | h0
      · exact Or.inl h0
      · have hfac : (L - 1) * (L + 1) = 0 := by linarith
        rcases mul_eq_zero.1 hfac with h1 | h1
        · exact Or.inr (by linarith)
        · exact absurd h1 (by linarith)
  · rintro (rfl | rfl)
    · have h0 : clampOne (0 * L) = 0 := by
        rw [zero_mul, clampOne, if_neg (by norm_num)]
      rw [h0, mul_zero]
      exact ⟨rfl, by positivity⟩
    · have hx : clampOne (x * 1) = x := by
        rw [mul_one, clampOne, if_neg (by linarith)]
      rw [hx, div_one, one_mul]
      exact ⟨rfl, hx1.le⟩

theorem clampOne_mul_le_iff {x L : ℚ} (hx1 : x < 1) (hL : 0 < L) :
    clampOne (x * L) ≤ 1 / L ↔ L ^ 2 * x ≤ 1 := by
  rw [le_div_iff₀ hL, clampOne]
  split
  next hgt =>
    constructor
    · intro h
      nlinarith
    · intro h
      nlinarith
  next hgt =>
    constructor
    · intro h
      linarith
    · intro h
      linarith

/-- The gentle line starts at the clamp of `1/L`, the linear part ends at that of `L`. -/
theorem clampOne_inverse_iff {L : ℚ} (hL : 0 < L) : clampOne (1 / L) = clampOne L ↔ L = 1 := by
  constructor
  · intro h
    rw [clampOne, clampOne] at h
    rcases lt_trichotomy L 1 with hlt | heq | hgt
    · have hinv : 1 / L > 1 := by
        rw [gt_iff_lt, lt_div_iff₀ hL]
        linarith
      rw [if_pos hinv, if_neg (not_lt.2 hlt.le)] at h
      linarith
    · exact heq
    · have hinv : 1 / L < 1 := by
        rw [div_lt_one hL]
        exact hgt
      rw [if_neg (not_lt.2 hinv.le), if_pos hgt] at h
      linarith
  · rintro rfl
    rw [div_one]

namespace RIOQueue

section Halves

variable {half : EdpRio} {L : ℚ} {e : EdvRio} (hfit : FitsReset half L e)
  (hth : 0 ≤ half.thMin ∧ half.thMin < half.thMax) (hL : 0 < L)

include hfit

theorem halfProbability_linear {ave : ℚ} (h : ave < half.thMax) :
    halfProbability half L e ave = clampOne (rise half.thMin half.thMax ave * L) :=
  calculatePNew_linear hfit.vA hfit.vB h half.gentle e.vC e.vD L

include hth hL

theorem halfProbability_continuous_iff (hg : half.gentle = true) :
    ContinuousWithinAt (halfProbability half L e) (Set.Iio half.thMax) half.thMax ↔ L = 1 := by
  have hmax : half.thMax ≠ 0 := (lt_of_le_of_lt hth.1 hth.2).ne'
  -- the gentle line starts at the maximum probability itself
  have hline : e.vC * half.thMax + e.vD = 1 / L := by
    rw [hfit.vC hg, hfit.vD hg]
    field_simp
    ring
  have hfun : halfProbability half L e =
      fun ave => calculatePNew ave half.thMax true e.vA e.vB e.vC e.vD L := by
    funext ave
    rw [halfProbability, hg]
  rw [hfun, calculatePNew_continuous_iff hfit.vA hfit.vB hth.2, hline, clampOne_inverse_iff hL]

end Halves

/-- In every state a run from `reset` reaches in default mode, with any two averages
in it, the documented law holds exactly for the slopes and averages of
`SlopesAgree`. -/
theorem rio_law_iff (lm : Libm) (s t : RIOQueue) (now : ℚ) (ops : List Op) (aveIn ave : ℚ)
    (hrun : runAll rioStep (s.reset lm now).1 ops = .ok t)
    (hdefault : t.edp.isModifiedRed = false)
    (hin : 0 ≤ t.edpIn.thMin ∧ t.edpIn.thMin < t.edpIn.thMax)
    (hout : 0 ≤ t.edpOut.thMin ∧ t.edpOut.thMin < t.edpOut.thMax)
    (hinSlope : 0 < t.edpIn.maxPInv) (houtSlope : 0 < t.edp.maxPInv) :
    (t.withAverages aveIn ave).DropLaw ↔ (t.withAverages aveIn ave).SlopesAgree := by
  obtain ⟨⟨hfin, hfout⟩, -⟩ := run_configured hrun
  have hpin : (t.withAverages aveIn ave).inProb1 =
      some (halfProbability t.edpIn t.edpIn.maxPInv t.edvIn aveIn) := by
    simp only [inProb1, calculateP, withAverages, hdefault, Bool.false_eq_true, if_false]
    rfl
  have hpout : (t.withAverages aveIn ave).outProb1 =
      some (halfProbability t.edpOut t.edp.maxPInv t.edvOut ave) := by
    simp only [outProb1, calculateP, withAverages, hdefault, Bool.false_eq_true, if_false]
    rfl
  have hlin : t.edpIn.thMin ≤ aveIn → aveIn < t.edpIn.thMax →
      ((∃ p, (t.withAverages aveIn ave).inProb1 = some p ∧
          p = 1 / t.edpIn.maxPInv * rise t.edpIn.thMin t.edpIn.thMax aveIn ∧
          p ≤ 1 / t.edpIn.maxPInv) ↔ aveIn = t.edpIn.thMin ∨ t.edpIn.maxPInv = 1) := by
    intro h0 h1
    rw [hpin, halfProbability_linear hfin h1, ← rise_eq_zero_iff hin.2,
      ← clampOne_mul_eq_iff (rise_nonneg hin.2 h0) (rise_lt_one hin.2 h1) hinSlope]
    simp only [Option.some.injEq, exists_eq_left']
  have hbound : t.edpOut.thMin ≤ ave → ave < t.edpOut.thMax →
      ((∃ p, (t.withAverages aveIn ave).outProb1 = some p ∧ p ≤ 1 / t.edp.maxPInv) ↔
        t.edp.maxPInv ^ 2 * (ave - t.edpOut.thMin) ≤ t.edpOut.thMax - t.edpOut.thMin) := by
    intro h0 h1
    have hpos : 0 < t.edpOut.thMax - t.edpOut.thMin := sub_pos.2 hout.2
    rw [hpout, halfProbability_linear hfout h1]
    simp only [Option.some.injEq, exists_eq_left']
    rw [clampOne_mul_le_iff (rise_lt_one hout.2 h1) houtSlope, rise, mul_div_assoc',
      div_le_one hpos]
  -- the two structures agree field by field
  constructor
  · intro h
    constructor
    · intro h0 h1
      exact (hlin h0 h1).1 (h.inLinear h0 h1)
    · intro h0 h1
      exact (hbound h0 h1).1 (h.outBound h0 h1)
    · intro hg
      exact (halfProbability_continuous_iff hfin hin hinSlope hg).1 (h.inGentle hg)
    · intro hg
      exact (halfProbability_continuous_iff hfout hout houtSlope hg).1 (h.outGentle hg)
  · intro h
    constructor
    · intro h0 h1
      exact (hlin h0 h1).2 (h.inLinear h0 h1)
    · intro h0 h1
      exact (hbound h0 h1).2 (h.outBound h0 h1)
    · intro hg
      exact (halfProbability_continuous_iff hfin hin hinSlope hg).2 (h.inGentle hg)
    · intro hg
      exact (halfProbability_continuous_iff hfout hout houtSlope hg).2 (h.outGentle hg)

/-! ## The default configuration -/

/-- `ns-default.tcl`: `in_thresh_` 15, `in_maxthresh_` 30, `in_linterm_` 50,
`out_thresh_` 5, `out_maxthresh_` 15, `linterm_` 10. -/
def defaultRio : RIOQueue where
  edp :=
    { meanPktsize := 500
      wait := true
      useMarkP := true
      markP := 1 / 10
      thMinPkts := 5
      thMaxPkts := 15
      qW := 2 / 1000
      maxPInv := 10 }
  edpIn := { thMin := 15, thMax := 30, maxPInv := 50 }
  edpOut := { thMin := 5, thMax := 15 }

/-- The state the default configuration starts in. -/
def defaultRioStart : RIOQueue := (defaultRio.reset ⟨fun _ => 1, fun _ _ => 1⟩ 0).1

/-- With the In average below its lower threshold and the other just above, the default
configuration keeps to the law. -/
theorem rio_law_iff_default : (defaultRioStart.withAverages 10 (101 / 20)).DropLaw := by
  refine (rio_law_iff ⟨fun _ => 1, fun _ _ => 1⟩ defaultRio defaultRioStart 0 [] 10 (101 / 20) rfl
    rfl ⟨by decide +kernel, by decide +kernel⟩ ⟨by decide +kernel, by decide +kernel⟩
    (by decide +kernel) (by decide +kernel)).2 ⟨?_, ?_, ?_, ?_⟩
  all_goals decide +kernel

/-- With the In average at 20 the default configuration computes the probability 1
where the law says `1/50 * (20 - 15) / (30 - 15)`. -/
theorem defaultRio_breaks_law :
    defaultRioStart.edp.isModifiedRed = false ∧
      ¬(defaultRioStart.withAverages 20 4).DropLaw := by
  refine ⟨rfl, ?_⟩
  intro h
  obtain ⟨p, hp, -, hle⟩ := h.inLinear (by decide +kernel) (by decide +kernel)
  have hone : (defaultRioStart.withAverages 20 4).inProb1 = some 1 := by decide +kernel
  have hslope : (defaultRioStart.withAverages 20 4).edpIn.maxPInv = 50 := by decide +kernel
  rw [hone, Option.some.injEq] at hp
  rw [← hp, hslope] at hle
  norm_num at hle

end RIOQueue

end ComputerNetworking.Queue
