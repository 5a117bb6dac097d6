import ComputerNetworking.Queue.RedMaxP

/-!
# The pole of the modified drop probability

`calculate_p_modifiedRed` divides twice: by the cubic blend and by
`1 - count * temp_p`. Its only clamp is from above, so past the pole of the
second quotient the probability is negative. `modify_p` guards the same
correction by `count1 * p < 1.0`. The two divisions are defined and `v_prob1`
and `v_prob` are probabilities along a run exactly when every arrival that
reaches the divisions has a count below the pole (`probabilities_sound_iff`).
-/

set_option autoImplicit false

namespace ComputerNetworking.Queue

open ComputerNetworking.Foundations
open REDQueue

/-! ## One evaluation -/

/-- The count lies below the pole. For a positive numerator `n` of `temp_p` and a
blend `d` this is `count < d / n`; at an average equal to `th_min` the
numerator is zero and only the blend matters; a negative numerator needs a
negative `max_p`. -/
def BelowPole (count vAve thMin maxP bufferSize : ℚ) : Prop :=
  (0 < cubicRise vAve thMin maxP ∧
      count * cubicRise vAve thMin maxP < cubicBlend vAve thMin maxP bufferSize) ∨
    (cubicRise vAve thMin maxP = 0 ∧ cubicBlend vAve thMin maxP bufferSize ≠ 0) ∨
    (cubicRise vAve thMin maxP < 0 ∧
      cubicBlend vAve thMin maxP bufferSize < count * cubicRise vAve thMin maxP)

instance (count vAve thMin maxP bufferSize : ℚ) :
    Decidable (BelowPole count vAve thMin maxP bufferSize) :=
  inferInstanceAs (Decidable (_ ∧ _ ∨ _ ∧ _ ∨ _ ∧ _))

/-- Both divisions of `calculate_p_modifiedRed` have a nonzero divisor. -/
def DivisorsNonzero (count vAve thMin maxP bufferSize : ℚ) : Prop :=
  cubicBlend vAve thMin maxP bufferSize ≠ 0 ∧
    1 - count * tempP vAve thMin maxP bufferSize ≠ 0

/-- A rational stored as a probability. -/
def IsProbability (p : Option ℚ) : Prop := ∃ x, p = some x ∧ 0 ≤ x ∧ x ≤ 1

/-- The quotient `n/d / (1 - c * (n/d))` over one division. -/
theorem corrected_eq {n d c : ℚ} (hd : d ≠ 0) : n / d / (1 - c * (n / d)) = n / (d - c * n) := by
  have h : 1 - c * (n / d) = (d - c * n) / d := by
    field_simp
  rw [h, div_div_div_cancel_right₀ hd]

theorem one_sub_ne_zero_iff {n d c : ℚ} (hd : d ≠ 0) : 1 - c * (n / d) ≠ 0 ↔ d - c * n ≠ 0 := by
  have h : 1 - c * (n / d) = (d - c * n) / d := by
    field_simp
  rw [h, div_ne_zero_iff]
  exact and_iff_left hd

/-- With a count that is not negative, both divisors are nonzero and the corrected
value is not negative exactly below the pole. -/
theorem belowPole_iff {count : ℚ} (hcount : 0 ≤ count) (vAve thMin maxP bufferSize : ℚ) :
    (DivisorsNonzero count vAve thMin maxP bufferSize ∧
        0 ≤ tempP vAve thMin maxP bufferSize /
          (1 - count * tempP vAve thMin maxP bufferSize)) ↔
      BelowPole count vAve thMin maxP bufferSize := by
  rw [DivisorsNonzero, BelowPole, tempP]
  generalize cubicRise vAve thMin maxP = n
  generalize cubicBlend vAve thMin maxP bufferSize = d
  constructor
  · rintro ⟨⟨hd, hc⟩, hp⟩
    rw [one_sub_ne_zero_iff hd] at hc
    rw [corrected_eq hd] at hp
    -- the quotient `n / (d - count * n)` is not negative when the signs agree
    rcases lt_trichotomy n 0 with hn | hn | hn
    · refine Or.inr (Or.inr ⟨hn, ?_⟩)
      rcases lt_or_gt_of_ne hc with h | h
      · linarith
      · exact absurd hp (not_le.2 (div_neg_of_neg_of_pos hn h))
    · exact Or.inr (Or.inl ⟨hn, hd⟩)
    · refine Or.inl ⟨hn, ?_⟩
      rcases lt_or_gt_of_ne hc with h | h
      · exact absurd hp (not_le.2 (div_neg_of_pos_of_neg hn h))
      · linarith
  · rintro (⟨hn, h⟩ | ⟨hn, hd⟩ | ⟨hn, h⟩)
    · have hcn : 0 ≤ count * n := mul_nonneg hcount hn.le
      have hd : d ≠ 0 := by linarith
      refine ⟨⟨hd, (one_sub_ne_zero_iff hd).2 (by linarith)⟩, ?_⟩
      rw [corrected_eq hd]
      exact div_nonneg hn.le (by linarith)
    · subst hn
      simp [hd]
    · have hcn : count * n ≤ 0 := mul_nonpos_of_nonneg_of_nonpos hcount hn.le
      have hd : d ≠ 0 := by linarith
      refine ⟨⟨hd, (one_sub_ne_zero_iff hd).2 (by linarith)⟩, ?_⟩
      rw [corrected_eq hd]
      exact div_nonneg_of_nonpos hn.le (by linarith)

/-- From a lower threshold of 1 on, a positive maximum probability of at most
`1 / (count + 1)` is below the pole. -/
theorem belowPole_of_count_le {count vAve thMin maxP bufferSize : ℚ} (hcount : 1 ≤ count)
    (hth : 1 ≤ thMin) (hv : thMin ≤ vAve) (hb : vAve < bufferSize) (hm : 0 < maxP)
    (hle : (count + 1) * maxP ≤ 1) : BelowPole count vAve thMin maxP bufferSize := by
  have htwo : (1 + 1) * maxP ≤ (count + 1) * maxP := by gcongr
  have hcube : (vAve - thMin) ^ 3 < (bufferSize - thMin) ^ 3 := by
    have hbase : 0 ≤ vAve - thMin := by linarith
    gcongr
  -- the second part of the blend is positive, the first larger than the numerator
  have hrest : 0 < maxP * (vAve - maxP) ^ 3 := by
    have hpos : 0 < vAve - maxP := by linarith
    positivity
  have hblend : (1 - maxP) * (vAve - thMin) ^ 3 < cubicBlend vAve thMin maxP bufferSize := by
    have hweight : 0 < 1 - maxP := by linarith
    have hfirst := mul_lt_mul_of_pos_left hcube hweight
    rw [cubicBlend]
    linarith
  rcases hv.eq_or_lt with rfl | hlt
  · rw [sub_self, zero_pow three_ne_zero, mul_zero] at hblend
    refine Or.inr (Or.inl ⟨?_, hblend.ne'⟩)
    rw [cubicRise, sub_self, zero_pow three_ne_zero, mul_zero]
  · have hrise : 0 < (vAve - thMin) ^ 3 := pow_pos (sub_pos.2 hlt) 3
    refine Or.inl ⟨mul_pos hm hrise, lt_of_le_of_lt ?_ hblend⟩
    rw [cubicRise, ← mul_assoc]
    gcongr
    linarith

theorem clampAbove_isProbability_iff (x : ℚ) : IsProbability (clampAbove (some x)) ↔ 0 ≤ x := by
  constructor
  · rintro ⟨y, hy, h0, -⟩
    simp only [clampAbove, Option.some.injEq] at hy
    split at hy <;> linarith
  · intro h
    refine ⟨_, rfl, ?_, ?_⟩ <;> split <;> linarith

/-- Below the pole is where the two divisors are nonzero and the clamped value is a
probability. -/
theorem countCorrected_sound_iff {count : ℚ} (hcount : 0 ≤ count)
    (vAve thMin maxP bufferSize : ℚ) :
    (DivisorsNonzero count vAve thMin maxP bufferSize ∧
        IsProbability (clampAbove (countCorrected vAve thMin count maxP bufferSize))) ↔
      BelowPole count vAve thMin maxP bufferSize := by
  rw [← belowPole_iff hcount]
  apply and_congr_right
  intro hdiv
  rw [countCorrected]
  simp only [if_neg hdiv.1, if_neg hdiv.2]
  exact clampAbove_isProbability_iff _

/-! ## The count correction of `modify_p` -/

theorem spread_nonneg (wait : Bool) {count1 : ℚ} {p : Option ℚ} (hp : IsProbability p) :
    0 ≤ spread wait count1 p := by
  obtain ⟨x, rfl, h0, -⟩ := hp
  rw [spread]
  -- each division is guarded by the comparison in front of it
  cases wait with
  | true =>
      simp only [if_true]
      split
      · exact le_refl 0
      · split
        · exact div_nonneg h0 (by linarith)
        · exact zero_le_one
  | false =>
      simp only [Bool.false_eq_true, if_false]
      split
      · exact div_nonneg h0 (by linarith)
      · exact zero_le_one

theorem scaleToSize_mem {bytes : Bool} {meanPktsize size : Nat} {p : ℚ} (hp : 0 ≤ p) :
    0 ≤ scaleToSize bytes meanPktsize size p ∧ scaleToSize bytes meanPktsize size p ≤ 1 := by
  rw [scaleToSize]
  have hscaled : 0 ≤ if bytes = true ∧ p < 1 then p * size / meanPktsize else p := by
    split
    · positivity
    · exact hp
  generalize (if bytes = true ∧ p < 1 then p * size / meanPktsize else p) = x at hscaled
  constructor <;> split <;> linarith

/-- `modify_p` turns a probability into a probability. -/
theorem modifyP_mem {p : Option ℚ} {count countBytes : Int} {bytes wait : Bool}
    {meanPktsize size : Nat} {x : ℚ} (hp : IsProbability p)
    (h : modifyP p count countBytes bytes meanPktsize wait size = .ok x) : 0 ≤ x ∧ x ≤ 1 := by
  rw [modifyP] at h
  cases ha : arrivalsSince count countBytes bytes meanPktsize with
  | error e =>
      rw [ha] at h
      simp at h
  | ok count1 =>
      simp only [ha, Except.ok.injEq] at h
      rw [← h]
      exact scaleToSize_mem (spread_nonneg wait hp)

/-! ## Runs -/

/-- `v_prob1` in modified mode, where `drop_early` is reached. -/
theorem earlyProb1_modified {s : REDQueue} (hmod : s.edp.isModifiedRed = true)
    (hr : s.reachesDropEarly) :
    s.earlyProb1 =
      if s.edv.vAve < s.edp.bufferSize then
        clampAbove (countCorrected s.edv.vAve s.edp.thMin s.edv.count
          (adjustMaxP s.edv.vAve s.edp.thMin s.edv.curMaxP s.edp.bufferSize) s.edp.bufferSize)
      else some 1 := by
  have hge : ¬s.edv.vAve < s.edp.thMin := not_lt.2 hr.1.1
  rw [earlyProb1, calculateP, if_pos hmod, calculatePModifiedRed, if_neg hge]
  by_cases hb : s.edv.vAve ≥ s.edp.bufferSize
  · rw [if_pos hb, if_neg (not_lt.2 hb)]
    rfl
  · rw [if_neg hb, if_pos (not_le.1 hb)]

/-- What the arrival computes is defined and is a probability: where `drop_early`
reaches the divisions both divisors are nonzero, `v_prob1` is a probability,
and so is `v_prob` if `modify_p` returns. -/
def SoundProbabilities (s : REDQueue) : Op → Prop
  | .enque pkt d =>
      let a := s.arrive pkt d.now
      a.reachesDropEarly →
        (a.edv.vAve < a.edp.bufferSize →
          DivisorsNonzero a.edv.count a.edv.vAve a.edp.thMin
            (adjustMaxP a.edv.vAve a.edp.thMin a.edv.curMaxP a.edp.bufferSize)
            a.edp.bufferSize) ∧
        IsProbability a.earlyProb1 ∧ ∀ p, a.earlyProb pkt = .ok p → 0 ≤ p ∧ p ≤ 1
  | .deque _ => True

/-- The arrival does not reach the divisions, or reaches them with a count below
the pole for its average and the adjusted `max_p`. -/
def AvoidsPole (s : REDQueue) : Op → Prop
  | .enque pkt d =>
      let a := s.arrive pkt d.now
      a.adjustsMaxP →
        BelowPole a.edv.count a.edv.vAve a.edp.thMin
          (adjustMaxP a.edv.vAve a.edp.thMin a.edv.curMaxP a.edp.bufferSize) a.edp.bufferSize
  | .deque _ => True

instance (s : REDQueue) : DecidablePred (AvoidsPole s)
  | .enque pkt d =>
      inferInstanceAs (Decidable ((s.arrive pkt d.now).adjustsMaxP → BelowPole _ _ _ _ _))
  | .deque _ => isTrue trivial

theorem isProbability_one : IsProbability (some 1) := ⟨1, rfl, zero_le_one, le_refl 1⟩

/-- One call of a queue in modified mode computes probabilities exactly when it
avoids the pole. -/
theorem soundProbabilities_iff {s : REDQueue} (hmod : s.edp.isModifiedRed = true)
    (hcount : 0 ≤ s.edv.count) (op : Op) : SoundProbabilities s op ↔ AvoidsPole s op := by
  cases op with
  | deque now => exact Iff.rfl
  | enque pkt d =>
      simp only [SoundProbabilities, AvoidsPole, adjustsMaxP]
      generalize ha : s.arrive pkt d.now = a
      have hmoda : a.edp.isModifiedRed = true := by rw [← ha]; exact hmod
      have hcounta : (0 : ℚ) ≤ a.edv.count := by
        rw [← ha, arrive_count]
        exact_mod_cast (by omega : (0 : Int) ≤ s.edv.count + 1)
      have hiff := countCorrected_sound_iff hcounta a.edv.vAve a.edp.thMin
        (adjustMaxP a.edv.vAve a.edp.thMin a.edv.curMaxP a.edp.bufferSize) a.edp.bufferSize
      constructor
      · rintro h ⟨hr, hlt⟩
        obtain ⟨hdiv, hp1, -⟩ := h hr
        rw [earlyProb1_modified hmoda hr, if_pos hlt] at hp1
        exact hiff.1 ⟨hdiv hlt, hp1⟩
      · intro h hr
        have hp1 : IsProbability a.earlyProb1 := by
          rw [earlyProb1_modified hmoda hr]
          split
          next hlt => exact (hiff.2 (h ⟨hr, hlt⟩)).2
          next hlt => exact isProbability_one
        exact ⟨fun hlt => (hiff.2 (h ⟨hr, hlt⟩)).1, hp1, fun p hp => modifyP_mem hp1 hp⟩

/-- The packet count since the last drop is never negative. -/
theorem redStep_count (lm : Libm) {s s' : REDQueue} {op : Op} (hs : 0 ≤ s.edv.count)
    (h : redStep lm s op = .ok s') : 0 ≤ s'.edv.count := by
  rcases redStep_cases h with ⟨now, -, rfl⟩ | ⟨pkt, d, out, -, he⟩
  · rw [deque_edv]
    exact hs
  · exact (enque_ok lm he).count hs

/-- Along every run of a queue in modified mode from `reset`, the arrivals compute
probabilities exactly when they avoid the pole. -/
theorem probabilities_sound_iff (lm : Libm) (s : REDQueue) (now : ℚ) (ops : List Op)
    (hmod : s.edp.isModifiedRed = true) :
    Along (redStep lm) SoundProbabilities (s.reset lm now).1 ops ↔
      Along (redStep lm) AvoidsPole (s.reset lm now).1 ops := by
  -- neither part of the invariant needs the pole to be avoided
  apply along_congr fun t => t.edp.isModifiedRed = true ∧ 0 ≤ t.edv.count
  · intro t op t' ht _ hstep
    constructor
    · rw [redStep_edp lm hstep]
      exact ht.1
    · exact redStep_count lm ht.2 hstep
  · intro t op ht
    exact soundProbabilities_iff ht.1 ht.2 op
  · constructor
    · rw [reset_isModifiedRed]
      exact hmod
    · exact le_refl _

/-- The arrival does not reach the divisions, or reaches them with a maximum probability of at
most `1 / (count + 1)`. -/
def FewSinceDrop (s : REDQueue) : Op → Prop
  | .enque pkt d =>
      let a := s.arrive pkt d.now
      let m := adjustMaxP a.edv.vAve a.edp.thMin a.edv.curMaxP a.edp.bufferSize
      a.adjustsMaxP → 0 < m ∧ (a.edv.count + 1) * m ≤ 1
  | .deque _ => True

/-- In a setting with a lower threshold of 1 or more, a run whose arrivals since the last drop
stay below `1 / max_p` computes probabilities. -/
theorem probabilities_sound_of_few (lm : Libm) (s : REDQueue) (now : ℚ) (ops : List Op)
    (hmod : s.edp.isModifiedRed = true) (hth : 1 ≤ (s.reset lm now).1.edp.thMin)
    (hfew : Along (redStep lm) FewSinceDrop (s.reset lm now).1 ops) :
    Along (redStep lm) SoundProbabilities (s.reset lm now).1 ops := by
  have hmod0 : (s.reset lm now).1.edp.isModifiedRed = true := by
    rw [reset_isModifiedRed]
    exact hmod
  refine @Along.of_invariant _ _ _ (redStep lm)
    (fun t => t.edp.isModifiedRed = true ∧ 1 ≤ t.edp.thMin ∧ 0 ≤ t.edv.count)
    FewSinceDrop SoundProbabilities ?_ ?_ _ _ ⟨hmod0, hth, le_refl _⟩ hfew
  · rintro t op t' ⟨hmodt, htht, hcount⟩ - hstep
    rw [redStep_edp lm hstep]
    exact ⟨hmodt, htht, redStep_count lm hcount hstep⟩
  · rintro t op ⟨hmodt, htht, hcount⟩ hop
    rw [soundProbabilities_iff hmodt hcount]
    cases op with
    | deque now => trivial
    | enque pkt d =>
        intro ha
        obtain ⟨hm, hle⟩ := hop ha
        obtain ⟨hreach, hbuffer⟩ := ha
        refine belowPole_of_count_le ?_ htht hreach.1.1 hbuffer hm hle
        rw [arrive_count]
        exact_mod_cast (by omega : (1 : Int) ≤ t.edv.count + 1)

/-! ## A burst -/

/-- The queue of `longOverload` with `linterm_` 1.05. -/
def steepQueue : REDQueue :=
  { overloadedQueue with edp := { overloadedQueue.edp with maxPInv := 21 / 20 } }

/-- The `k`-th of a burst of arrivals of 1000 bytes. -/
def burstArrival (k : Nat) : Op := .enque { uid := k, size := 1000 } ⟨0, 1 / 2, 0⟩

/-- `v_prob1` of the arrival of `pkt` where a run ends, if it calls `drop_early`. -/
def earlyProb1At (pkt : Packet) (r : Except Crash REDQueue) : Option ℚ :=
  match r with
  | .ok s =>
      let a := s.arrive pkt 0
      if a.reachesDropEarly then a.earlyProb1 else none
  | .error _ => none

/-- With `linterm_` 10 a burst of six arrivals stays below the pole: the fourth finds the
average at 3, the fifth at 4, the sixth at `buffer_size`. -/
theorem probabilities_sound_iff_gentle :
    earlyProb1At { uid := 3, size := 1000 } (runAll (redStep zeroLibm)
        (overloadedQueue.reset zeroLibm 0).1 ((List.range 3).map burstArrival)) =
      some (8000 / 584389) ∧
      Along (redStep zeroLibm) SoundProbabilities (overloadedQueue.reset zeroLibm 0).1
        ((List.range 6).map burstArrival) :=
  ⟨by decide +kernel,
    (probabilities_sound_iff zeroLibm overloadedQueue 0 _ rfl).2 (by decide +kernel)⟩

/-- With `linterm_` 1.05 the fourth of four arrivals finds the average at 3, a count of 2
and `temp_p` above one half: `v_prob1` is negative. -/
theorem burst_passes_pole :
    steepQueue.edp.isModifiedRed = true ∧
      (0 ≤ (steepQueue.reset zeroLibm 0).1.edp.thMin ∧
        (steepQueue.reset zeroLibm 0).1.edp.thMin < steepQueue.edp.bufferSize) ∧
      (0 < steepQueue.edp.qW ∧ steepQueue.edp.qW ≤ 1) ∧
      (0 < 1 / steepQueue.edp.maxPInv ∧ 1 / steepQueue.edp.maxPInv < 1) ∧
      ¬Along (redStep zeroLibm) SoundProbabilities (steepQueue.reset zeroLibm 0).1
        ((List.range 4).map burstArrival) := by
  refine ⟨rfl, ⟨by decide +kernel, by decide +kernel⟩, by norm_num [steepQueue, overloadedQueue],
    by norm_num [steepQueue, overloadedQueue], ?_⟩
  intro h
  have hneg : earlyProb1At { uid := 3, size := 1000 } (runAll (redStep zeroLibm)
      (steepQueue.reset zeroLibm 0).1 ((List.range 3).map burstArrival)) =
        some (-370440 / 195169) := by
    decide +kernel
  cases hrun : runAll (redStep zeroLibm) (steepQueue.reset zeroLibm 0).1
      ((List.range 3).map burstArrival) with
  | error e =>
      rw [hrun] at hneg
      cases hneg
  | ok s =>
      rw [hrun] at hneg
      simp only [earlyProb1At, Option.ite_none_right_eq_some] at hneg
      have hlast := Along.of_append [burstArrival 3] h hrun
      obtain ⟨q, hq, h0, -⟩ := (hlast.1 hneg.1).2.1
      rw [hneg.2, Option.some.injEq] at hq
      linarith

end ComputerNetworking.Queue
