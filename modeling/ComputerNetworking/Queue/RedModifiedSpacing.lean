import ComputerNetworking.Queue.RedSpacing
import ComputerNetworking.Queue.RedMonotone

/-!
# The spacing of modified RED

`calculate_p_modifiedRed` divides by one minus count times probability, and `modify_p`
does so again with what comes out. From a drop on, with the average and `max_p` held
where they are, the first arrival is then dropped with probability `t / (1 - 2t)` and not
with `t / (1 - t)`. The law of RED holds exactly where it asks nothing of an arrival that
is not certain to be dropped, from `t = 1/2` on (`modified_spacing_iff`).
-/

set_option autoImplicit false

namespace ComputerNetworking.Queue

open ComputerNetworking.Foundations

/-- `v_prob1` of the `n`-th arrival after a drop, for the value `t` of `temp_p`. -/
def correctedBase (t : ℚ) (n : ℕ) : ℚ := correctedProb n t

theorem cubicBlend_ne_zero {vAve thMin maxP bufferSize : ℚ}
    (ht : 0 < tempP vAve thMin maxP bufferSize) :
    cubicBlend vAve thMin maxP bufferSize ≠ 0 := by
  intro h
  rw [tempP, h, div_zero] at ht
  exact lt_irrefl 0 ht

section First

variable {t : ℚ}

/-- The second correction, at the first arrival. -/
theorem spacedProb_first_of_lt (ht0 : 0 < t) (ht : t < 1 / 2) :
    spacedProb false (correctedBase t 1) 1 = min (t / (1 - 2 * t)) 1 := by
  have hpos : 0 < 1 - t := by linarith
  have hpos' : 0 < 1 - 2 * t := by linarith
  have hlt : t / (1 - t) < 1 := by
    rw [div_lt_one hpos]
    linarith
  have hbase : correctedBase t 1 = t / (1 - t) := by
    rw [correctedBase, correctedProb, Nat.cast_one, one_mul, if_neg hpos.ne']
    exact if_neg (not_lt.2 hlt.le)
  rw [hbase, spacedProb, clampOne_eq_min, spread]
  simp only [Bool.false_eq_true, if_false, one_mul, if_pos hlt]
  congr 1
  -- the two divisions make one
  rw [one_sub_div hpos.ne', div_div_div_cancel_right₀ hpos.ne']
  ring_nf

theorem spacedProb_first_of_ge (ht1 : t < 1) (ht : 1 / 2 ≤ t) :
    spacedProb false (correctedBase t 1) 1 = 1 := by
  have hpos : 0 < 1 - t := by linarith
  have hbase : correctedBase t 1 = 1 := by
    rw [correctedBase, correctedProb, Nat.cast_one, one_mul, if_neg hpos.ne', clampOne_eq_min]
    apply min_eq_right
    rw [one_le_div hpos]
    linarith
  rw [hbase, spacedProb, clampOne_eq_min, spread]
  simp

end First

namespace REDQueue

/-- Assumed of a modified queue and its next `N` arrivals: it has just dropped a packet,
counts packets, does not wait, uses neither of the cautious modes and does not mark in place
of dropping; each arrival reaches `drop_early` at a queue that is not full, with the average
at `v` between `k1` and `k2` and `cur_max_p` at `m`. -/
structure Steady (lm : Libm) (rounds : ℕ → Round) (s : REDQueue) (v m : ℚ) (N : ℕ) : Prop where
  modified : s.edp.isModifiedRed = true
  count : s.edv.count = 0
  bytes : s.edp.bytes = false
  wait : s.edp.wait = false
  cautious : s.edp.cautious ≠ 1 ∧ s.edp.cautious ≠ 2
  unmarked : s.edp.setbit = true → ∀ n, (rounds n).pkt.ect = false
  buffer : s.edp.thMin < s.edp.bufferSize
  between : k1 s.edp.thMin s.edp.bufferSize ≤ v ∧ v ≤ k2 s.edp.thMin s.edp.bufferSize
  arrives : ∀ x k t, k < N → Undropped lm rounds s x k t →
    let a := (t.departs (rounds (k + 1)).departures).arrive (rounds (k + 1)).pkt
      (rounds (k + 1)).now
    a.reachesDropEarly ∧ a.edv.vAve = v ∧ a.edv.curMaxP = m ∧ a.qlen < a.hardLimit

/-- The law of RED for the base probability `t`, over `N` arrivals: each arrival that is
not past the certain one is the first to be dropped with the same probability. -/
def UniformSpacing (lm : Libm) (rounds : ℕ → Round) (s : REDQueue) (t : ℚ) (N : ℕ) : Prop :=
  ∀ n : ℕ, 1 ≤ n → n ≤ N → (n + 1) * t ≤ 1 →
    draws.real {x | DropsFirstAt lm rounds s x n} = ((t / (1 - t) : ℚ) : ℝ)

section Law

variable {lm : Libm} {rounds : ℕ → Round} {s : REDQueue} {v m : ℚ} {N : ℕ}

theorem Steady.mono (h : Steady lm rounds s v m N) {M : ℕ} (hM : M ≤ N) :
    Steady lm rounds s v m M :=
  { h with arrives := fun x k t hk hu => h.arrives x k t (by omega) hu }

/-- The base probability of each arrival: the count is the number of arrivals kept. -/
theorem Steady.spacedBy (h : Steady lm rounds s v m N)
    (ht : 0 < tempP v s.edp.thMin m s.edp.bufferSize) :
    SpacedBy lm rounds s (correctedBase (tempP v s.edp.thMin m s.edp.bufferSize)) N := by
  induction N with
  | zero => exact ⟨h.count, h.bytes, h.cautious, h.unmarked, fun x k t hk _ => by omega⟩
  | succ N ih =>
      have hby := ih (h.mono (Nat.le_succ N))
      refine ⟨h.count, h.bytes, h.cautious, h.unmarked, ?_⟩
      intro x k t hk hu
      obtain ⟨hreach, hv, hm, hroom⟩ := h.arrives x k t hk hu
      refine ⟨hreach, ?_, hroom⟩
      obtain ⟨⟨hedp, hcount⟩, -⟩ := hby.undropped (by omega) hu
      obtain ⟨hdedp, hdedv⟩ := t.departs_edp_edv (rounds (k + 1)).departures
      have hedp' : ((t.departs (rounds (k + 1)).departures).arrive (rounds (k + 1)).pkt
          (rounds (k + 1)).now).edp = s.edp := hdedp.trans hedp
      have hcount' : ((t.departs (rounds (k + 1)).departures).arrive (rounds (k + 1)).pkt
          (rounds (k + 1)).now).edv.count = ((k + 1 : ℕ) : Int) := by
        rw [arrive_count, hdedv, hcount]
        rfl
      generalize (t.departs (rounds (k + 1)).departures).arrive (rounds (k + 1)).pkt
        (rounds (k + 1)).now = a at hreach hv hm hedp' hcount' ⊢
      obtain ⟨hk1, hk2⟩ := h.between
      have hbuffer := h.buffer
      -- between `k1` and `k2` the average is below the buffer size and `max_p` stays
      have hbelow : v < s.edp.bufferSize := by
        rw [k2] at hk2
        linarith
      have hstay : adjustMaxP v s.edp.thMin m s.edp.bufferSize = m := by
        rw [adjustMaxP, if_neg (not_lt.2 hk1), if_neg (not_lt.2 hk2)]
      have hmod : a.edp.isModifiedRed = true := by
        rw [hedp']
        exact h.modified
      rw [earlyProb1_modified hmod hreach, hedp', hv, hm, hcount', if_pos hbelow, hstay,
        Int.cast_natCast, clampAbove_countCorrected (cubicBlend_ne_zero ht), correctedBase]

/-- The first arrival is dropped with the probability of its draw. -/
theorem Steady.first (h : Steady lm rounds s v m N) (hN : 1 ≤ N)
    (ht : 0 < tempP v s.edp.thMin m s.edp.bufferSize)
    {q : ℚ} (hq : spacedProb false (correctedBase (tempP v s.edp.thMin m s.edp.bufferSize) 1) 1 = q)
    (hq0 : 0 ≤ q) (hq1 : q ≤ 1) :
    draws.real {x | DropsFirstAt lm rounds s x 1} = (q : ℝ) := by
  have hset : {x | DropsFirstAt lm rounds s x 1} = firstHit (fun _ => (q : ℝ)) 1 := by
    ext x
    have hiff := (h.spacedBy ht).dropsFirstAt_iff (x := x) le_rfl hN
    have hvalue : s.thresholds (correctedBase (tempP v s.edp.thMin m s.edp.bufferSize)) 1 = q := by
      rw [thresholds, h.wait, Nat.cast_one, hq]
    simp only [firstHit, Finset.Ico_self, Finset.notMem_empty, IsEmpty.forall_iff, implies_true,
      true_and, Set.mem_ofPred_eq, hvalue] at hiff ⊢
    exact hiff
  have hmem : ∀ _ : ℕ, 0 ≤ (q : ℝ) ∧ (q : ℝ) ≤ 1 := by
    intro _
    exact ⟨by exact_mod_cast hq0, by exact_mod_cast hq1⟩
  rw [hset, draws_firstHit hmem le_rfl, Finset.Ico_self, Finset.prod_empty, one_mul]

/-- Below one half the first arrival is dropped too often. -/
theorem Steady.not_uniform (h : Steady lm rounds s v m N) (hN : 1 ≤ N)
    (ht0 : 0 < tempP v s.edp.thMin m s.edp.bufferSize)
    (ht : tempP v s.edp.thMin m s.edp.bufferSize < 1 / 2) :
    ¬UniformSpacing lm rounds s (tempP v s.edp.thMin m s.edp.bufferSize) N := by
  intro hlaw
  have hfirst := h.first hN ht0 (spacedProb_first_of_lt ht0 ht)
  generalize tempP v s.edp.thMin m s.edp.bufferSize = t at ht0 ht hlaw hfirst
  have hpos : 0 < 1 - 2 * t := by linarith
  have hpos' : 0 < 1 - t := by linarith
  have hvalue := hfirst (le_min (by positivity) zero_le_one) (min_le_right _ _)
  rw [hlaw 1 le_rfl hN (by norm_num; linarith), Rat.cast_inj] at hvalue
  -- both terms of the minimum are larger than `t / (1 - t)`
  have hone : t / (1 - t) < 1 := by
    rw [div_lt_one hpos']
    linarith
  have htwo : t / (1 - t) < t / (1 - 2 * t) := by
    apply div_lt_div_of_pos_left ht0 hpos
    linarith
  exact absurd hvalue (lt_min htwo hone).ne

/-- From one half on the law asks for a drop at the first arrival at most. -/
theorem Steady.uniform (h : Steady lm rounds s v m N)
    (ht1 : tempP v s.edp.thMin m s.edp.bufferSize < 1)
    (ht : 1 / 2 ≤ tempP v s.edp.thMin m s.edp.bufferSize) :
    UniformSpacing lm rounds s (tempP v s.edp.thMin m s.edp.bufferSize) N := by
  intro n h1 hn hle
  have ht0 : 0 < tempP v s.edp.thMin m s.edp.bufferSize := by linarith
  have hfirst := h.first (h1.trans hn) ht0 (spacedProb_first_of_ge ht1 ht) zero_le_one le_rfl
  generalize tempP v s.edp.thMin m s.edp.bufferSize = t at ht0 ht hle hfirst
  have hcast : (1 : ℚ) ≤ n := by exact_mod_cast h1
  obtain rfl : n = 1 := by
    by_contra hne
    have htwo : (2 : ℚ) ≤ n := by exact_mod_cast (show 2 ≤ n by omega)
    nlinarith
  have hhalf : t = 1 / 2 := by
    norm_num at hle
    linarith
  rw [hfirst, hhalf]
  norm_num

end Law

end REDQueue

open REDQueue

/-- With the average and `max_p` held between `k1` and `k2`, the arrivals after a drop of
modified RED follow the law of RED for `temp_p` exactly when `temp_p` is at least one
half. -/
theorem modified_spacing_iff (lm : Libm) (rounds : ℕ → Round) (s : REDQueue) (v m : ℚ) (N : ℕ)
    (h : Steady lm rounds s v m N) (hN : 1 ≤ N)
    (ht0 : 0 < tempP v s.edp.thMin m s.edp.bufferSize)
    (ht1 : tempP v s.edp.thMin m s.edp.bufferSize < 1) :
    UniformSpacing lm rounds s (tempP v s.edp.thMin m s.edp.bufferSize) N ↔
      1 / 2 ≤ tempP v s.edp.thMin m s.edp.bufferSize := by
  constructor
  · intro hlaw
    by_contra hlt
    exact h.not_uniform hN ht0 (not_le.1 hlt) hlaw
  · intro ht
    exact h.uniform ht1 ht

/-- Thresholds 1 and 6, `max_p` 1/10, an average that follows the queue at once, and three
queued packets: the average stays at 3, between `k1` and `k2`. -/
def threeWaiting : REDQueue where
  edp := { meanPktsize := 1000, thMin := 1, thMax := 6, qW := 1, useMarkP := true,
           isModifiedRed := true, bufferSize := 6 }
  edv := { old := true, curMaxP := 1 / 10 }
  q := ⟨[{ uid := 10, size := 1000 }, { uid := 11, size := 1000 }, { uid := 12, size := 1000 }]⟩
  idle := false

/-- Thresholds 3/2 and 6, a `max_p` of 0.99, and four queued packets: the average stays at
4, and `temp_p` is above one half. -/
def fourWaiting : REDQueue :=
  { threeWaiting with
    edp := { threeWaiting.edp with thMin := 3 / 2 }
    edv := { old := true, curMaxP := 99 / 100 }
    q := ⟨{ uid := 9, size := 1000 } :: threeWaiting.q.packets⟩ }

theorem steady_fourWaiting : Steady zeroLibm steadyRounds fourWaiting 4 (99 / 100) 1 := by
  refine ⟨rfl, rfl, rfl, rfl, by decide, fun h => absurd h (by decide), by decide +kernel,
    by decide +kernel, ?_⟩
  intro x k t hk hu
  obtain rfl : k = 0 := by omega
  cases hu
  decide +kernel

theorem modified_spacing_iff_four :
    1 / 2 ≤ tempP 4 (3 / 2) (99 / 100) 6 ∧
      UniformSpacing zeroLibm steadyRounds fourWaiting (tempP 4 (3 / 2) (99 / 100) 6) 1 :=
  ⟨by decide +kernel,
    (modified_spacing_iff zeroLibm steadyRounds fourWaiting 4 (99 / 100) 1 steady_fourWaiting le_rfl
      (by decide +kernel) (by decide +kernel)).2 (by decide +kernel)⟩

theorem steady_threeWaiting : Steady zeroLibm steadyRounds threeWaiting 3 (1 / 10) 1 := by
  refine ⟨rfl, rfl, rfl, rfl, by decide, fun h => absurd h (by decide), by decide +kernel,
    by decide +kernel, ?_⟩
  intro x k t hk hu
  obtain rfl : k = 0 := by omega
  cases hu
  decide +kernel

/-- With three packets queued `temp_p` is below 1/100, and the first arrival is dropped too
often. -/
theorem threeWaiting_not_uniform : ¬∀ (lm : Libm) (rounds : ℕ → Round) (s : REDQueue) (v m : ℚ)
    (N : ℕ), Steady lm rounds s v m N → 0 < tempP v s.edp.thMin m s.edp.bufferSize →
      tempP v s.edp.thMin m s.edp.bufferSize < 1 →
      UniformSpacing lm rounds s (tempP v s.edp.thMin m s.edp.bufferSize) N := by
  intro hall
  apply steady_threeWaiting.not_uniform le_rfl (by decide +kernel) (by decide +kernel)
  exact hall zeroLibm steadyRounds threeWaiting 3 (1 / 10) 1 steady_threeWaiting
    (by decide +kernel) (by decide +kernel)

end ComputerNetworking.Queue
