import ComputerNetworking.Queue.RedSpec
import ComputerNetworking.Foundations.Runs

/-!
# The maximum probability of modified RED

In modified mode every arrival that reaches `calculate_p_modifiedRed` with the
average below `buffer_size` multiplies `cur_max_p` by 0.9 below `k1` and adds
`min(0.01, cur_max_p/4)` to it above `k2`. There is no upper guard like the one
`updateMaxP` has with `top_`. `cur_max_p` stays in the open unit interval over a
run exactly when no raise starts from 0.99 or more
(`curMaxP_in_open_unit_iff`); `longOverload` is a run that leaves it.
-/

set_option autoImplicit false

namespace ComputerNetworking.Queue

open ComputerNetworking.Foundations

/-! ## The adjustment of one arrival -/

theorem raiseStep_pos_iff (m : ℚ) : 0 < m + raiseStep m ↔ 0 < m := by
  rw [raiseStep]
  split <;> constructor <;> intro h <;> linarith

/-- A raise of a positive `max_p` stays below 1 exactly when it starts below 0.99:
a start below 0.04 is raised by a quarter of itself, any other by 0.01. -/
theorem raiseStep_lt_one_iff (m : ℚ) : m + raiseStep m < 1 ↔ m < 99 / 100 := by
  rw [raiseStep]
  split <;> constructor <;> intro h <;> linarith

/-- The bound that `max_p` must be under for the adjustment to leave it under 1. -/
def adjustCeiling (vAve thMin bufferSize : ℚ) : ℚ :=
  if vAve < k1 thMin bufferSize then 10 / 9
  else if vAve > k2 thMin bufferSize then 99 / 100
  else 1

theorem adjustMaxP_in_open_unit_iff (vAve thMin m bufferSize : ℚ) :
    (0 < adjustMaxP vAve thMin m bufferSize ∧ adjustMaxP vAve thMin m bufferSize < 1) ↔
      0 < m ∧ m < adjustCeiling vAve thMin bufferSize := by
  rw [adjustMaxP, adjustCeiling]
  split
  · constructor
    · rintro ⟨h0, h1⟩
      constructor <;> linarith
    · rintro ⟨h0, h1⟩
      constructor <;> linarith
  · split
    · rw [raiseStep_pos_iff, raiseStep_lt_one_iff]
    · exact Iff.rfl

namespace REDQueue

/-- The states in which `enque` adjusts `cur_max_p` in modified mode. -/
def adjustsMaxP (s : REDQueue) : Prop :=
  s.reachesDropEarly ∧ s.edv.vAve < s.edp.bufferSize

instance (s : REDQueue) : Decidable s.adjustsMaxP :=
  inferInstanceAs (Decidable (s.reachesDropEarly ∧ s.edv.vAve < s.edp.bufferSize))

/-- In modified mode the threshold decision adjusts `cur_max_p` or leaves it. -/
theorem thresholdMaxP_modified {s : REDQueue} (hmod : s.edp.isModifiedRed = true) :
    s.thresholdMaxP =
      if s.adjustsMaxP then
        adjustMaxP s.edv.vAve s.edp.thMin s.edv.curMaxP s.edp.bufferSize
      else s.edv.curMaxP := by
  by_cases hr : s.reachesDropEarly
  · -- the first branch of the function is never taken: the queue is congested
    have hge : ¬s.edv.vAve < s.edp.thMin := not_lt.2 hr.1.1
    simp only [thresholdMaxP, adjustsMaxP, hr, if_true, true_and, earlyMaxP, calculateP, hmod,
      calculatePModifiedRed, if_neg hge]
    by_cases hb : s.edv.vAve ≥ s.edp.bufferSize
    · rw [if_pos hb, if_neg (not_lt.2 hb)]
    · rw [if_neg hb, if_pos (not_le.1 hb)]
  · simp only [thresholdMaxP, adjustsMaxP, hr, if_false, false_and]

/-- `cur_max_p` strictly between 0 and 1. -/
def MaxPInOpenUnit (s : REDQueue) : Prop := 0 < s.edv.curMaxP ∧ s.edv.curMaxP < 1

/-- The upper bound the arrival puts on the `cur_max_p` it starts from. -/
def maxPCeiling (s : REDQueue) : ℚ :=
  if s.adjustsMaxP then adjustCeiling s.edv.vAve s.edp.thMin s.edp.bufferSize else 1

end REDQueue

open REDQueue

/-- The call finds a `cur_max_p` that it keeps in the open unit interval: the value
after the adaptive update is positive, and below 0.99 when it is about to be
raised, below 10/9 when it is about to be lowered, below 1 otherwise. -/
def KeepsMaxP (s : REDQueue) : Op → Prop
  | .enque pkt d =>
      ¬(s.arrive pkt d.now).DividesByZero →
        0 < (s.arrive pkt d.now).edv.curMaxP ∧
          (s.arrive pkt d.now).edv.curMaxP < (s.arrive pkt d.now).maxPCeiling
  | .deque _ => True

instance (s : REDQueue) : DecidablePred (KeepsMaxP s)
  | .enque pkt d =>
      inferInstanceAs (Decidable (¬(s.arrive pkt d.now).DividesByZero → _ < _ ∧ _ < _))
  | .deque _ => isTrue trivial

theorem thresholdMaxP_in_open_unit_iff {s : REDQueue} (hmod : s.edp.isModifiedRed = true) :
    (0 < s.thresholdMaxP ∧ s.thresholdMaxP < 1) ↔
      0 < s.edv.curMaxP ∧ s.edv.curMaxP < s.maxPCeiling := by
  rw [thresholdMaxP_modified hmod, maxPCeiling]
  by_cases ha : s.adjustsMaxP
  · rw [if_pos ha, if_pos ha]
    exact adjustMaxP_in_open_unit_iff _ _ _ _
  · rw [if_neg ha, if_neg ha]

/-- No call changes the configuration. -/
theorem redStep_edp (lm : Libm) {s s' : REDQueue} {op : Op} (h : redStep lm s op = .ok s') :
    s'.edp = s.edp := by
  rcases redStep_cases h with ⟨now, -, rfl⟩ | ⟨pkt, d, out, -, he⟩
  · rw [REDQueue.deque]
    split
    · rfl
    · rfl
  · rw [(enque_ok lm he).frame]

/-- A departure leaves the variables alone. -/
theorem deque_edv (s : REDQueue) (now : ℚ) : (s.deque now).2.edv = s.edv := by
  rw [REDQueue.deque]
  split <;> rfl

/-- One call of a queue in modified mode keeps `cur_max_p` in the open unit
interval exactly when `KeepsMaxP` holds of it. -/
theorem keepsMaxP_iff (lm : Libm) {s : REDQueue} (hmod : s.edp.isModifiedRed = true)
    (hs : s.MaxPInOpenUnit) (op : Op) :
    (∀ s', redStep lm s op = .ok s' → s'.MaxPInOpenUnit) ↔ KeepsMaxP s op := by
  cases op with
  | deque now =>
      refine iff_of_true ?_ trivial
      intro s' h
      simp only [redStep_deque, Except.ok.injEq] at h
      subst h
      rw [MaxPInOpenUnit, deque_edv]
      exact hs
  | enque pkt d =>
      have hmod' : (s.arrive pkt d.now).edp.isModifiedRed = true := hmod
      simp only [redStep_enque, KeepsMaxP]
      rw [← thresholdMaxP_in_open_unit_iff hmod']
      cases he : s.enque lm pkt d with
      | error e =>
          have hdiv := (enque_error_iff lm).1 he
          simp [hdiv.1]
      | ok r =>
          obtain ⟨t, out⟩ := r
          have hno : ¬(s.arrive pkt d.now).DividesByZero := by
            intro hdiv
            rw [(enque_error_iff lm (e := .divideByZero)).2 ⟨hdiv, rfl⟩] at he
            simp at he
          have hmax := (enque_ok lm he).curMaxP
          simp only [Except.ok.injEq, forall_eq', hno, not_false_eq_true, true_implies]
          rw [MaxPInOpenUnit, hmax]

theorem reset_isModifiedRed (lm : Libm) (s : REDQueue) (now : ℚ) :
    (s.reset lm now).1.edp.isModifiedRed = s.edp.isModifiedRed := by
  show (resetEdp lm s.link s.qib s.edp).isModifiedRed = s.edp.isModifiedRed
  cases s.link <;> cases s.qib <;> rfl

/-- Over every run of a queue in modified mode from `reset` with `linterm_ > 1`,
`cur_max_p` stays strictly between 0 and 1 exactly when every call meets
`KeepsMaxP`. -/
theorem curMaxP_in_open_unit_iff (lm : Libm) (s : REDQueue) (now : ℚ) (ops : List Op)
    (hmod : s.edp.isModifiedRed = true) (hlin : 1 < s.edp.maxPInv) :
    AfterEach (redStep lm) MaxPInOpenUnit (s.reset lm now).1 ops ↔
      Along (redStep lm) KeepsMaxP (s.reset lm now).1 ops := by
  have hmod0 : (s.reset lm now).1.edp.isModifiedRed = true := by
    rw [reset_isModifiedRed]
    exact hmod
  have hmax0 : (s.reset lm now).1.edv.curMaxP = 1 / s.edp.maxPInv := by
    show 1 / (resetEdp lm s.link s.qib s.edp).maxPInv = _
    rw [resetEdp_maxPInv]
  have h0 : (s.reset lm now).1.MaxPInOpenUnit := by
    rw [MaxPInOpenUnit, hmax0]
    constructor
    · positivity
    · rw [div_lt_one (by linarith)]
      exact hlin
  -- the interval itself is part of the invariant: the next call starts in it
  symm
  apply along_congr fun t => t.edp.isModifiedRed = true ∧ t.MaxPInOpenUnit
  · intro t op t' ht hkeeps hstep
    constructor
    · rw [redStep_edp lm hstep]
      exact ht.1
    · exact hkeeps t' hstep
  · intro t op ht
    exact (keepsMaxP_iff lm ht.1 ht.2 op).symm
  · exact ⟨hmod0, h0⟩

/-! ## A run that leaves the interval -/

/-- A C library whose `exp` and `pow` are exact at exponent zero. Runs of a queue
with a given weight and `cautious_` off call neither. -/
def zeroLibm : Libm := ⟨fun _ => 1, fun _ _ => 1⟩

/-- `linterm_` 10 (a maximum probability of 0.1), `thresh_` 1, `buffer_size` 5, and
an average that follows the queue length at once. -/
def overloadedQueue : REDQueue where
  edp :=
    { meanPktsize := 500
      useMarkP := true
      gentle := true
      thMinPkts := 1
      thMaxPkts := 3
      maxPInv := 10
      qW := 1
      isModifiedRed := true
      bufferSize := 5 }

/-- 94 arrivals: four fill the queue, the other ninety are dropped early, each with
the average at 4, above `k2`. -/
def longOverload : List Op :=
  (List.range 94).map fun k =>
    .enque { uid := k, size := 1000 } ⟨0, if k < 4 then 1 / 2 else 1 / 100, 0⟩

/-- `cur_max_p` where a run ends; 0 for a run that crashes. -/
def finalMaxP (r : Except Crash REDQueue) : ℚ :=
  match r with
  | .ok s => s.edv.curMaxP
  | .error _ => 0

/-- After its first fifty arrivals the maximum probability is still below 1. -/
theorem curMaxP_in_open_unit_iff_overloaded :
    AfterEach (redStep zeroLibm) MaxPInOpenUnit (overloadedQueue.reset zeroLibm 0).1
        (longOverload.take 50) ∧
      finalMaxP (runAll (redStep zeroLibm) (overloadedQueue.reset zeroLibm 0).1
        (longOverload.take 50)) = 14 / 25 :=
  ⟨(curMaxP_in_open_unit_iff zeroLibm overloadedQueue 0 _ rfl
    (by norm_num [overloadedQueue])).2 (by decide +kernel), by decide +kernel⟩

/-- The ninety raises of `longOverload` take `cur_max_p` from 0.1 to 1. -/
theorem longOverload_leaves_open_unit :
    overloadedQueue.edp.isModifiedRed = true ∧ 1 < overloadedQueue.edp.maxPInv ∧
      ¬AfterEach (redStep zeroLibm) MaxPInOpenUnit (overloadedQueue.reset zeroLibm 0).1
        longOverload := by
  refine ⟨rfl, by norm_num [overloadedQueue], ?_⟩
  intro h
  have hne : longOverload ≠ [] := by simp [longOverload]
  have hend : 1 ≤ finalMaxP
      (runAll (redStep zeroLibm) (overloadedQueue.reset zeroLibm 0).1 longOverload) := by
    decide +kernel
  cases hrun : runAll (redStep zeroLibm) (overloadedQueue.reset zeroLibm 0).1 longOverload with
  | error e =>
      rw [hrun] at hend
      exact absurd hend (by norm_num [finalMaxP])
  | ok t =>
      rw [hrun] at hend
      have hlt := (h.of_runAll hne hrun).2
      exact absurd hlt (not_lt.2 hend)

end ComputerNetworking.Queue
