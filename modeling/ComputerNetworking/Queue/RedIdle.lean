import ComputerNetworking.Queue.Blocking
import ComputerNetworking.Queue.RedLimit

/-!
# The idle queue

`deque` sets `idle_` when it finds the queue empty and `enque` clears it. So an idle
queue is empty, and the packet that ends the idle period is enqueued, unless the hard
limit is zero because bytes are counted and `mean_pktsize` is 0 (`idle_accepts_iff`).
For the `m` packet times of the period the estimator of default mode stands in for
`m` arrivals at an empty queue; the one of modified mode does not look at `m`
(`average_after_idle_iff`).
-/

set_option autoImplicit false

namespace ComputerNetworking.Queue

open ComputerNetworking.Foundations

/-! ## The packet that ends an idle period -/

namespace REDQueue

/-- An idle queue has no packets. -/
def IdleEmpty (s : REDQueue) : Prop := s.idle = true → s.q.packets = []

/-- An idle queue has no packets, and whatever arrives at it joins without a drop. -/
def IdleAccepts (lm : Libm) (s : REDQueue) : Prop :=
  s.idle = true → s.q.packets = [] ∧
    ∀ pkt d, ∃ s', s.enque lm pkt d = .ok (s', none) ∧ s'.q.packets = [pkt]

/-- `idle_` is set with the queue empty, and cleared with the arrival. -/
theorem redStep_idleEmpty {lm : Libm} {s s' : REDQueue} {op : Op}
    (h : redStep lm s op = .ok s') : s'.IdleEmpty := by
  rcases redStep_cases h with ⟨now, -, rfl⟩ | ⟨pkt, d, out, -, he⟩
  · intro hidle
    cases hq : s.q.packets with
    | nil =>
        rw [deque, PacketQueue.uids_deque_of_nil hq]
        exact hq
    | cons p rest =>
        rw [deque, PacketQueue.deque_of_cons hq] at hidle
        cases hidle
  · intro hidle
    rw [(enque_ok lm he).frame] at hidle
    cases hidle

/-- A forced drop hands a packet on. -/
theorem settle_forced_out {s s' : REDQueue} {pkt : Packet} {r : Nat}
    {out : Option (Fate × Packet)} (h : s.settle pkt r .forced = .ok (s', out)) :
    ∃ victim, out = some (.drop, victim) := by
  simp only [settle] at h
  split at h
  · cases h
  next victim _ =>
    split at h
    · cases h
    · cases h
      exact ⟨victim, rfl⟩

/-- An arrival at a full queue makes it drop a packet. -/
theorem enque_full {lm : Libm} {s s' : REDQueue} {pkt : Packet} {d : Draw}
    {out : Option (Fate × Packet)} (hfull : s.hardLimit ≤ s.qlen)
    (h : s.enque lm pkt d = .ok (s', out)) : out ≠ none := by
  rw [enque] at h
  cases hc : (s.arrive pkt d.now).classify lm pkt d.u with
  | error e =>
      rw [hc] at h
      cases h
  | ok r =>
      obtain ⟨t, p, dt⟩ := r
      rw [hc] at h
      have hforced : dt = .forced := (classify_size lm hc).2 hfull
      subst hforced
      obtain ⟨victim, rfl⟩ := settle_forced_out h
      exact Option.some_ne_none _

/-- What decides whether an idle queue takes the next packet. -/
theorem idleAccepts_iff {lm : Libm} {s : REDQueue} (hs : s.IdleEmpty) (hidle : s.idle = true) :
    s.IdleAccepts lm ↔ 1 ≤ s.hardLimit := by
  have hempty := hs hidle
  constructor
  · intro h
    obtain ⟨s', he, -⟩ := (h hidle).2 { uid := 0, size := 0 } ⟨0, 0, 0⟩
    by_contra hlow
    have hqlen : s.qlen = 0 := by
      rw [qlen]
      simp [PacketQueue.byteLength, PacketQueue.length, hempty]
    apply enque_full ?_ he rfl
    omega
  · intro hlimit _
    exact ⟨hempty, fun pkt d => enque_of_empty lm hempty hlimit pkt d⟩

end REDQueue

open REDQueue

/-- No call changes the limits. -/
theorem redStep_hardLimit {lm : Libm} {s s' : REDQueue} {op : Op}
    (h : redStep lm s op = .ok s') : s'.hardLimit = s.hardLimit := by
  have hedp := redStep_edp lm h
  rw [hardLimit, hardLimit, hedp]
  rcases redStep_cases h with ⟨now, -, rfl⟩ | ⟨pkt, d, out, -, he⟩
  · obtain ⟨q, idle, idletime, hframe, -⟩ := deque_frame s now
    rw [hframe]
  · rw [(enque_ok lm he).frame]

/-- With a positive `qlim_`, in every state a queue reaches from `reset` it takes the
packet that arrives while it is idle, exactly when it counts packets or has a
positive mean packet size. -/
theorem idle_accepts_iff (lm : Libm) (s : REDQueue) (hlimit : 1 ≤ s.qlim) :
    (∀ now ops t, runAll (redStep lm) (s.reset lm now).1 ops = .ok t → t.IdleAccepts lm) ↔
      (s.qib = true → 1 ≤ s.edp.meanPktsize) := by
  have hmean : (resetEdp lm s.link s.qib s.edp).meanPktsize = s.edp.meanPktsize := by
    cases s.link <;> cases s.qib <;> rfl
  have hstart : ∀ now, (s.reset lm now).1.hardLimit = s.hardLimit := by
    intro now
    show (if s.qib then s.qlim * ((resetEdp lm s.link s.qib s.edp).meanPktsize : Int)
      else s.qlim) = s.hardLimit
    rw [hmean, hardLimit]
  constructor
  · intro hall hqib
    -- the queue is idle to begin with
    have haccepts := hall 0 [] (s.reset lm 0).1 rfl
    have hpos : 1 ≤ s.hardLimit := by
      rw [← hstart 0]
      exact (idleAccepts_iff (fun _ => rfl) rfl).1 haccepts
    rw [hardLimit, if_pos hqib] at hpos
    by_contra hzero
    have hzero' : s.edp.meanPktsize = 0 := by omega
    rw [hzero', Nat.cast_zero, mul_zero] at hpos
    omega
  · intro hbytes now ops t hrun hidle
    have hinv : t.IdleEmpty ∧ t.hardLimit = s.hardLimit := by
      apply runAll_invariant (fun t => t.IdleEmpty ∧ t.hardLimit = s.hardLimit) ?_ ?_ hrun
      · intro a op b ha hstep
        exact ⟨redStep_idleEmpty hstep, (redStep_hardLimit hstep).trans ha.2⟩
      · exact ⟨fun _ => rfl, hstart now⟩
    obtain ⟨hempty, hsame⟩ := hinv
    have hpos := Station.one_le_hardLimit hlimit hbytes
    rw [← hsame] at hpos
    exact (idleAccepts_iff hempty hidle).2 hpos hidle

/-- A queue in bytes with a mean packet size. -/
def byteQueue (meanPktsize : ℕ) : REDQueue where
  edp := { meanPktsize, thMinPkts := 5, thMaxPkts := 15, maxPInv := 10, qW := 1 / 500 }
  qib := true

/-- A packet comes and goes, and the next call finds the queue empty. -/
def comesAndGoes : List Op :=
  [.enque { uid := 0, size := 1000 } ⟨1, 1 / 2, 0⟩, .deque 2, .deque 3]

/-- With 500 bytes on average the queue is idle then, and takes the next packet. -/
theorem idle_accepts_iff_bytes :
    ∃ t, runAll (redStep zeroLibm) ((byteQueue 500).reset zeroLibm 0).1 comesAndGoes = .ok t ∧
      t.idle = true ∧ t.IdleAccepts zeroLibm := by
  have hidle : (runAll (redStep zeroLibm) ((byteQueue 500).reset zeroLibm 0).1 comesAndGoes).map
      REDQueue.idle = .ok true := by
    decide +kernel
  cases hrun : runAll (redStep zeroLibm) ((byteQueue 500).reset zeroLibm 0).1 comesAndGoes with
  | error e =>
      rw [hrun] at hidle
      cases hidle
  | ok t =>
      rw [hrun] at hidle
      refine ⟨t, rfl, Except.ok.inj hidle, ?_⟩
      exact (idle_accepts_iff zeroLibm (byteQueue 500) (by decide)).2 (by decide) 0 _ t hrun

/-- With a mean packet size of 0 the first packet is dropped. -/
theorem weightless_drops_first : ¬∀ (lm : Libm) (s : REDQueue), 1 ≤ s.qlim →
    ∀ now ops t, runAll (redStep lm) (s.reset lm now).1 ops = .ok t → t.IdleAccepts lm := by
  intro hall
  have haccepts := hall zeroLibm (byteQueue 0) (by decide) 0 []
    ((byteQueue 0).reset zeroLibm 0).1 rfl
  obtain ⟨s', he, -⟩ := (haccepts rfl).2 { uid := 0, size := 1000 } ⟨0, 1 / 2, 0⟩
  have hout : (((byteQueue 0).reset zeroLibm 0).1.enque zeroLibm { uid := 0, size := 1000 }
      ⟨0, 1 / 2, 0⟩).map Prod.snd = .ok (some (.drop, { uid := 0, size := 1000 })) := by
    decide +kernel
  rw [he] at hout
  cases hout

/-! ## The average after an idle period -/

/-- The estimator called once for each arrival, with the queue length it finds and the
clock. -/
def estimates (edp : Edp) (qW : ℚ) : ℚ × Edv → List (Int × ℚ) → ℚ × Edv
  | r, [] => r
  | (ave, edv), (nqueued, now) :: calls =>
      estimates edp qW (estimator edp edv nqueued 1 ave qW now) calls

/-- In both modes one arrival moves the average by the weight. -/
theorem newAverage_one (edp : Edp) (nqueued : Int) (ave qW : ℚ) :
    newAverage edp nqueued 1 ave qW = (1 - qW) * ave + qW * nqueued := by
  rw [newAverage]
  split
  · rfl
  · show ave * (1 - qW) + qW * nqueued = _
    rw [mul_comm ave]

theorem decay_eq (qW : ℚ) (n : ℕ) (ave : ℚ) : decay qW n ave = (1 - qW) ^ n * ave := by
  induction n generalizing ave with
  | zero => rw [decay, pow_zero, one_mul]
  | succ n ih =>
      rw [decay, ih]
      ring

/-- After `m` packet times the default estimator has decayed the average once for each
and once for the arrival. -/
theorem newAverage_default {edp : Edp} (hmod : edp.isModifiedRed = false) (nqueued : Int) (m : ℕ)
    (ave qW : ℚ) :
    newAverage edp nqueued (m + 1) ave qW = (1 - qW) ^ (m + 1) * ave + qW * nqueued := by
  have hmod' : ¬edp.isModifiedRed = true := by simp [hmod]
  have hturns : ((m : Int) + 1 - 1).toNat = m := by omega
  rw [newAverage, if_neg hmod', hturns, decay_eq]
  ring

/-- The modified estimator makes one step whatever `m` is. -/
theorem newAverage_modified {edp : Edp} (hmod : edp.isModifiedRed = true) (nqueued m : Int)
    (ave qW : ℚ) : newAverage edp nqueued m ave qW = (1 - qW) * ave + qW * nqueued := by
  rw [newAverage, if_pos hmod]

theorem estimates_append (edp : Edp) (qW : ℚ) (calls calls' : List (Int × ℚ)) (r : ℚ × Edv) :
    estimates edp qW r (calls ++ calls') =
      estimates edp qW (estimates edp qW r calls) calls' := by
  induction calls generalizing r with
  | nil => rw [List.nil_append, estimates]
  | cons call calls ih =>
      rw [List.cons_append, estimates, estimates]
      exact ih _

/-- Arrivals that all find the queue empty. -/
theorem estimates_empty (edp : Edp) (qW : ℚ) (times : List ℚ) (r : ℚ × Edv) :
    (estimates edp qW r (times.map fun t => (0, t))).1 = (1 - qW) ^ times.length * r.1 := by
  induction times generalizing r with
  | nil => rw [List.map_nil, estimates, List.length_nil, pow_zero, one_mul]
  | cons t times ih =>
      rw [List.map_cons, estimates, ih, List.length_cons]
      -- the adaptive update of a call does not touch the average
      show _ * newAverage edp 0 1 r.1 qW = _
      rw [newAverage_one, Int.cast_zero, mul_zero, add_zero]
      ring

/-- An idle period of one arrival at an empty queue for each of `times`, and the
arrival that ends it. -/
theorem estimates_idle (edp : Edp) (qW : ℚ) (times : List ℚ) (r : ℚ × Edv) (nqueued : Int)
    (now : ℚ) :
    (estimates edp qW r ((times.map fun t => (0, t)) ++ [(nqueued, now)])).1 =
      (1 - qW) ^ (times.length + 1) * r.1 + qW * nqueued := by
  rw [estimates_append, estimates, estimates]
  show newAverage edp nqueued 1 _ qW = _
  rw [newAverage_one, estimates_empty]
  ring

/-- One step of decay is as good as `m + 1` of them exactly in these cases. -/
theorem decay_once_iff {qW : ℚ} (h0 : 0 ≤ qW) (h1 : qW ≤ 1) (m : ℕ) (ave : ℚ) :
    (1 - qW) * ave = (1 - qW) ^ (m + 1) * ave ↔ m = 0 ∨ qW = 0 ∨ qW = 1 ∨ ave = 0 := by
  constructor
  · intro h
    have hprod : (1 - qW) * ave * (1 - (1 - qW) ^ m) = 0 := by
      rw [pow_succ] at h
      linarith
    rcases mul_eq_zero.1 hprod with hfirst | hpow
    · rcases mul_eq_zero.1 hfirst with hq | ha
      · exact Or.inr (Or.inr (Or.inl (by linarith)))
      · exact Or.inr (Or.inr (Or.inr ha))
    · by_cases hm : m = 0
      · exact Or.inl hm
      · have hone : (1 - qW) ^ m = 1 := by linarith
        have hbase := (pow_eq_one_iff_of_nonneg (sub_nonneg.2 h1) hm).1 hone
        exact Or.inr (Or.inl (by linarith))
  · rintro (rfl | rfl | rfl | rfl)
    · rw [zero_add, pow_one]
    · rw [sub_zero, one_pow]
    · rw [sub_self, zero_mul, zero_pow (Nat.succ_ne_zero m), zero_mul]
    · rw [mul_zero, mul_zero]

/-- The average `enque` computes after `m` idle packet times, against the estimator run
for `m` arrivals at an empty queue and then for this one: the run ends at
`(1 - q_w)^(m+1) * ave + q_w * n`, and the two agree exactly in default mode or when
the `m` arrivals would not have mattered. -/
theorem average_after_idle_iff (s : REDQueue) (pkt : Packet) (now : ℚ) (m : ℕ) (times : List ℚ)
    (h0 : 0 ≤ s.edp.qW) (h1 : s.edp.qW ≤ 1) (hm : s.idlePackets now = m)
    (htimes : times.length = m) :
    (estimates s.edp s.edp.qW (s.edv.vAve, s.edv)
        ((times.map fun t => (0, t)) ++ [(s.qlen, now)])).1 =
      (1 - s.edp.qW) ^ (m + 1) * s.edv.vAve + s.edp.qW * s.qlen ∧
    ((s.arrive pkt now).edv.vAve =
        (estimates s.edp s.edp.qW (s.edv.vAve, s.edv)
          ((times.map fun t => (0, t)) ++ [(s.qlen, now)])).1 ↔
      s.edp.isModifiedRed = false ∨ m = 0 ∨ s.edp.qW = 0 ∨ s.edp.qW = 1 ∨ s.edv.vAve = 0) := by
  have hrun := estimates_idle s.edp s.edp.qW times (s.edv.vAve, s.edv) s.qlen now
  rw [htimes] at hrun
  refine ⟨hrun, ?_⟩
  rw [hrun]
  have hcall : (s.arrive pkt now).edv.vAve =
      newAverage s.edp s.qlen (m + 1) s.edv.vAve s.edp.qW := by
    rw [← hm]
    rfl
  rw [hcall]
  cases hmod : s.edp.isModifiedRed with
  | false =>
      rw [newAverage_default hmod]
      exact iff_of_true rfl (Or.inl rfl)
  | true =>
      rw [newAverage_modified hmod, add_left_inj]
      simp only [Bool.true_eq_false, false_or]
      exact decay_once_iff h0 h1 m s.edv.vAve

/-- A queue that has been idle for one packet time with an average of 4. -/
def idleQueue (isModifiedRed : Bool) : REDQueue where
  edp := { meanPktsize := 500, qW := 1 / 2, isModifiedRed, bufferSize := 80, ptc := 1 }
  edv := { vAve := 4 }

/-- In default mode the average decays twice, from 4 to 1. -/
theorem average_after_idle_iff_default :
    (estimates (idleQueue false).edp (1 / 2) (4, (idleQueue false).edv) [(0, 1 / 2), (0, 1)]).1 =
        (1 - 1 / 2) ^ 2 * 4 + 1 / 2 * 0 ∧
      ((idleQueue false).arrive { uid := 0, size := 1000 } 1).edv.vAve =
        (estimates (idleQueue false).edp (1 / 2) (4, (idleQueue false).edv)
          [(0, 1 / 2), (0, 1)]).1 := by
  obtain ⟨hvalue, hiff⟩ := average_after_idle_iff (idleQueue false) { uid := 0, size := 1000 } 1 1
    [1 / 2] (by decide +kernel) (by decide +kernel) (by decide +kernel) rfl
  exact ⟨hvalue, hiff.2 (Or.inl rfl)⟩

/-- In modified mode it becomes 2 instead of 1. -/
theorem idle_decays_once : ¬∀ (s : REDQueue) (pkt : Packet) (now : ℚ) (m : ℕ),
    0 ≤ s.edp.qW → s.edp.qW ≤ 1 → s.idlePackets now = m →
      (s.arrive pkt now).edv.vAve =
        (1 - s.edp.qW) ^ (m + 1) * s.edv.vAve + s.edp.qW * s.qlen := by
  intro hall
  have heq := hall (idleQueue true) { uid := 0, size := 1000 } 1 1 (by decide +kernel)
    (by decide +kernel) (by decide +kernel)
  have hne : ((idleQueue true).arrive { uid := 0, size := 1000 } 1).edv.vAve ≠
      (1 - 1 / 2) ^ 2 * 4 + 1 / 2 * 0 := by
    decide +kernel
  exact hne heq

end ComputerNetworking.Queue
