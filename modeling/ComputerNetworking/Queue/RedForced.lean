import ComputerNetworking.Queue.RedIdle
import ComputerNetworking.Queue.RedPole

/-!
# Forced and early drops of modified RED

The modified drop function stands behind the threshold logic of `enque`. With room in
the queue and the average from `th_min` on, and where that logic does not force a drop
below the buffer size, the function decides, except that it is not asked at a queue of
at most one packet and while `old` is clear; from the buffer size on its value is 1
(`function_decides`).
-/

set_option autoImplicit false

namespace ComputerNetworking.Queue

namespace REDQueue

variable (lm : Libm) (s : REDQueue) (pkt : Packet) (d : Draw)

/-- `enque` takes the arrival for a forced drop. -/
def ForcedDrop : Prop :=
  ∃ s' pkt', (s.arrive pkt d.now).classify lm pkt d.u = .ok (s', pkt', .forced)

/-- The arrival makes the queue drop a packet. -/
def Drops : Prop := ∃ s' out, s.enque lm pkt d = .ok (s', some out)

/-- `drop_early` finds the packet to be marked, once the probabilities are stored. -/
def Marks (s : REDQueue) (pkt : Packet) : Prop :=
  s.edp.setbit = true ∧ pkt.ect = true ∧
    (s.edp.useMarkP = false ∨ ∃ p, s.earlyProb1 = some p ∧ p < s.edp.markP)

/-- The draw of `drop_early` against the probability: no cautious exit, a draw that is
not above `prob`, and no mark. -/
def DrawnToDrop (lm : Libm) (s : REDQueue) (pkt : Packet) (u prob : ℚ) : Prop :=
  ¬(s.edp.cautious = 1 ∧ (s.qlen : ℚ) < s.cautiousFraction lm * s.edv.vAve) ∧
    s.cautiousDraw lm u ≤ prob ∧ ¬s.Marks pkt

/-! ## The parts of the call -/

/-- `drop_early` with the variables it computes: it drops past its cautious exit, with a
draw that is not above the probability, and without a mark. -/
theorem dropEarly_of_ok {s r : REDQueue} {edv : Edv} (hs : r = { s with edv }) (pkt : Packet)
    (u : ℚ) (h : s.earlyProbability pkt = .ok edv) :
    (∃ t p, s.dropEarly lm pkt u = .ok (t, p, true)) ↔
      ¬(r.edp.cautious = 1 ∧ (r.qlen : ℚ) < r.cautiousFraction lm * r.edv.vAve) ∧
        r.cautiousDraw lm u ≤ r.edv.vProb ∧
        ¬(r.edp.setbit = true ∧ pkt.ect = true ∧
          (r.edp.useMarkP = false ∨ r.belowMarkP = true)) := by
  subst hs
  simp only [dropEarly, h, pickPacketForECN]
  by_cases hexit : s.edp.cautious = 1 ∧ ((REDQueue.qlen { s with edv } : Int) : ℚ) <
      REDQueue.cautiousFraction lm { s with edv } * edv.vAve
  · rw [if_pos hexit]
    simp [hexit]
  · rw [if_neg hexit]
    by_cases hle : REDQueue.cautiousDraw lm { s with edv } u ≤ edv.vProb
    · rw [if_pos hle]
      simp only [hexit, hle, not_false_eq_true, true_and, Bool.not_eq_true]
      -- `belowMarkP` does not look at the counters that have just been cleared
      have hmark : REDQueue.belowMarkP { s with edv := { edv with
          count := 0, countBytes := 0 } } = REDQueue.belowMarkP { s with edv } := rfl
      rw [hmark]
      split
      next hm => simp [hm]
      next hm => simp [hm]
    · rw [if_neg hle]
      simp [hle]

/-- `drop_early` drops exactly by its draw. -/
theorem dropEarly_drops_iff (s : REDQueue) (pkt : Packet) (u : ℚ) :
    (∃ t p, s.dropEarly lm pkt u = .ok (t, p, true)) ↔
      ∃ prob, s.earlyProb pkt = .ok prob ∧ DrawnToDrop lm s pkt u prob := by
  have heq := earlyProbability_eq s pkt
  cases hp : s.earlyProb pkt with
  | error e =>
      rw [hp] at heq
      simp only [dropEarly, heq]
      simp
  | ok prob =>
      rw [hp] at heq
      rw [dropEarly_of_ok lm rfl pkt u heq]
      simp only [Except.ok.injEq, exists_eq_left', DrawnToDrop, Marks]
      apply and_congr Iff.rfl
      apply and_congr Iff.rfl
      apply not_congr
      apply and_congr_right
      intro _
      apply and_congr_right
      intro _
      apply or_congr_right
      rw [belowMarkP]
      cases s.earlyProb1 with
      | none => simp
      | some p => simp

/-- The threshold logic forces a drop. -/
theorem threshold_forced_iff (s : REDQueue) (pkt : Packet) (u : ℚ) :
    (∃ t p, s.threshold lm pkt u = .ok (t, p, .forced)) ↔ s.congested ∧ s.pastMaxThreshold := by
  rw [threshold]
  by_cases hc : s.congested
  · rw [if_pos hc]
    by_cases hpast : s.pastMaxThreshold
    · simp [hc, hpast]
    · rw [if_neg hpast]
      by_cases hold : s.edv.old = false
      · simp [hold, hpast]
      · rw [if_neg hold]
        -- `drop_early` decides: an early drop or none
        cases s.dropEarly lm pkt u with
        | error e => simp [hpast]
        | ok r =>
            obtain ⟨t, p, b⟩ := r
            cases b <;> simp [hpast]
  · simp [hc]

/-- The threshold logic calls for an early drop. -/
theorem threshold_unforced_iff (s : REDQueue) (pkt : Packet) (u : ℚ) :
    (∃ t p, s.threshold lm pkt u = .ok (t, p, .unforced)) ↔
      s.reachesDropEarly ∧ ∃ t p, s.dropEarly lm pkt u = .ok (t, p, true) := by
  rw [threshold]
  by_cases hc : s.congested
  · rw [if_pos hc]
    by_cases hpast : s.pastMaxThreshold
    · simp [reachesDropEarly, hpast]
    · rw [if_neg hpast]
      by_cases hold : s.edv.old = false
      · simp [reachesDropEarly, hold]
      · rw [if_neg hold]
        have hreach : s.reachesDropEarly := ⟨hc, hpast, by simpa using hold⟩
        cases s.dropEarly lm pkt u with
        | error e => simp
        | ok r =>
            obtain ⟨t, p, b⟩ := r
            cases b <;> simp [hreach]
  · simp [reachesDropEarly, hc]

/-- With room in the queue the threshold logic decides. -/
theorem classify_of_room {s : REDQueue} (hroom : s.qlen < s.hardLimit) (pkt : Packet) (u : ℚ) :
    s.classify lm pkt u = s.threshold lm pkt u := by
  have hfull : ¬s.qlen ≥ s.hardLimit := not_le.2 hroom
  simp only [classify, if_neg hfull]
  cases s.threshold lm pkt u <;> rfl

/-- The drop type says whether the call hands a packet on. -/
theorem settle_drops_iff (s : REDQueue) (pkt : Packet) (r : Nat) (dt : DropType) :
    (∃ s' out, s.settle pkt r dt = .ok (s', some out)) ↔ dt = .forced ∨ dt = .unforced := by
  obtain ⟨s', out, hs, -⟩ := settle_ok s pkt r dt
  rw [hs]
  cases dt with
  | none =>
      cases hs
      simp
  | unforced =>
      have hsame : ¬(pickPacketForECN pkt).uid ≠ pkt.uid := fun h => h rfl
      rw [settle, if_neg hsame] at hs
      cases hs
      simp
  | forced =>
      obtain ⟨victim, rfl⟩ := settle_forced_out hs
      simp

/-- An arrival that finds room makes the queue drop a packet by the threshold logic or
by `drop_early`. -/
theorem drops_iff {s : REDQueue} (hroom : s.qlen < s.hardLimit) :
    s.Drops lm pkt d ↔
      s.ForcedDrop lm pkt d ∨
        ((s.arrive pkt d.now).reachesDropEarly ∧
          ∃ t p, (s.arrive pkt d.now).dropEarly lm pkt d.u = .ok (t, p, true)) := by
  have hroom' : (s.arrive pkt d.now).qlen < (s.arrive pkt d.now).hardLimit := hroom
  rw [← threshold_unforced_iff, Drops, ForcedDrop, enque, classify_of_room lm hroom']
  cases (s.arrive pkt d.now).threshold lm pkt d.u with
  | error e => simp
  | ok r =>
      obtain ⟨t, p, dt⟩ := r
      simp only [settle_drops_iff, Except.ok.injEq, Prod.mk.injEq]
      cases dt <;> simp

end REDQueue

open REDQueue

/-- The non-linear function decides for a drop: the draw of `drop_early` is not above what
`modify_p` makes of the function's value. -/
def FunctionDrops (lm : Libm) (s : REDQueue) (pkt : Packet) (u : ℚ) : Prop :=
  ∃ prob, modifyP (calculatePModifiedRed s.edv s.edv.vAve s.edp.thMax s.edp.thMin s.edv.count
      s.edv.curMaxP s.edp.bufferSize).1 s.edv.count s.edv.countBytes s.edp.bytes s.edp.meanPktsize
      s.edp.wait pkt.size = .ok prob ∧ DrawnToDrop lm s pkt u prob

theorem functionDrops_iff (lm : Libm) {s : REDQueue} (hmod : s.edp.isModifiedRed = true)
    (pkt : Packet) (u : ℚ) :
    FunctionDrops lm s pkt u ↔ ∃ t p, s.dropEarly lm pkt u = .ok (t, p, true) := by
  have hprob1 : s.earlyProb1 = (calculatePModifiedRed s.edv s.edv.vAve s.edp.thMax s.edp.thMin
      s.edv.count s.edv.curMaxP s.edp.bufferSize).1 := by
    rw [earlyProb1, calculateP, if_pos hmod]
  rw [dropEarly_drops_iff, FunctionDrops, ← hprob1]
  rfl

/-- From the buffer size on the function's value is 1, which `modify_p` keeps where it counts
packets. -/
theorem modifyP_of_bufferSize_le {s : REDQueue} (hmin : s.edp.thMin ≤ s.edv.vAve)
    (hmax : s.edp.bufferSize ≤ s.edv.vAve) (hbytes : s.edp.bytes = false) (hcount : 1 ≤ s.edv.count)
    (pkt : Packet) :
    modifyP (calculatePModifiedRed s.edv s.edv.vAve s.edp.thMax s.edp.thMin s.edv.count
      s.edv.curMaxP s.edp.bufferSize).1 s.edv.count s.edv.countBytes s.edp.bytes s.edp.meanPktsize
      s.edp.wait pkt.size = .ok 1 := by
  have hone : (calculatePModifiedRed s.edv s.edv.vAve s.edp.thMax s.edp.thMin s.edv.count
      s.edv.curMaxP s.edp.bufferSize).1 = some 1 := by
    rw [calculatePModifiedRed, if_neg (not_lt.2 hmin), if_pos hmax]
    rfl
  have hcount' : (1 : ℚ) ≤ s.edv.count := by exact_mod_cast hcount
  have hspread : spread s.edp.wait s.edv.count (some 1) = 1 := by
    rw [spread, mul_one, if_neg (not_lt.2 hcount'), if_neg (not_lt.2 hcount')]
    split
    · split
      next hlt =>
        -- the count is an integer, so it is 1
        have hlt' : s.edv.count < 2 := by exact_mod_cast hlt
        have heq : s.edv.count = 1 := by omega
        rw [heq]
        norm_num
      next => rfl
    · rfl
  rw [hone, modifyP, arrivalsSince, hbytes]
  simp only [Bool.false_eq_true, if_false, hspread, scaleToSize, false_and, lt_irrefl]

/-- In modified mode, with room in a queue of packets and the average from `th_min` on, and
apart from what the threshold logic forces below the buffer size: only from the buffer
size on an arrival is a forced drop, and there by the threshold logic; otherwise a packet
is dropped exactly when more than one is queued, `old` is set, and the function decides
for it; and the probability from the buffer size on is 1. -/
theorem function_decides (lm : Libm) (s : REDQueue) (pkt : Packet) (d : Draw)
    (hmod : s.edp.isModifiedRed = true) (hpackets : s.qib = false)
    (hroom : (s.q.length : Int) < s.qlim)
    (hmin : s.edp.thMin ≤ (s.arrive pkt d.now).edv.vAve)
    (hgate : (s.arrive pkt d.now).edv.vAve < s.edp.bufferSize → 1 < s.q.length →
      ¬(s.arrive pkt d.now).pastMaxThreshold) :
    (s.ForcedDrop lm pkt d ↔ s.edp.bufferSize ≤ (s.arrive pkt d.now).edv.vAve ∧
      1 < s.q.length ∧ (s.arrive pkt d.now).pastMaxThreshold) ∧
    (¬s.ForcedDrop lm pkt d → (s.Drops lm pkt d ↔
      1 < s.q.length ∧ s.edv.old = true ∧ FunctionDrops lm (s.arrive pkt d.now) pkt d.u)) ∧
    (s.edp.bufferSize ≤ (s.arrive pkt d.now).edv.vAve → s.edp.bytes = false → 0 ≤ s.edv.count →
      (FunctionDrops lm (s.arrive pkt d.now) pkt d.u ↔
        DrawnToDrop lm (s.arrive pkt d.now) pkt d.u 1)) := by
  have hqlen : s.qlen = s.q.length := by
    rw [qlen, hpackets]
    rfl
  have hlimit : s.qlen < s.hardLimit := by
    rw [hqlen, hardLimit, hpackets]
    exact hroom
  -- what the call finds before the threshold logic
  have hold : (s.arrive pkt d.now).edv.old = s.edv.old := by
    obtain ⟨ave, m, l, st, h⟩ := s.arrive_edv pkt d.now
    rw [h]
  have hcong : (s.arrive pkt d.now).congested ↔ 1 < s.q.length := by
    have hsame : (s.arrive pkt d.now).qlen = s.q.length := hqlen
    rw [congested, hsame]
    constructor
    · intro h
      exact_mod_cast h.2
    · intro h
      exact ⟨hmin, by exact_mod_cast h⟩
  -- with room in the queue no drop is forced by the hard limit
  have hforced : s.ForcedDrop lm pkt d ↔
      1 < s.q.length ∧ (s.arrive pkt d.now).pastMaxThreshold := by
    have hroom' : (s.arrive pkt d.now).qlen < (s.arrive pkt d.now).hardLimit := hlimit
    rw [ForcedDrop, classify_of_room lm hroom', threshold_forced_iff, hcong]
  have hmod' : (s.arrive pkt d.now).edp.isModifiedRed = true := hmod
  refine ⟨?_, ?_, ?_⟩
  · rw [hforced]
    refine ⟨fun h => ⟨not_lt.1 fun hlt => hgate hlt h.1 h.2, h⟩, fun h => h.2⟩
  · intro hno
    rw [drops_iff lm pkt d hlimit, or_iff_right hno, ← functionDrops_iff lm hmod']
    constructor
    · rintro ⟨hreach, hfun⟩
      refine ⟨hcong.1 hreach.1, ?_, hfun⟩
      rw [← hold]
      exact hreach.2.2
    · rintro ⟨hlen, hset, hfun⟩
      refine ⟨⟨hcong.2 hlen, fun h => hno (hforced.2 ⟨hlen, h⟩), ?_⟩, hfun⟩
      rw [hold]
      exact hset
  · intro hmax hbytes hcount
    -- the arrival has been counted
    have hcount' : 1 ≤ (s.arrive pkt d.now).edv.count := by
      rw [arrive_count]
      omega
    rw [FunctionDrops, modifyP_of_bufferSize_le hmin hmax hbytes hcount']
    simp only [Except.ok.injEq, exists_eq_left']

/-- Two queued packets, room for 48 more, `use_mark_p_` on, and an average of 100 that is
past the buffer size of 80. -/
def pastBuffer : REDQueue where
  edp :=
    { meanPktsize := 500, thMin := 5, thMax := 15, maxPInv := 10, isModifiedRed := true,
      bufferSize := 80, useMarkP := true }
  edv := { vAve := 100, old := true, curMaxP := 1 / 10 }
  q := ⟨[{ uid := 0, size := 1000 }, { uid := 1, size := 1000 }]⟩
  idle := false

/-- The next arrival makes it drop a packet, by the function. -/
theorem function_decides_pastBuffer :
    ¬pastBuffer.ForcedDrop zeroLibm { uid := 2, size := 1000 } ⟨0, 1, 0⟩ ∧
      pastBuffer.Drops zeroLibm { uid := 2, size := 1000 } ⟨0, 1, 0⟩ := by
  obtain ⟨hforced, hdrops, hcertain⟩ := function_decides zeroLibm pastBuffer
    { uid := 2, size := 1000 } ⟨0, 1, 0⟩ rfl rfl (by decide) (by decide +kernel)
    (by decide +kernel)
  have hno : ¬pastBuffer.ForcedDrop zeroLibm { uid := 2, size := 1000 } ⟨0, 1, 0⟩ := by
    rw [hforced]
    decide +kernel
  refine ⟨hno, (hdrops hno).2 ⟨by decide, rfl, (hcertain ?_ rfl le_rfl).2 ?_⟩⟩
  · decide +kernel
  · refine ⟨by decide +kernel, by decide +kernel, ?_⟩
    rintro ⟨hsetbit, -⟩
    cases hsetbit

/-- One queued packet, and an average of 20 between `th_min` and the buffer size. -/
def oneWaiting : REDQueue where
  edp :=
    { meanPktsize := 500, thMin := 5, thMax := 15, maxPInv := 10, isModifiedRed := true,
      bufferSize := 80, useMarkP := true, wait := false }
  edv := { vAve := 20, old := true, curMaxP := 1 / 10 }
  q := ⟨[{ uid := 0, size := 1000 }]⟩
  idle := false

/-- With a draw of 1/10000 the function decides for a drop there, but is not asked. -/
theorem oneWaiting_kept : ¬∀ (lm : Libm) (s : REDQueue) (pkt : Packet) (d : Draw),
    s.edp.isModifiedRed = true → s.qib = false → (s.q.length : Int) < s.qlim →
      s.edp.thMin ≤ (s.arrive pkt d.now).edv.vAve →
      (s.arrive pkt d.now).edv.vAve < s.edp.bufferSize →
      ¬s.ForcedDrop lm pkt d ∧
        (s.Drops lm pkt d ↔ FunctionDrops lm (s.arrive pkt d.now) pkt d.u) := by
  intro hall
  obtain ⟨hno, hdrops⟩ := hall zeroLibm oneWaiting { uid := 1, size := 1000 } ⟨0, 1 / 10000, 0⟩
    rfl rfl (by decide) (by decide +kernel) (by decide +kernel)
  have hfun : FunctionDrops zeroLibm
      (oneWaiting.arrive { uid := 1, size := 1000 } 0) { uid := 1, size := 1000 } (1 / 10000) := by
    refine ⟨_, rfl, by decide +kernel, by decide +kernel, ?_⟩
    rintro ⟨hsetbit, -⟩
    cases hsetbit
  have hdropped := hdrops.2 hfun
  rw [drops_iff zeroLibm _ _ (by decide), or_iff_right hno] at hdropped
  exact absurd hdropped.1 (by decide +kernel)

end ComputerNetworking.Queue
