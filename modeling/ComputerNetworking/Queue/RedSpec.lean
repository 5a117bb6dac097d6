import ComputerNetworking.Queue.RedQueue

/-!
# What each part of a RED call can do

One lemma for each of `adapt`, `calculateP`, `dropEarly`, `threshold`,
`classify`, `settle` and `enque`: which fields it leaves alone, what it does to
`cur_max_p` and to the counters, and when it crashes. Invariants of a RED queue
are derived from these without unfolding the calls again.
-/

set_option autoImplicit false

namespace ComputerNetworking.Queue

/-- The adaptive update writes `cur_max_p`, `lastset` and `status` only. -/
theorem adapt_frame (edp : Edp) (edv : Edv) (newAve now : ℚ) :
    ∃ m l st, adapt edp edv newAve now =
      { edv with curMaxP := m, lastset := l, status := st } := by
  rw [adapt]
  split
  · split
    · rw [updateMaxPFeng]
      split <;> split <;> split <;> exact ⟨_, _, _, rfl⟩
    · split
      · rw [updateMaxP]
        simp only
        split
        · exact ⟨_, _, _, rfl⟩
        · split
          · exact ⟨_, _, _, rfl⟩
          · exact ⟨_, _, _, rfl⟩
      · exact ⟨_, _, _, rfl⟩
  · exact ⟨_, _, _, rfl⟩

/-- The probability functions write `cur_max_p` only. -/
theorem calculateP_frame (edp : Edp) (edv : Edv) (vAve thMax : ℚ) (gentle : Bool)
    (vA vB vC vD maxPInv : ℚ) :
    ∃ m, (calculateP edp edv vAve thMax gentle vA vB vC vD maxPInv).2 =
      { edv with curMaxP := m } := by
  rw [calculateP, calculatePModifiedRed]
  split
  · split
    · exact ⟨_, rfl⟩
    · split
      · exact ⟨_, rfl⟩
      · exact ⟨_, rfl⟩
  · exact ⟨_, rfl⟩

/-- `modify_p` fails exactly on the integer division by a zero mean packet size. -/
theorem modifyP_error_iff (p : Option ℚ) (count countBytes : Int) {bytes : Bool}
    {meanPktsize : Nat} (wait : Bool) (size : Nat) {e : Crash} :
    modifyP p count countBytes bytes meanPktsize wait size = .error e ↔
      bytes = true ∧ meanPktsize = 0 ∧ e = .divideByZero := by
  rw [modifyP, arrivalsSince]
  cases bytes with
  | false => simp
  | true =>
      by_cases hm : meanPktsize = 0
      · simp [hm, eq_comm]
      · simp [hm]

namespace REDQueue

/-! ## The estimator part -/

section Arrive

variable (s : REDQueue) (pkt : Packet) (now : ℚ)

/-- The variables `arrive` leaves, from the adaptive update's. -/
theorem arrive_edv :
    ∃ ave m l st, (s.arrive pkt now).edv =
      { s.edv with
        vAve := ave
        curMaxP := m
        lastset := l
        status := st
        count := s.edv.count + 1
        countBytes := s.edv.countBytes + pkt.size } := by
  obtain ⟨m, l, st, h⟩ := adapt_frame s.edp s.edv
    (newAverage s.edp s.qlen (s.idlePackets now + 1) s.edv.vAve s.edp.qW) now
  refine ⟨newAverage s.edp s.qlen (s.idlePackets now + 1) s.edv.vAve s.edp.qW, m, l, st, ?_⟩
  simp only [arrive, estimator, h]

@[simp] theorem arrive_count : (s.arrive pkt now).edv.count = s.edv.count + 1 := by
  obtain ⟨ave, m, l, st, h⟩ := s.arrive_edv pkt now
  rw [h]

@[simp] theorem arrive_countBytes :
    (s.arrive pkt now).edv.countBytes = s.edv.countBytes + pkt.size := by
  obtain ⟨ave, m, l, st, h⟩ := s.arrive_edv pkt now
  rw [h]

end Arrive

/-! ## The threshold part -/

/-- `v_prob1` as `drop_early` computes it. -/
def earlyProb1 (s : REDQueue) : Option ℚ :=
  (calculateP s.edp s.edv s.edv.vAve s.edp.thMax s.edp.gentle
    s.edv.vA s.edv.vB s.edv.vC s.edv.vD s.edv.curMaxP).1

/-- `cur_max_p` as `drop_early` leaves it. -/
def earlyMaxP (s : REDQueue) : ℚ :=
  (calculateP s.edp s.edv s.edv.vAve s.edp.thMax s.edp.gentle
    s.edv.vA s.edv.vB s.edv.vC s.edv.vD s.edv.curMaxP).2.curMaxP

/-- `v_prob` as `drop_early` computes it. -/
def earlyProb (s : REDQueue) (pkt : Packet) : Except Crash ℚ :=
  modifyP s.earlyProb1 s.edv.count s.edv.countBytes s.edp.bytes s.edp.meanPktsize s.edp.wait
    pkt.size

/-- The state in which `drop_early` makes the process divide by zero. -/
def DividesByZero (s : REDQueue) : Prop :=
  s.reachesDropEarly ∧ s.edp.bytes = true ∧ s.edp.meanPktsize = 0

instance (s : REDQueue) : Decidable s.DividesByZero :=
  inferInstanceAs (Decidable (_ ∧ _ ∧ _))

/-- `drop_early` writes `cur_max_p` and the two probabilities. -/
theorem earlyProbability_eq (s : REDQueue) (pkt : Packet) :
    s.earlyProbability pkt =
      match s.earlyProb pkt with
      | .error e => .error e
      | .ok p => .ok { s.edv with
          curMaxP := s.earlyMaxP
          vProb1 := s.earlyProb1
          vProb := p } := by
  obtain ⟨m, hm⟩ := calculateP_frame s.edp s.edv s.edv.vAve s.edp.thMax s.edp.gentle
    s.edv.vA s.edv.vB s.edv.vC s.edv.vD s.edv.curMaxP
  cases hp : s.earlyProb pkt with
  | error e =>
      rw [earlyProb, earlyProb1] at hp
      simp only [earlyProbability, hm, hp]
  | ok p =>
      rw [earlyProb, earlyProb1] at hp
      simp only [earlyProbability, earlyProb1, earlyMaxP, hm, hp]

theorem dropEarly_error_iff (lm : Libm) (s : REDQueue) (pkt : Packet) (u : ℚ) {e : Crash} :
    s.dropEarly lm pkt u = .error e ↔
      s.edp.bytes = true ∧ s.edp.meanPktsize = 0 ∧ e = .divideByZero := by
  rw [← modifyP_error_iff s.earlyProb1 s.edv.count s.edv.countBytes s.edp.wait pkt.size]
  change _ ↔ s.earlyProb pkt = .error e
  rw [dropEarly]
  rw [earlyProbability_eq]
  -- once the probability is there, no branch fails
  cases s.earlyProb pkt with
  | error e' => simp
  | ok p =>
      simp only [reduceCtorEq, iff_false]
      split
      · simp
      · split
        · split <;> simp
        · simp

/-- `drop_early` stores the two probabilities and `cur_max_p`, and keeps the
counters or clears both. The packet may get its `ce` flag. -/
theorem dropEarly_ok (lm : Libm) {s s' : REDQueue} {pkt pkt' : Packet} {u : ℚ} {b : Bool}
    (h : s.dropEarly lm pkt u = .ok (s', pkt', b)) :
    (∃ p c cb, s.earlyProb pkt = .ok p ∧
      ((c = s.edv.count ∧ cb = s.edv.countBytes) ∨ (c = 0 ∧ cb = 0)) ∧
      s' = { s with edv := { s.edv with
        curMaxP := s.earlyMaxP
        vProb1 := s.earlyProb1
        vProb := p
        count := c
        countBytes := cb } }) ∧
    pkt'.uid = pkt.uid := by
  rw [dropEarly] at h
  rw [earlyProbability_eq] at h
  cases hp : s.earlyProb pkt with
  | error e =>
      rw [hp] at h
      simp at h
  | ok p =>
      rw [hp] at h
      simp only at h
      split at h
      · simp only [Except.ok.injEq, Prod.mk.injEq] at h
        obtain ⟨rfl, rfl, -⟩ := h
        exact ⟨⟨p, _, _, rfl, Or.inl ⟨rfl, rfl⟩, rfl⟩, rfl⟩
      · split at h
        · -- the draw says drop or mark: both counters are cleared
          split at h
          · simp only [Except.ok.injEq, Prod.mk.injEq] at h
            obtain ⟨rfl, rfl, -⟩ := h
            exact ⟨⟨p, 0, 0, rfl, Or.inr ⟨rfl, rfl⟩, rfl⟩, rfl⟩
          · simp only [Except.ok.injEq, Prod.mk.injEq] at h
            obtain ⟨rfl, rfl, -⟩ := h
            exact ⟨⟨p, 0, 0, rfl, Or.inr ⟨rfl, rfl⟩, rfl⟩, rfl⟩
        · simp only [Except.ok.injEq, Prod.mk.injEq] at h
          obtain ⟨rfl, rfl, -⟩ := h
          exact ⟨⟨p, _, _, rfl, Or.inl ⟨rfl, rfl⟩, rfl⟩, rfl⟩

/-- `cur_max_p` after the threshold decision. -/
def thresholdMaxP (s : REDQueue) : ℚ :=
  if s.reachesDropEarly then s.earlyMaxP else s.edv.curMaxP

/-- What a part of `enque` keeps: everything but the variables, the packet's
identity, and counters that are not negative. `cur_max_p` becomes `maxP`. -/
structure Decided (s : REDQueue) (pkt : Packet) (maxP : ℚ) (s' : REDQueue) (pkt' : Packet) :
    Prop where
  frame : s' = { s with edv := s'.edv }
  uid : pkt'.uid = pkt.uid
  curMaxP : s'.edv.curMaxP = maxP
  count : 0 ≤ s.edv.count → 0 ≤ s'.edv.count
  countBytes : 0 ≤ s.edv.countBytes → 0 ≤ s'.edv.countBytes

theorem threshold_ok (lm : Libm) {s s' : REDQueue} {pkt pkt' : Packet} {u : ℚ} {d : DropType}
    (h : s.threshold lm pkt u = .ok (s', pkt', d)) :
    Decided s pkt s.thresholdMaxP s' pkt' := by
  rw [threshold] at h
  split at h
  next hc =>
    split at h
    next hpast =>
      -- a forced drop: the state is left as it is
      simp only [Except.ok.injEq, Prod.mk.injEq] at h
      obtain ⟨rfl, rfl, -⟩ := h
      have hno : ¬s.reachesDropEarly := fun hr => hr.2.1 hpast
      exact ⟨rfl, rfl, by rw [thresholdMaxP, if_neg hno], id, id⟩
    next hpast =>
      split at h
      next hold =>
        simp only [Except.ok.injEq, Prod.mk.injEq] at h
        obtain ⟨rfl, rfl, -⟩ := h
        have hno : ¬s.reachesDropEarly := fun hr => by simp [hr.2.2] at hold
        -- the crossing starts both counters anew
        refine ⟨rfl, rfl, by rw [thresholdMaxP, if_neg hno], ?_, ?_⟩
        · intro _
          exact Int.one_nonneg
        · intro _
          exact Int.natCast_nonneg _
      next hold =>
        have hyes : s.reachesDropEarly := ⟨hc, hpast, by simpa using hold⟩
        cases he : s.dropEarly lm pkt u with
        | error e =>
            rw [he] at h
            simp at h
        | ok r =>
            obtain ⟨t, p, b⟩ := r
            rw [he] at h
            obtain ⟨rfl, rfl⟩ : t = s' ∧ p = pkt' := by
              cases b <;> simp only [Except.ok.injEq, Prod.mk.injEq] at h <;> exact ⟨h.1, h.2.1⟩
            obtain ⟨⟨q, c, cb, -, hcount, rfl⟩, hu⟩ := dropEarly_ok lm he
            refine ⟨rfl, hu, by rw [thresholdMaxP, if_pos hyes], ?_, ?_⟩
            · intro h0
              rcases hcount with ⟨hc, -⟩ | ⟨hc, -⟩ <;> simp only [hc] <;> omega
            · intro h0
              rcases hcount with ⟨-, hcb⟩ | ⟨-, hcb⟩ <;> simp only [hcb] <;> omega
  next hc =>
    simp only [Except.ok.injEq, Prod.mk.injEq] at h
    obtain ⟨rfl, rfl, -⟩ := h
    have hno : ¬s.reachesDropEarly := fun hr => hc hr.1
    exact ⟨rfl, rfl, by rw [thresholdMaxP, if_neg hno], id, id⟩

theorem threshold_error_iff (lm : Libm) (s : REDQueue) (pkt : Packet) (u : ℚ) {e : Crash} :
    s.threshold lm pkt u = .error e ↔ s.DividesByZero ∧ e = .divideByZero := by
  rw [threshold, DividesByZero]
  split
  next hc =>
    split
    next hpast =>
      have hno : ¬s.reachesDropEarly := fun hr => hr.2.1 hpast
      simp [hno]
    next hpast =>
      split
      next hold =>
        have hno : ¬s.reachesDropEarly := fun hr => by simp [hr.2.2] at hold
        simp [hno]
      next hold =>
        have hyes : s.reachesDropEarly := ⟨hc, hpast, by simpa using hold⟩
        have hde := dropEarly_error_iff lm s pkt u (e := e)
        cases he : s.dropEarly lm pkt u with
        | error e' =>
            rw [he] at hde
            simpa [hyes, and_assoc] using hde
        | ok r =>
            obtain ⟨t, p, b⟩ := r
            rw [he] at hde
            simp only [reduceCtorEq, false_iff] at hde
            cases b <;> simpa [hyes, and_assoc] using hde
  next hc =>
    have hno : ¬s.reachesDropEarly := fun hr => hc hr.1
    simp [hno]

theorem classify_ok (lm : Libm) {s s' : REDQueue} {pkt pkt' : Packet} {u : ℚ} {d : DropType}
    (h : s.classify lm pkt u = .ok (s', pkt', d)) : Decided s pkt s.thresholdMaxP s' pkt' := by
  rw [classify] at h
  cases ht : s.threshold lm pkt u with
  | error e =>
      rw [ht] at h
      simp at h
  | ok r =>
      obtain ⟨t, p, d'⟩ := r
      rw [ht] at h
      simp only [Except.ok.injEq, Prod.mk.injEq] at h
      obtain ⟨rfl, rfl, -⟩ := h
      exact threshold_ok lm ht

theorem classify_error_iff (lm : Libm) (s : REDQueue) (pkt : Packet) (u : ℚ) {e : Crash} :
    s.classify lm pkt u = .error e ↔ s.DividesByZero ∧ e = .divideByZero := by
  rw [← threshold_error_iff lm s pkt u]
  rw [classify]
  cases s.threshold lm pkt u <;> simp

/-! ## The queue part -/

/-- What a call does to the packets: the arrival `uid` is refused, joins the
queue, or joins it while a queued packet (perhaps the arrival) is dropped. -/
inductive Moves (before : List Nat) (uid : Nat) : List Nat → Option (Fate × Packet) → Prop where
  | refused (fate : Fate) (pkt : Packet) (h : pkt.uid = uid) :
      Moves before uid before (some (fate, pkt))
  | joined : Moves before uid (before ++ [uid]) none
  | evicted (fate : Fate) (victim : Packet) (h : victim.uid ∈ before ++ [uid]) :
      Moves before uid ((before ++ [uid]).erase victim.uid) (some (fate, victim))

/-- The victim's index lies inside the queue, so the lookup finds a packet. -/
theorem pickPacketToDrop_mem {s : REDQueue} (r : Nat) (h : 0 < s.q.length) :
    ∃ victim, s.pickPacketToDrop r = some victim ∧ victim ∈ s.q.packets := by
  have hmod : r % s.q.length < s.q.length := Nat.mod_lt r h
  obtain ⟨victim, hv⟩ : ∃ victim, s.pickPacketToDrop r = some victim := by
    rw [pickPacketToDrop]
    apply PacketQueue.lookup_isSome _ h
    split
    · omega
    · split <;> omega
  exact ⟨victim, hv, PacketQueue.lookup_mem hv⟩

/-- What `settle` leaves, on every drop type. -/
theorem settle_ok (s : REDQueue) (pkt : Packet) (r : Nat) (d : DropType) :
    ∃ s' out, s.settle pkt r d = .ok (s', out) ∧
      s' = { s with q := s'.q, edv := s'.edv } ∧
      s'.edv.curMaxP = s.edv.curMaxP ∧
      (0 ≤ s.edv.count → 0 ≤ s'.edv.count) ∧
      (0 ≤ s.edv.countBytes → 0 ≤ s'.edv.countBytes) ∧
      Moves s.q.uids pkt.uid s'.q.uids out := by
  cases d with
  | unforced =>
      have hne : ¬(pickPacketForECN pkt).uid ≠ pkt.uid := fun h => h rfl
      refine ⟨s, _, by rw [settle, if_neg hne], rfl, rfl, id, id, ?_⟩
      exact Moves.refused _ _ rfl
  | none =>
      refine ⟨{ s with q := s.q.enque pkt }, none, rfl, rfl, rfl, id, id, ?_⟩
      rw [PacketQueue.uids_enque]
      exact Moves.joined
  | forced =>
      -- the arrival has joined, so there is a packet to drop
      have hlen : 0 < ({ s with q := s.q.enque pkt } : REDQueue).q.length := by
        simp
      obtain ⟨victim, hpick, hmem⟩ := pickPacketToDrop_mem r hlen
      obtain ⟨q', hrem, huids⟩ := PacketQueue.remove_of_mem hmem
      have hin : victim.uid ∈ s.q.uids ++ [pkt.uid] := by
        rw [← PacketQueue.uids_enque]
        exact List.mem_map_of_mem hmem
      have hq : q'.uids = (s.q.uids ++ [pkt.uid]).erase victim.uid := by
        rw [huids, ← PacketQueue.uids_enque]
      refine ⟨{ s with
          q := q'
          edv := if s.ns1Compat then s.edv else { s.edv with count := 0, countBytes := 0 } },
        some (.drop, victim), ?_, rfl, ?_, ?_, ?_, ?_⟩
      · simp only [settle, hpick, hrem]
      · cases s.ns1Compat <;> rfl
      · cases s.ns1Compat <;> simp
      · cases s.ns1Compat <;> simp
      · show Moves s.q.uids pkt.uid q'.uids (some (.drop, victim))
        rw [hq]
        exact Moves.evicted _ _ hin

/-! ## The whole call -/

/-- What `enque` leaves: everything but the variables, the queue and `idle_` is
kept, and the packets move in one of three ways. -/
structure Enqued (s : REDQueue) (pkt : Packet) (now : ℚ) (s' : REDQueue)
    (out : Option (Fate × Packet)) : Prop where
  frame : s' = { s with idle := false, q := s'.q, edv := s'.edv }
  curMaxP : s'.edv.curMaxP = (s.arrive pkt now).thresholdMaxP
  count : 0 ≤ s.edv.count → 0 ≤ s'.edv.count
  countBytes : 0 ≤ s.edv.countBytes → 0 ≤ s'.edv.countBytes
  moves : Moves s.q.uids pkt.uid s'.q.uids out

/-- `enque` crashes exactly on the division by a zero mean packet size, and only
in states in which it calls `drop_early`. -/
theorem enque_error_iff (lm : Libm) {s : REDQueue} {pkt : Packet} {d : Draw} {e : Crash} :
    s.enque lm pkt d = .error e ↔
      (s.arrive pkt d.now).DividesByZero ∧ e = .divideByZero := by
  rw [← classify_error_iff lm (s.arrive pkt d.now) pkt d.u]
  rw [enque]
  cases (s.arrive pkt d.now).classify lm pkt d.u with
  | error e' => simp
  | ok r =>
      obtain ⟨t, p, dt⟩ := r
      obtain ⟨s', out, hs, -⟩ := settle_ok t p d.r dt
      simp [hs]

theorem enque_ok (lm : Libm) {s s' : REDQueue} {pkt : Packet} {d : Draw}
    {out : Option (Fate × Packet)} (h : s.enque lm pkt d = .ok (s', out)) :
    Enqued s pkt d.now s' out := by
  rw [enque] at h
  cases hc : (s.arrive pkt d.now).classify lm pkt d.u with
  | error e =>
      rw [hc] at h
      simp at h
  | ok r =>
      obtain ⟨t, p, dt⟩ := r
      rw [hc] at h
      have hdec := classify_ok lm hc
      obtain ⟨s'', out', hs, hframe, hmax, hcount, hbytes, hmoves⟩ := settle_ok t p d.r dt
      simp only [hs, Except.ok.injEq, Prod.mk.injEq] at h
      obtain ⟨rfl, rfl⟩ := h
      refine ⟨?_, hmax.trans hdec.curMaxP, fun h0 => hcount (hdec.count ?_),
        fun h0 => hbytes (hdec.countBytes ?_), ?_⟩
      · rw [hframe, hdec.frame]
        rfl
      · rw [arrive_count]
        omega
      · rw [arrive_countBytes]
        omega
      · have hq : t.q = s.q := by rw [hdec.frame]; rfl
        rw [hq, hdec.uid] at hmoves
        exact hmoves

theorem redStep_deque (lm : Libm) (s : REDQueue) (now : ℚ) :
    redStep lm s (.deque now) = .ok (s.deque now).2 := rfl

theorem redStep_enque (lm : Libm) (s : REDQueue) (pkt : Packet) (d : Draw) :
    redStep lm s (.enque pkt d) =
      match s.enque lm pkt d with
      | .error e => .error e
      | .ok (s', _) => .ok s' := rfl

/-- A call that returns is a departure, or an arrival that `enque` handled. -/
theorem redStep_cases {lm : Libm} {s s' : REDQueue} {op : Op} (h : redStep lm s op = .ok s') :
    (∃ now, op = .deque now ∧ s' = (s.deque now).2) ∨
      ∃ pkt d out, op = .enque pkt d ∧ s.enque lm pkt d = .ok (s', out) := by
  cases op with
  | deque now =>
      simp only [redStep_deque, Except.ok.injEq] at h
      exact Or.inl ⟨now, rfl, h.symm⟩
  | enque pkt d =>
      rw [redStep_enque] at h
      cases he : s.enque lm pkt d with
      | error e =>
          rw [he] at h
          cases h
      | ok r =>
          obtain ⟨t, out⟩ := r
          simp only [he, Except.ok.injEq] at h
          subst h
          exact Or.inr ⟨pkt, d, out, rfl, he⟩

end REDQueue

end ComputerNetworking.Queue
