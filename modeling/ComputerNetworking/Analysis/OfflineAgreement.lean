import ComputerNetworking.Analysis.WirelessTrace

/-!
# `parse.awk` and `1805038.py` agree, but for the throughput

Line by line the two programs keep the same counts, bytes and delays
(`Agree.line`). They measure different intervals: `parse.awk` from the first line
to the last one, `1805038.py` from the first tcp line of an agent to the last
one. `offline_agree` says exactly when the throughputs are the same.
-/

set_option autoImplicit false

namespace ComputerNetworking.Analysis

variable {trace : List Line} {v : ParseAwk} {w : Script} {l : Line} {p : PacketLine}

section Counts

/-- The two programs have counted the same. -/
structure Agree (v : ParseAwk) (w : Script) : Prop where
  sent_eq : v.sentPackets = w.totalNumberOfPacketsSent
  received_eq : v.receivedPackets = w.totalNumberOfPacketsReceived
  dropped_eq : v.droppedPackets = w.totalNumberOfPacketsDropped
  bytes_eq : v.receivedBytes = w.totalPacketBytes
  delay_eq : v.totalDelay = w.totalDelayTime
  sentTime_eq : ∀ id t, w.packetTimingInfo id = some t → v.sentTime id = t

/-- The script has a sending time for the packets sent in `trace`. -/
def Knows (w : Script) (trace : List Line) : Prop :=
  ∀ p ∈ agentLines .s trace, (w.packetTimingInfo p.packetId).isSome

theorem agree_start : Agree {} {} := ⟨rfl, rfl, rfl, rfl, rfl, fun id t h => by cases h⟩

theorem Agree.stamp (h : Agree v w) (l : Line) : Agree (v.stamp l) w := by
  rw [ParseAwk.stamp]
  dsimp only
  split <;> exact ⟨h.1, h.2, h.3, h.4, h.5, h.6⟩

/-- A tcp line of an agent; a received packet has a sending time. -/
theorem Agree.agentLine (h : Agree v w)
    (hsent : p.event = .r → (w.packetTimingInfo p.packetId).isSome) :
    ∃ w', w.agentLine p = some w' ∧ Agree (v.agentRule p) w' ∧
      ∀ id, (w.packetTimingInfo id).isSome ∨ p.event = .s ∧ id = p.packetId →
        (w'.packetTimingInfo id).isSome := by
  rw [Script.agentLine, ParseAwk.agentRule]
  -- the interval is not compared here
  generalize hw₁ : (if w.startTime < 0 then { w with startTime := p.time } else w) = w₁
  generalize hw₂ : (if w₁.endTime < p.time then { w₁ with endTime := p.time } else w₁) = w₂
  have htiming : w₂.packetTimingInfo = w.packetTimingInfo := by
    rw [← hw₂, ← hw₁]
    split_ifs <;> rfl
  have h₂ : Agree v w₂ := by
    rw [← hw₂, ← hw₁]
    split_ifs <;> exact ⟨h.1, h.2, h.3, h.4, h.5, h.6⟩
  rw [← htiming] at hsent ⊢
  by_cases hs : p.event = .s
  · rw [if_pos hs, if_pos hs]
    refine ⟨_, rfl, ⟨?_, h₂.2, h₂.3, h₂.4, h₂.5, ?_⟩, ?_⟩
    · exact congrArg (· + 1) h₂.sent_eq
    · intro id t ht
      dsimp only at ht ⊢
      by_cases hid : id = p.packetId
      · rw [hid, Function.update_self] at ht ⊢
        exact Option.some.inj ht
      · rw [Function.update_of_ne hid] at ht ⊢
        exact h₂.sentTime_eq id t ht
    · intro id hid
      dsimp only
      by_cases heq : id = p.packetId
      · rw [heq, Function.update_self]
        rfl
      · rw [Function.update_of_ne heq]
        exact hid.resolve_right fun hid => heq hid.2
  · rw [if_neg hs, if_neg hs]
    have hkeep : ∀ id, (w₂.packetTimingInfo id).isSome ∨ p.event = .s ∧ id = p.packetId →
        (w₂.packetTimingInfo id).isSome := fun id hid => hid.resolve_right fun hid => hs hid.1
    by_cases hr : p.event = .r
    · rw [if_pos hr, if_pos hr]
      obtain ⟨sent, hsent⟩ := Option.isSome_iff_exists.mp (hsent hr)
      rw [hsent]
      refine ⟨_, rfl, ⟨h₂.1, ?_, h₂.3, ?_, ?_, h₂.6⟩, hkeep⟩
      · exact congrArg (· + 1) h₂.received_eq
      · exact congrArg (· + (p.packetBytes - headerBytes)) h₂.bytes_eq
      · show v.totalDelay + (p.time - v.sentTime p.packetId) = w₂.totalDelayTime + (p.time - sent)
        rw [h₂.delay_eq, h₂.sentTime_eq _ _ hsent]
    · rw [if_neg hr, if_neg hr]
      exact ⟨w₂, rfl, h₂, hkeep⟩

/-- One line of the trace. -/
theorem Agree.line (h : Agree v w)
    (hsent : ∀ p, l = .packet p → p.agentTcp → p.event = .r →
      (w.packetTimingInfo p.packetId).isSome) :
    ∃ w', w.line l = some w' ∧ Agree (v.rule l) w' ∧
      ∀ id, (w.packetTimingInfo id).isSome ∨ (∃ p ∈ agentLines .s [l], id = p.packetId) →
        (w'.packetTimingInfo id).isSome := by
  have h₁ := h.stamp l
  cases l with
  | energy time node en =>
      refine ⟨_, rfl, ⟨h₁.1, h₁.2, h₁.3, h₁.4, h₁.5, h₁.6⟩, fun id hid => ?_⟩
      refine hid.resolve_right ?_
      rintro ⟨p, hp, -⟩
      cases hp
  | packet p =>
      have hsent' := hsent p rfl
      rw [Script.line, ParseAwk.rule]
      generalize v.stamp (.packet p) = v₁ at h₁ ⊢
      rw [ParseAwk.packetRule]
      generalize hw₁ : ({ w with count := w.count + 1 } : Script) = w₁
      have h₂ : Agree v₁ w₁ := by
        rw [← hw₁]
        exact ⟨h₁.1, h₁.2, h₁.3, h₁.4, h₁.5, h₁.6⟩
      have htiming : w₁.packetTimingInfo = w.packetTimingInfo := by rw [← hw₁]
      rw [← htiming] at hsent' ⊢
      -- the part for tcp lines of agents
      obtain ⟨w₂, hw₂, h₃, hknown⟩ : ∃ w₂,
          (if p.layer = .AGT ∧ p.packetType = .tcp then w₁.agentLine p else some w₁) = some w₂ ∧
          Agree (if p.layer = .AGT ∧ p.packetType = .tcp then v₁.agentRule p else v₁) w₂ ∧
          ∀ id, (w₁.packetTimingInfo id).isSome ∨ (∃ p' ∈ agentLines .s [.packet p],
            id = p'.packetId) → (w₂.packetTimingInfo id).isSome := by
        by_cases ha : p.layer = .AGT ∧ p.packetType = .tcp
        · rw [if_pos ha, if_pos ha]
          have hagent := agentTcp_iff.mpr ha
          obtain ⟨w₂, hw₂, h₃, hknown⟩ := h₂.agentLine (hsent' hagent)
          refine ⟨w₂, hw₂, h₃, fun id hid => hknown id (hid.imp_right ?_)⟩
          rintro ⟨p', hp', rfl⟩
          rw [agentLines_packet] at hp'
          split at hp'
          · rename_i hs
            rw [List.mem_singleton.mp hp']
            exact ⟨hs.2, rfl⟩
          · cases hp'
        · rw [if_neg ha, if_neg ha]
          refine ⟨w₁, rfl, h₂, fun id hid => hid.resolve_right ?_⟩
          rintro ⟨p', hp', -⟩
          rw [agentLines_packet, if_neg fun hs => ha (agentTcp_iff.mp hs.1)] at hp'
          cases hp'
      rw [hw₂]
      generalize (if p.layer = .AGT ∧ p.packetType = .tcp then v₁.agentRule p else v₁) = v₂ at h₃ ⊢
      dsimp only
      by_cases hd : p.packetType = .tcp ∧ p.event = .D
      · rw [if_pos hd, if_pos hd]
        exact ⟨_, rfl, ⟨h₃.1, h₃.2, congrArg (· + 1) h₃.dropped_eq, h₃.4, h₃.5, h₃.6⟩, hknown⟩
      · rw [if_neg hd, if_neg hd]
        exact ⟨_, rfl, h₃, hknown⟩

theorem ParseAwk.run_concat (trace : List Line) (l : Line) :
    ParseAwk.run (trace ++ [l]) = (ParseAwk.run trace).rule l :=
  List.foldl_concat ParseAwk.rule {} l trace

theorem Script.run_concat (h : Script.run trace = some w) (l : Line) :
    Script.run (trace ++ [l]) = w.line l := by
  have hrun : List.foldlM Script.line {} trace = some w := h
  rw [Script.run, List.foldlM_append, hrun]
  show (w.line l >>= fun w' => some w') = w.line l
  cases w.line l <;> rfl

/-- The whole trace. -/
theorem agree_run (h : WellFormed trace) :
    ∃ w, Script.run trace = some w ∧ Agree (ParseAwk.run trace) w ∧ Knows w trace := by
  -- the lines one after the other: the script knows the packets sent so far
  induction h with
  | nil => exact ⟨{}, rfl, agree_start, fun p hp => by cases hp⟩
  | concat h nonneg ordered sent_before ih =>
      rename_i trace l
      obtain ⟨w, hw, hagree, hknows⟩ := ih
      have hsent : ∀ p, l = .packet p → p.agentTcp → p.event = .r →
          (w.packetTimingInfo p.packetId).isSome := by
        intro p hl hp hr
        obtain ⟨p', hp', hid⟩ := sent_before p hl hp hr
        rw [← hid]
        exact hknows p' hp'
      obtain ⟨w', hw', hagree', hkeep⟩ := hagree.line hsent
      refine ⟨w', (Script.run_concat hw l).trans hw', ?_, ?_⟩
      · rw [ParseAwk.run_concat]
        exact hagree'
      · intro p hp
        rw [agentLines_append] at hp
        rcases List.mem_append.mp hp with hold | hnew
        · exact hkeep _ (Or.inl (hknows p hold))
        · exact hkeep _ (Or.inr ⟨p, hnew, rfl⟩)

end Counts

section Intervals

/-- The times of the tcp lines of agents. -/
def agentTimes (trace : List Line) : List ℚ :=
  trace.filterMap fun
    | .packet p => if p.agentTcp then some p.time else none
    | .energy .. => none

/-- No node reported its energy. -/
def EnergyFree (trace : List Line) : Prop := ∀ l ∈ trace, ∃ p, l = .packet p

/-- The interval of `parse.awk`: from the first line, or 1000000 s if it is later, to
the last line. -/
def wholeSpan (trace : List Line) : ℚ :=
  endOf (trace.map Line.time) - startOf (trace.map Line.time)

/-- The interval of `1805038.py`: from the first to the last tcp line of an agent. -/
def agentSpan (trace : List Line) : ℚ :=
  (agentTimes trace).getLast?.getD 0 - (agentTimes trace).head?.getD (-2)

/-- The bytes of the received packets, without their headers. -/
def payload (trace : List Line) : ℤ :=
  ((agentLines .r trace).map fun p => p.packetBytes - headerBytes).sum

theorem ParseAwk.packetRule_interval (v : ParseAwk) (p : PacketLine) :
    (v.packetRule p).startTime = v.startTime ∧ (v.packetRule p).timeSec = v.timeSec := by
  rw [ParseAwk.packetRule, ParseAwk.agentRule]
  split_ifs <;> exact ⟨rfl, rfl⟩

theorem ParseAwk.stamp_interval {x : ℚ} (hx : v.startTime = .number x) (p : PacketLine) :
    (v.stamp (.packet p)).startTime = .number (min x p.time) ∧
      (v.stamp (.packet p)).timeSec = .number p.time := by
  have hgt : v.startTime.gt (Line.packet p).secondField = decide (x > p.time) := by
    rw [hx]
    rfl
  rw [ParseAwk.stamp]
  dsimp only
  split
  · rename_i h
    rw [min_eq_right (of_decide_eq_true (hgt.symm.trans h)).le]
    exact ⟨rfl, rfl⟩
  · rename_i h
    rw [hgt, decide_eq_true_eq] at h
    rw [min_eq_left (not_lt.mp h)]
    exact ⟨hx, rfl⟩

theorem WellFormed.inOrder (h : WellFormed trace) : InOrder (trace.map Line.time) := by
  induction h with
  | nil => exact inOrder_nil
  | concat h nonneg ordered sent_before ih =>
      rw [List.map_append]
      refine inOrder_concat_iff.mpr ⟨ih, nonneg, ?_⟩
      intro t ht
      obtain ⟨l', hl', rfl⟩ := List.mem_map.mp ht
      exact ordered l' hl'

/-- The interval that `parse.awk` has read. -/
theorem awk_interval (h : WellFormed trace) (he : EnergyFree trace) :
    (ParseAwk.run trace).startTime = .number (startOf (trace.map Line.time)) ∧
      (ParseAwk.run trace).timeSec = .number (endOf (trace.map Line.time)) := by
  induction h with
  | nil => exact ⟨congrArg Field.number (min_self 1000000).symm, rfl⟩
  | concat h nonneg ordered sent_before ih =>
      rename_i trace l
      obtain ⟨hstart, -⟩ := ih fun l' hl' => he l' (List.mem_append_left _ hl')
      obtain ⟨p, rfl⟩ := he l (List.mem_append_right _ List.mem_cons_self)
      obtain ⟨hs, ht⟩ := ParseAwk.stamp_interval hstart p
      obtain ⟨hs', ht'⟩ := ((ParseAwk.run trace).stamp (.packet p)).packetRule_interval p
      have hord := (h.concat nonneg ordered sent_before).inOrder
      rw [List.map_append] at hord
      rw [ParseAwk.run_concat, ParseAwk.rule, hs', ht', hs, ht, List.map_append]
      exact ⟨congrArg Field.number (startOf_concat hord).symm,
        congrArg Field.number (endOf_concat _ _).symm⟩

theorem mem_of_mem_agentTimes {t : ℚ} (h : t ∈ agentTimes trace) : ∃ l ∈ trace, l.time = t := by
  obtain ⟨l, hl, hf⟩ := List.mem_filterMap.mp h
  cases l with
  | energy time node en => cases hf
  | packet p =>
      dsimp only at hf
      split at hf
      · exact ⟨_, hl, Option.some.inj hf⟩
      · cases hf

theorem Script.agentLine_interval {w' : Script} (h : w.agentLine p = some w') :
    w'.startTime = (if w.startTime < 0 then p.time else w.startTime) ∧
      w'.endTime = max w.endTime p.time := by
  rw [Script.agentLine] at h
  generalize hw₁ : (if w.startTime < 0 then { w with startTime := p.time } else w) = w₁ at h
  generalize hw₂ : (if w₁.endTime < p.time then { w₁ with endTime := p.time } else w₁) = w₂ at h
  have hstart : w₂.startTime = if w.startTime < 0 then p.time else w.startTime := by
    rw [← hw₂, ← hw₁]
    split_ifs <;> rfl
  have hend₁ : w₁.endTime = w.endTime := by
    rw [← hw₁]
    split <;> rfl
  have hend : w₂.endTime = max w.endTime p.time := by
    rw [← hw₂, ← hend₁]
    split
    · rename_i hlt
      exact (max_eq_right hlt.le).symm
    · rename_i hge
      exact (max_eq_left (not_lt.mp hge)).symm
  rw [← hstart, ← hend]
  -- the branches leave the interval
  split at h
  · rw [← Option.some.inj h]
    exact ⟨rfl, rfl⟩
  · split at h
    · split at h
      · cases h
      · rw [← Option.some.inj h]
        exact ⟨rfl, rfl⟩
    · rw [← Option.some.inj h]
      exact ⟨rfl, rfl⟩

theorem Script.line_interval {w' : Script} (h : w.line l = some w') :
    agentTimes [l] = [] ∧ w'.startTime = w.startTime ∧ w'.endTime = w.endTime ∨
      agentTimes [l] = [l.time] ∧
        w'.startTime = (if w.startTime < 0 then l.time else w.startTime) ∧
        w'.endTime = max w.endTime l.time := by
  cases l with
  | energy time node en =>
      rw [← Option.some.inj h]
      exact Or.inl ⟨rfl, rfl, rfl⟩
  | packet p =>
      rw [Script.line] at h
      split at h
      · cases h
      · rename_i w₂ hw₂
        -- the count of the drops leaves the interval
        have hsame : w'.startTime = w₂.startTime ∧ w'.endTime = w₂.endTime := by
          split at h <;> rw [← Option.some.inj h] <;> exact ⟨rfl, rfl⟩
        rw [hsame.1, hsame.2]
        by_cases ha : p.layer = .AGT ∧ p.packetType = .tcp
        · rw [if_pos ha] at hw₂
          obtain ⟨hs, ht⟩ := Script.agentLine_interval hw₂
          refine Or.inr ⟨?_, hs, ht⟩
          simp [agentTimes, agentTcp_iff.mpr ha, Line.time]
        · rw [if_neg ha] at hw₂
          rw [← Option.some.inj hw₂]
          refine Or.inl ⟨?_, rfl, rfl⟩
          have hagent : p.agentTcp = false := by
            rw [← Bool.not_eq_true, agentTcp_iff]
            exact ha
          simp [agentTimes, hagent]

/-- The interval that `1805038.py` has read. -/
theorem script_interval (h : WellFormed trace) (hw : Script.run trace = some w) :
    w.startTime = (agentTimes trace).head?.getD (-2) ∧
      w.endTime = (agentTimes trace).getLast?.getD 0 := by
  induction h generalizing w with
  | nil =>
      rw [← Option.some.inj hw]
      exact ⟨rfl, rfl⟩
  | concat h nonneg ordered sent_before ih =>
      rename_i trace l
      obtain ⟨w₀, hw₀, -, -⟩ := agree_run h
      obtain ⟨hstart, hend⟩ := ih hw₀
      have hline := (Script.run_concat hw₀ l).symm.trans hw
      have happ : agentTimes (trace ++ [l]) = agentTimes trace ++ agentTimes [l] :=
        List.filterMap_append
      rw [happ]
      rcases Script.line_interval hline with ⟨hnone, hs, he⟩ | ⟨hone, hs, he⟩
      · rw [hnone, List.append_nil, hs, he]
        exact ⟨hstart, hend⟩
      · rw [hone, List.head?_append, List.getLast?_concat, hs, he, hstart, hend]
        cases htimes : agentTimes trace with
        | nil =>
            -- the first tcp line of an agent
            refine ⟨if_pos (by norm_num), ?_⟩
            exact max_eq_right nonneg
        | cons t ts =>
            have ht : 0 ≤ t := by
              obtain ⟨l', hl', rfl⟩ := mem_of_mem_agentTimes (t := t) (htimes ▸ List.mem_cons_self)
              exact h.inOrder.nonneg _ (List.mem_map_of_mem hl')
            refine ⟨if_neg (not_lt.mpr ht), ?_⟩
            have hsome : (t :: ts).getLast?.isSome := by simp
            obtain ⟨last, hlast⟩ := Option.isSome_iff_exists.mp hsome
            rw [hlast]
            obtain ⟨l', hl', rfl⟩ := mem_of_mem_agentTimes (htimes ▸ List.mem_of_getLast? hlast)
            exact max_eq_right (ordered l' hl')

theorem ParseAwk.packetRule_receivedBytes (v : ParseAwk) (p : PacketLine) :
    (v.packetRule p).receivedBytes =
      v.receivedBytes + if p.agentTcp ∧ p.event = .r then p.packetBytes - headerBytes else 0 := by
  have hagent : (v.packetRule p).receivedBytes =
      (if p.layer = .AGT ∧ p.packetType = .tcp then v.agentRule p else v).receivedBytes := by
    rw [ParseAwk.packetRule]
    split <;> rfl
  rw [hagent, ParseAwk.agentRule]
  by_cases ha : p.agentTcp = true
  · rw [if_pos (agentTcp_iff.mp ha)]
    by_cases hs : p.event = .s
    · simp [hs]
    · rw [if_neg hs]
      by_cases hr : p.event = .r
      · rw [if_pos hr, if_pos ⟨ha, hr⟩]
      · rw [if_neg hr, if_neg fun h => hr h.2, add_zero]
  · rw [if_neg fun h => ha (agentTcp_iff.mpr h), if_neg fun h => ha h.1, add_zero]

/-- The bytes that `parse.awk` has counted. -/
theorem receivedBytes_run (trace : List Line) :
    (ParseAwk.run trace).receivedBytes = payload trace := by
  induction trace using List.reverseRecOn with
  | nil => rfl
  | append_singleton trace l ih =>
      have hpay : payload (trace ++ [l]) = payload trace + payload [l] := by
        rw [payload, agentLines_append, List.map_append, List.sum_append]
        rfl
      rw [ParseAwk.run_concat, hpay, ← ih]
      generalize ParseAwk.run trace = v
      have hstamp : (v.stamp l).receivedBytes = v.receivedBytes := by
        rw [ParseAwk.stamp]
        dsimp only
        split <;> rfl
      rw [← hstamp]
      cases l with
      | energy time node en => exact (add_zero _).symm
      | packet p =>
          rw [ParseAwk.rule, ParseAwk.packetRule_receivedBytes, payload, agentLines_packet]
          congr 1
          split <;> simp

end Intervals

section Throughput

/-- The counts, the bytes and the delay that the two programs compute are the same. -/
structure SameCounts (v : ParseAwk) (w : Script) : Prop where
  sent_eq : v.sentPackets = w.totalNumberOfPacketsSent
  received_eq : v.receivedPackets = w.totalNumberOfPacketsReceived
  dropped_eq : v.droppedPackets = w.totalNumberOfPacketsDropped
  bytes_eq : v.receivedBytes = w.totalPacketBytes
  delay_eq : v.totalDelay = w.totalDelayTime

/-- The figures behind the throughput are the same, or both programs end at the same one. -/
structure SameRatios (v : ParseAwk) (w : Script) : Prop where
  averageDelay_eq : v.averageDelay = w.averageDelay
  deliveryRatio_eq : v.deliveryRatio = w.packetDeliveryRatio
  dropRatio_eq : v.dropRatio = w.packetDropRatio

theorem Agree.sameCounts (h : Agree v w) : SameCounts v w :=
  ⟨h.sent_eq, h.received_eq, h.dropped_eq, h.bytes_eq, h.delay_eq⟩

/-- Programs that have not ended at the throughput go on with the same numbers. -/
theorem Agree.sameRatios (h : Agree v w) (hv : v.throughput.isSome)
    (hw : w.networkThroughput.isSome) : SameRatios v w := by
  obtain ⟨x, hx⟩ := Option.isSome_iff_exists.mp hv
  obtain ⟨y, hy⟩ := Option.isSome_iff_exists.mp hw
  -- each figure waits for the one before it
  have hdelay : v.averageDelay = w.averageDelay := by
    rw [ParseAwk.averageDelay, Script.averageDelay, hx, hy, h.delay_eq, h.received_eq]
    rfl
  have hdelivery : v.deliveryRatio = w.packetDeliveryRatio := by
    rw [ParseAwk.deliveryRatio, Script.packetDeliveryRatio, hdelay, h.received_eq, h.sent_eq]
  refine ⟨hdelay, hdelivery, ?_⟩
  rw [ParseAwk.dropRatio, Script.packetDropRatio, hdelivery, h.dropped_eq, h.sent_eq]

/-- The two intervals give the same throughput. -/
def SameThroughput (trace : List Line) : Prop :=
  wholeSpan trace = agentSpan trace ∨
    payload trace = 0 ∧ wholeSpan trace ≠ 0 ∧ agentSpan trace ≠ 0

/-- On every trace the two programs compute the same counts, bytes and total delay, and the
same average delay and ratios if neither has ended at the throughput; without energy
lines their throughputs are the same exactly if the intervals are as long, or nothing
was received in intervals that are not empty. -/
theorem offline_agree (trace : List Line) (h : WellFormed trace) :
    ∃ w, Script.run trace = some w ∧
      SameCounts (ParseAwk.run trace) w ∧
      ((ParseAwk.run trace).throughput.isSome → w.networkThroughput.isSome →
        SameRatios (ParseAwk.run trace) w) ∧
      (EnergyFree trace →
        (ParseAwk.run trace).throughput = divide (payload trace * 8) (wholeSpan trace) ∧
        w.networkThroughput = divide (payload trace * 8) (agentSpan trace) ∧
        ((ParseAwk.run trace).throughput = w.networkThroughput ↔ SameThroughput trace)) := by
  obtain ⟨w, hw, hagree, -⟩ := agree_run h
  refine ⟨w, hw, hagree.sameCounts, hagree.sameRatios, ?_⟩
  intro he
  obtain ⟨hs, ht⟩ := awk_interval h he
  obtain ⟨hs', ht'⟩ := script_interval h hw
  have hawk : (ParseAwk.run trace).throughput = divide (payload trace * 8) (wholeSpan trace) := by
    rw [ParseAwk.throughput, ParseAwk.simulationTime, hs, ht, receivedBytes_run]
    rfl
  have hscript : w.networkThroughput = divide (payload trace * 8) (agentSpan trace) := by
    rw [Script.networkThroughput, Script.totalTime, hs', ht', ← hagree.bytes_eq,
      receivedBytes_run]
    rfl
  refine ⟨hawk, hscript, ?_⟩
  rw [hawk, hscript, divide_eq_iff, SameThroughput]
  have hzero : (payload trace : ℚ) * 8 = 0 ↔ payload trace = 0 := by simp
  rw [hzero]

/-- A packet is sent and received; then another node passes on a packet of routing. -/
def relayedLast : List Line :=
  [.packet { event := .s, time := 1, layer := .AGT, packetId := 0, packetType := .tcp,
             packetBytes := 56 },
   .packet { event := .r, time := 2, layer := .AGT, packetId := 0, packetType := .tcp,
             packetBytes := 56 },
   .packet { event := .r, time := 3, layer := .other "RTR", packetId := 1,
             packetType := .other "AODV", packetBytes := 48 }]

theorem wellFormed_relayedLast : WellFormed relayedLast := by
  have h₁ : WellFormed (relayedLast.take 1) := by
    refine WellFormed.nil.concat (by decide) (by simp) ?_
    rintro p ⟨⟩ - ⟨⟩
  have h₂ : WellFormed (relayedLast.take 2) := by
    refine h₁.concat (by decide) (by decide) ?_
    rintro p ⟨⟩ - -
    exact ⟨_, List.mem_cons_self, rfl⟩
  refine h₂.concat (by decide) (by decide) ?_
  rintro p ⟨⟩ ⟨⟩

theorem throughputs_relayedLast : (ParseAwk.run relayedLast).throughput = some 160 ∧
    (Script.run relayedLast).bind Script.networkThroughput = some 320 := by
  decide +kernel

theorem offline_agree_relayedLast :
    ∃ w, Script.run relayedLast = some w ∧
      SameCounts (ParseAwk.run relayedLast) w ∧ SameRatios (ParseAwk.run relayedLast) w ∧
      ((ParseAwk.run relayedLast).throughput = w.networkThroughput ↔
        SameThroughput relayedLast) := by
  obtain ⟨w, hw, hcounts, hratios, hthroughput⟩ := offline_agree relayedLast wellFormed_relayedLast
  obtain ⟨hawk, hscript⟩ := throughputs_relayedLast
  rw [hw, Option.bind_some] at hscript
  refine ⟨w, hw, hcounts, hratios (by rw [hawk]; rfl) (by rw [hscript]; rfl), ?_⟩
  refine (hthroughput ?_).2.2
  intro l hl
  fin_cases hl <;> exact ⟨_, rfl⟩

/-- The interval of `parse.awk` goes on to the line of the other node: 160 bit/s
instead of 320. -/
theorem throughput_relayedLast :
    ¬∀ trace, WellFormed trace →
      ∃ w, Script.run trace = some w ∧ (ParseAwk.run trace).throughput = w.networkThroughput := by
  intro hall
  obtain ⟨w, hw, heq⟩ := hall relayedLast wellFormed_relayedLast
  obtain ⟨hawk, hscript⟩ := throughputs_relayedLast
  rw [hw, Option.bind_some, ← heq, hawk] at hscript
  exact absurd hscript (by decide +kernel)

end Throughput

end ComputerNetworking.Analysis
