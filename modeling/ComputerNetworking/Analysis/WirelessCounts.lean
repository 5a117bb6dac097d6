import ComputerNetworking.Analysis.ParseWireless

/-!
# What the wireless analysis counts

The awk scripts count the tcp lines of agents and those of drops (`counts_foldl`).
`parse_wireless_RED.awk` measures from the first line of a packet to the last one, and has
an energy of every node that reported one.
-/

set_option autoImplicit false

namespace ComputerNetworking.Analysis

/-- A line about a packet. -/
def Line.isPacket : Line → Bool
  | .packet _ => true
  | .energy .. => false

/-- The times of the packet lines. -/
def packetTimes (trace : List Line) : List ℚ := (trace.filter Line.isPacket).map Line.time

theorem packetTimes_append (trace trace' : List Line) :
    packetTimes (trace ++ trace') = packetTimes trace ++ packetTimes trace' := by
  rw [packetTimes, List.filter_append, List.map_append]
  rfl

theorem inOrder_packetTimes {trace : List Line} (h : InOrder (trace.map Line.time)) :
    InOrder (packetTimes trace) := by
  have hsub : (packetTimes trace).Sublist (trace.map Line.time) := List.filter_sublist.map _
  exact ⟨fun t ht => h.nonneg t (hsub.subset ht), h.sorted.sublist hsub⟩

/-! ## Counts -/

/-- What the scripts count. -/
structure Counts where
  sent : ℕ
  received : ℕ
  dropped : ℕ
deriving DecidableEq, Repr

def ParseWireless.counts (v : ParseWireless) : Counts :=
  ⟨v.sentPackets, v.receivedPackets, v.droppedPackets⟩

/-- The lines of dropped tcp packets, of any layer. -/
def dropLines (trace : List Line) : List PacketLine :=
  trace.filterMap fun
    | .packet l => if l.packetType = .tcp ∧ l.event = .D then some l else none
    | .energy .. => none

/-- The counts of the lines of a trace. -/
def lineCounts (trace : List Line) : Counts where
  sent := (agentLines .s trace).length
  received := (agentLines .r trace).length
  dropped := (dropLines trace).length

/-- The counts with those of one line more. -/
def Counts.add (c : Counts) (l : PacketLine) : Counts where
  sent := c.sent + (agentLines .s [.packet l]).length
  received := c.received + (agentLines .r [.packet l]).length
  dropped := c.dropped + (dropLines [.packet l]).length

theorem lineCounts_packet (trace : List Line) (l : PacketLine) :
    lineCounts (trace ++ [.packet l]) = (lineCounts trace).add l := by
  rw [lineCounts, agentLines_append, agentLines_append, dropLines, List.filterMap_append,
    List.length_append, List.length_append, List.length_append]
  rfl

theorem lineCounts_energy (trace : List Line) (time : ℚ) (node : ℕ) (energy : ℚ) :
    lineCounts (trace ++ [.energy time node energy]) = lineCounts trace := by
  rw [lineCounts, agentLines_append, agentLines_append, dropLines, List.filterMap_append]
  have hnone : ∀ e, agentLines e [.energy time node energy] = [] := fun e => rfl
  rw [hnone, hnone, List.append_nil, List.append_nil]
  exact congrArg (Counts.mk _ _) (congrArg List.length (List.append_nil _))

theorem dropLines_packet (l : PacketLine) :
    dropLines [.packet l] = if l.packetType = .tcp ∧ l.event = .D then [l] else [] := by
  by_cases h : l.packetType = .tcp ∧ l.event = .D <;> simp [dropLines, h]

/-- What the rules do to the counts at a tcp line of an agent. -/
def Counts.agentRule (c : Counts) (l : PacketLine) : Counts :=
  if l.event = .s then { c with sent := c.sent + 1 }
  else if l.event = .r then { c with received := c.received + 1 }
  else c

/-- What the rules do to the counts at the line of a packet. -/
def Counts.packetRule (c : Counts) (l : PacketLine) : Counts :=
  let c := if l.layer = .AGT ∧ l.packetType = .tcp then c.agentRule l else c
  if l.packetType = .tcp ∧ l.event = .D then { c with dropped := c.dropped + 1 } else c

theorem Counts.packetRule_eq (c : Counts) (l : PacketLine) : c.packetRule l = c.add l := by
  rw [packetRule, add, agentLines_packet, agentLines_packet, dropLines_packet]
  by_cases ha : l.agentTcp = true
  · obtain ⟨hlayer, htype⟩ := agentTcp_iff.mp ha
    cases he : l.event <;> simp [agentRule, ha, hlayer, htype, he]
  · have hlayer : ¬(l.layer = .AGT ∧ l.packetType = .tcp) := fun h => ha (agentTcp_iff.mpr h)
    rw [if_neg hlayer]
    by_cases hd : l.packetType = .tcp ∧ l.event = .D <;> simp [ha, hd]

/-- A program whose rule does this to its counts has counted the lines of the trace. -/
theorem counts_foldl {V : Type} {rule : V → Line → V} (counts : V → Counts) {v : V}
    (hstart : counts v = ⟨0, 0, 0⟩)
    (hpacket : ∀ v l, counts (rule v (.packet l)) = (counts v).packetRule l)
    (henergy : ∀ v time node energy, counts (rule v (.energy time node energy)) = counts v)
    (trace : List Line) : counts (trace.foldl rule v) = lineCounts trace := by
  induction trace using List.reverseRecOn with
  | nil => exact hstart
  | append_singleton trace l ih =>
      rw [List.foldl_concat]
      cases l with
      | energy time node energy => rw [henergy, lineCounts_energy, ih]
      | packet l => rw [hpacket, Counts.packetRule_eq, lineCounts_packet, ih]

/-! ## The variables of the script -/

namespace ParseWireless

variable {trace : List Line}

theorem stamp_eq (v : ParseWireless) (l : PacketLine) :
    v.stamp l =
      { v with count := v.count + 1, timeSec := l.time, startTime := min v.startTime l.time } := by
  rw [stamp, ← earlier_eq_min]
  dsimp only
  split_ifs <;> rfl

theorem run_concat (trace : List Line) (l : Line) : run (trace ++ [l]) = (run trace).rule l :=
  List.foldl_concat rule {} l trace

theorem counts_packetRule (v : ParseWireless) (l : PacketLine) :
    (v.packetRule l).counts = v.counts.packetRule l := by
  simp only [packetRule, agentRule, Counts.packetRule, Counts.agentRule]
  split_ifs <;> rfl

theorem counts_run (trace : List Line) : (run trace).counts = lineCounts trace := by
  refine counts_foldl counts rfl (fun v l => ?_) (fun v time node energy => rfl) trace
  rw [rule, counts_packetRule, stamp_eq]
  rfl

theorem sentPackets_run (trace : List Line) :
    (run trace).sentPackets = (agentLines .s trace).length :=
  congrArg Counts.sent (counts_run trace)

theorem receivedPackets_run (trace : List Line) :
    (run trace).receivedPackets = (agentLines .r trace).length :=
  congrArg Counts.received (counts_run trace)

/-- The interval and the energies after the line of a packet. -/
structure Effect (v : ParseWireless) (l : PacketLine) (v' : ParseWireless) : Prop where
  startTime_eq : v'.startTime = min v.startTime l.time
  timeSec_eq : v'.timeSec = l.time
  finalEnergy_eq : v'.finalEnergy = v.finalEnergy

theorem rule_effect (v : ParseWireless) (l : PacketLine) : Effect v l (v.rule (.packet l)) := by
  rw [rule, stamp_eq, packetRule, agentRule]
  split_ifs <;> exact ⟨rfl, rfl, rfl⟩

theorem interval_run (h : InOrder (packetTimes trace)) :
    (run trace).startTime = startOf (packetTimes trace) ∧
      (run trace).timeSec = endOf (packetTimes trace) := by
  induction trace using List.reverseRecOn with
  | nil => exact ⟨(min_self 1000000).symm, rfl⟩
  | append_singleton trace l ih =>
      rw [packetTimes_append] at h ⊢
      rw [run_concat]
      cases l with
      | energy time node energy =>
          have hnone : packetTimes [.energy time node energy] = [] := rfl
          rw [hnone, List.append_nil] at h ⊢
          exact ih h
      | packet l =>
          have hone : packetTimes [.packet l] = [l.time] := rfl
          rw [hone] at h ⊢
          obtain ⟨hstart, -⟩ := ih (inOrder_concat_iff.mp h).1
          have heff := rule_effect (run trace) l
          rw [heff.startTime_eq, heff.timeSec_eq, hstart]
          exact ⟨(startOf_concat h).symm, (endOf_concat _ _).symm⟩

theorem setElement_ne_nil (array : List (ℕ × ℚ)) (node : ℕ) (energy : ℚ) :
    setElement array node energy ≠ [] := by
  rw [setElement]
  split
  · rename_i hany
    intro hmap
    rw [List.map_eq_nil_iff.mp hmap] at hany
    cases hany
  · simp

/-- A node has reported its energy. -/
theorem finalEnergy_run (trace : List Line) :
    (run trace).finalEnergy ≠ [] ↔ ∃ l ∈ trace, l.isPacket = false := by
  induction trace using List.reverseRecOn with
  | nil => simp [run]
  | append_singleton trace l ih =>
      rw [run_concat]
      cases l with
      | energy time node energy =>
          refine iff_of_true (setElement_ne_nil _ node energy) ?_
          exact ⟨_, List.mem_append_right _ List.mem_cons_self, rfl⟩
      | packet l =>
          rw [(rule_effect (run trace) l).finalEnergy_eq, ih]
          simp [Line.isPacket]

end ParseWireless

end ComputerNetworking.Analysis
