import ComputerNetworking.Analysis.WirelessCounts

/-!
# Packets and lines of a wireless trace

The assignment asks for packets: those sent, those delivered, and those dropped for good.
The awk scripts count lines: every tcp line of an agent that receives, and every tcp line
of a drop at any layer. Where each tcp packet is sent once, the two agree exactly when no
packet has two such lines (`countsPackets_iff`).
-/

set_option autoImplicit false

namespace ComputerNetworking.Analysis

def ParseAwk.counts (v : ParseAwk) : Counts :=
  ⟨v.sentPackets, v.receivedPackets, v.droppedPackets⟩

/-- The ids of the tcp lines of agents with the event `e`. -/
def agentIds (e : Event) (trace : List Line) : List ℕ := (agentLines e trace).map (·.packetId)

/-- The ids of the lines of dropped tcp packets. -/
def dropIds (trace : List Line) : List ℕ := (dropLines trace).map (·.packetId)

/-- Every tcp packet of the trace is sent by an agent once. -/
structure SentOnce (trace : List Line) : Prop where
  once : (agentIds .s trace).Nodup
  sent : ∀ l, Line.packet l ∈ trace → l.packetType = .tcp → l.packetId ∈ agentIds .s trace

/-- The packets that are sent, those that are delivered to their agent, and those that are
dropped and never delivered. -/
def packetCounts (trace : List Line) : Counts where
  sent := (agentIds .s trace).toFinset.card
  received := (agentIds .r trace).toFinset.card
  dropped := ((dropIds trace).toFinset \ (agentIds .r trace).toFinset).card

/-- The counts are of packets, and the two ratios add up to 1 at most. -/
def CountsPackets (trace : List Line) (c : Counts) : Prop :=
  c = packetCounts trace ∧ c.received + c.dropped ≤ c.sent

/-- No packet has two lines of a delivery or a drop. -/
def OneFate (trace : List Line) : Prop := (agentIds .r trace ++ dropIds trace).Nodup

instance (trace : List Line) : Decidable (OneFate trace) :=
  inferInstanceAs (Decidable (List.Nodup _))

/-! ## What the scripts count -/

theorem ParseAwk.counts_stamp (v : ParseAwk) (line : Line) : (v.stamp line).counts = v.counts := by
  rw [ParseAwk.stamp]
  dsimp only
  split <;> rfl

theorem ParseAwk.counts_packetRule (v : ParseAwk) (l : PacketLine) :
    (v.packetRule l).counts = v.counts.packetRule l := by
  simp only [ParseAwk.packetRule, ParseAwk.agentRule, Counts.packetRule, Counts.agentRule]
  split_ifs <;> rfl

theorem ParseAwk.counts_run (trace : List Line) :
    (ParseAwk.run trace).counts = lineCounts trace := by
  refine counts_foldl ParseAwk.counts rfl (fun v l => ?_) (fun v time node energy => ?_) trace
  · rw [ParseAwk.rule, ParseAwk.counts_packetRule, ParseAwk.counts_stamp]
  · rw [ParseAwk.rule, ParseAwk.counts_stamp]

/-! ## Packets -/

section Packets

variable {α : Type} [DecidableEq α] {trace : List Line}

theorem card_toFinset_eq_length_iff {ids : List α} :
    ids.toFinset.card = ids.length ↔ ids.Nodup := by
  constructor
  · intro h
    exact Multiset.toFinset_card_eq_card_iff_nodup.mp h
  · exact List.toFinset_card_of_nodup

/-- The ids are pairwise different if none is counted twice, in one list or in both. -/
theorem nodup_append_iff_card {delivered dropped : List α} :
    (delivered ++ dropped).Nodup ↔
      delivered.length = delivered.toFinset.card ∧
        dropped.length = (dropped.toFinset \ delivered.toFinset).card := by
  rw [List.nodup_append', eq_comm, card_toFinset_eq_length_iff]
  refine and_congr_right fun _ => ?_
  have hle : (dropped.toFinset \ delivered.toFinset).card ≤ dropped.toFinset.card :=
    Finset.card_le_card Finset.sdiff_subset
  have hlen : dropped.toFinset.card ≤ dropped.length := List.toFinset_card_le dropped
  constructor
  · rintro ⟨hnodup, hdisj⟩
    have hfin : Disjoint dropped.toFinset delivered.toFinset :=
      (List.disjoint_toFinset_iff_disjoint.mpr hdisj).symm
    rw [Finset.sdiff_eq_self_of_disjoint hfin]
    exact (List.toFinset_card_of_nodup hnodup).symm
  · intro heq
    have hcard : (dropped.toFinset \ delivered.toFinset).card = dropped.toFinset.card := by omega
    have hsame : dropped.toFinset \ delivered.toFinset = dropped.toFinset :=
      Finset.eq_of_subset_of_card_le Finset.sdiff_subset hcard.ge
    refine ⟨card_toFinset_eq_length_iff.mp (by omega), ?_⟩
    exact List.disjoint_toFinset_iff_disjoint.mp (Finset.sdiff_eq_self_iff_disjoint.mp hsame).symm

theorem mem_agentIds_r (h : SentOnce trace) {id : ℕ} (hid : id ∈ agentIds .r trace) :
    id ∈ agentIds .s trace := by
  obtain ⟨l, hl, rfl⟩ := List.mem_map.mp hid
  obtain ⟨line, hline, hsome⟩ := List.mem_filterMap.mp hl
  cases line with
  | energy time node energy => cases hsome
  | packet l' =>
      dsimp only at hsome
      split at hsome
      · rename_i ha
        cases hsome
        rw [Bool.and_eq_true] at ha
        exact h.sent l hline (agentTcp_iff.mp ha.1).2
      · cases hsome

theorem mem_dropIds (h : SentOnce trace) {id : ℕ} (hid : id ∈ dropIds trace) :
    id ∈ agentIds .s trace := by
  obtain ⟨l, hl, rfl⟩ := List.mem_map.mp hid
  obtain ⟨line, hline, hsome⟩ := List.mem_filterMap.mp hl
  cases line with
  | energy time node energy => cases hsome
  | packet l' =>
      dsimp only at hsome
      split at hsome
      · rename_i hd
        cases hsome
        exact h.sent l hline hd.1
      · cases hsome

/-- A packet that is sent is delivered, or dropped for good, or neither. -/
theorem packetCounts_le (h : SentOnce trace) :
    (packetCounts trace).received + (packetCounts trace).dropped ≤ (packetCounts trace).sent := by
  have hdisj : Disjoint (agentIds .r trace).toFinset
      ((dropIds trace).toFinset \ (agentIds .r trace).toFinset) := Finset.disjoint_sdiff
  rw [packetCounts]
  dsimp only
  rw [← Finset.card_union_of_disjoint hdisj]
  refine Finset.card_le_card fun id hid => ?_
  rw [Finset.mem_union, Finset.mem_sdiff] at hid
  rw [List.mem_toFinset]
  rcases hid with hr | ⟨hd, -⟩
  · exact mem_agentIds_r h (List.mem_toFinset.mp hr)
  · exact mem_dropIds h (List.mem_toFinset.mp hd)

theorem countsPackets_lineCounts_iff (h : SentOnce trace) :
    CountsPackets trace (lineCounts trace) ↔ OneFate trace := by
  have hlines : CountsPackets trace (lineCounts trace) ↔ lineCounts trace = packetCounts trace := by
    refine ⟨fun hc => hc.1, fun heq => ⟨heq, ?_⟩⟩
    rw [heq]
    exact packetCounts_le h
  rw [hlines, OneFate, nodup_append_iff_card, lineCounts, packetCounts, Counts.mk.injEq]
  have hsent : (agentLines .s trace).length = (agentIds .s trace).toFinset.card := by
    rw [List.toFinset_card_of_nodup h.once, agentIds, List.length_map]
  rw [← @List.length_map _ _ (agentLines .r trace) (·.packetId),
    ← @List.length_map _ _ (dropLines trace) (·.packetId)]
  exact and_iff_right hsent

end Packets

/-! ## The law of the ratios -/

/-- Where every tcp packet is sent once, the scripts count packets exactly when no packet
has two lines of a delivery or a drop. -/
theorem countsPackets_iff (trace : List Line) (h : SentOnce trace) :
    (CountsPackets trace (ParseWireless.run trace).counts ↔ OneFate trace) ∧
      (CountsPackets trace (ParseAwk.run trace).counts ↔ OneFate trace) := by
  rw [ParseWireless.counts_run, ParseAwk.counts_run]
  exact ⟨countsPackets_lineCounts_iff h, countsPackets_lineCounts_iff h⟩

/-- A tcp line of packet 7. -/
def packetSeven (event : Event) (layer : Layer) (time : ℚ) : Line :=
  .packet ⟨event, time, layer, 7, .tcp, 1040⟩

theorem sentOnce_seven (lines : List Line) (h : ∀ l ∈ lines, ∃ event layer time,
    l = packetSeven event layer time ∧ event ≠ .s) (time : ℚ) :
    SentOnce (packetSeven .s .AGT time :: lines) := by
  have hids : agentIds .s (packetSeven .s .AGT time :: lines) = [7] := by
    have hnone : agentLines .s lines = [] := by
      refine List.filterMap_eq_nil_iff.mpr fun l hl => ?_
      obtain ⟨event, layer, time, rfl, he⟩ := h l hl
      simp [packetSeven, he]
    rw [agentIds, ← List.singleton_append, agentLines_append, hnone]
    rfl
  refine ⟨by rw [hids]; exact List.nodup_singleton 7, fun l hl _ => ?_⟩
  rw [hids, List.mem_singleton]
  rcases List.mem_cons.mp hl with hfirst | hrest
  · cases hfirst
    rfl
  · obtain ⟨event, layer, time, heq, -⟩ := h _ hrest
    cases heq
    rfl

theorem countsPackets_iff_delivered :
    CountsPackets [packetSeven .s .AGT 1, packetSeven .r .AGT 2]
      (ParseWireless.run [packetSeven .s .AGT 1, packetSeven .r .AGT 2]).counts := by
  refine (countsPackets_iff _ (sentOnce_seven _ (fun l hl => ?_) 1)).1.mpr ?_
  · exact ⟨.r, .AGT, 2, List.mem_singleton.mp hl, by decide⟩
  · decide

/-- A packet of which one copy is dropped by a router and the other delivered counts as
delivered and as dropped: the two ratios add up to 2. -/
theorem dropped_copy_counted_twice :
    ¬∀ trace, InOrder (trace.map Line.time) → SentOnce trace →
      CountsPackets trace (ParseWireless.run trace).counts ∨
        CountsPackets trace (ParseAwk.run trace).counts := by
  intro h
  have hsent : SentOnce
      [packetSeven .s .AGT 1, packetSeven .D (.other "RTR") 2, packetSeven .r .AGT 3] := by
    refine sentOnce_seven _ (fun l hl => ?_) 1
    rcases List.mem_cons.mp hl with rfl | hr
    · exact ⟨.D, .other "RTR", 2, rfl, by decide⟩
    · exact ⟨.r, .AGT, 3, List.mem_singleton.mp hr, by decide⟩
  have horder : InOrder
      ([packetSeven .s .AGT 1, packetSeven .D (.other "RTR") 2, packetSeven .r .AGT 3].map
        Line.time) := by
    simp only [packetSeven, Line.time, List.map_cons, List.map_nil]
    constructor
    · simp
    · simp; norm_num
  have hcounts := h _ horder hsent
  rw [ParseWireless.counts_run, ParseAwk.counts_run, or_self] at hcounts
  exact absurd hcounts.2 (by decide)

end ComputerNetworking.Analysis
