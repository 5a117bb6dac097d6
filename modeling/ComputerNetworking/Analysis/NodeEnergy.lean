import ComputerNetworking.Analysis.WirelessCounts

/-!
# The energy that the nodes have consumed

`parse_wireless_RED.awk` keeps the last energy that each node reported, and averages what
is left of its own initial energy, which is not the one that `wireless.tcl` gives the nodes:
the average is too high by the difference of the two, whatever the trace
(`averageEnergy_run`). How the lines of different nodes are interleaved does not matter
(`averageEnergy_congr`).
-/

set_option autoImplicit false

namespace ComputerNetworking.Analysis

/-- The `-initialEnergy` of the nodes of `wireless.tcl`. -/
def nodeInitialEnergy : ℚ := 1000

/-- The energies that a node reports, in order. -/
def reports (node : ℕ) (trace : List Line) : List ℚ :=
  trace.filterMap fun
    | .packet _ => none
    | .energy _ node' energy => if node' = node then some energy else none

/-- The nodes that report, once for each line. -/
def reporters (trace : List Line) : List ℕ :=
  trace.filterMap fun
    | .packet _ => none
    | .energy _ node _ => some node

/-- The last energy that a node reported. -/
def lastReport (node : ℕ) (trace : List Line) : ℚ := (reports node trace).getLast?.getD 0

/-- The mean, over the nodes that reported, of what is missing from an initial energy. -/
def meanMissing (initial : ℚ) (trace : List Line) : ℚ :=
  (∑ node ∈ (reporters trace).toFinset, (initial - lastReport node trace)) /
    (reporters trace).toFinset.card

/-- The mean of the energy that the nodes have consumed. -/
def meanConsumed (trace : List Line) : ℚ := meanMissing nodeInitialEnergy trace

/-- Two traces in which each node reports the same. -/
def SameReports (trace trace' : List Line) : Prop :=
  ∀ node, reports node trace = reports node trace'

/-- `averageEnergy` after `END`. -/
def ParseWireless.averageEnergy (v : ParseWireless) : Option ℚ :=
  divide v.totalEnergy v.finalEnergy.length

/-- The average is the mean of the energy consumed, and depends on no interleaving. -/
structure ConsumedMean (trace : List Line) : Prop where
  mean : ∀ average, (ParseWireless.run trace).averageEnergy = some average →
    average = meanConsumed trace
  interleaved : ∀ trace', SameReports trace trace' →
    (ParseWireless.run trace').averageEnergy = (ParseWireless.run trace).averageEnergy

/-! ## The reports of the nodes -/

section Reports

variable {trace trace' : List Line} {node : ℕ}

theorem reports_packet (trace : List Line) (l : PacketLine) :
    reports node (trace ++ [.packet l]) = reports node trace := by
  rw [reports, List.filterMap_append]
  exact List.append_nil _

theorem reporters_packet (trace : List Line) (l : PacketLine) :
    reporters (trace ++ [.packet l]) = reporters trace := by
  rw [reporters, List.filterMap_append]
  exact List.append_nil _

theorem reporters_energy (trace : List Line) (time : ℚ) (node : ℕ) (energy : ℚ) :
    reporters (trace ++ [.energy time node energy]) = reporters trace ++ [node] := by
  rw [reporters, List.filterMap_append]
  rfl

theorem lastReport_self (trace : List Line) (time : ℚ) (node : ℕ) (energy : ℚ) :
    lastReport node (trace ++ [.energy time node energy]) = energy := by
  have hone : reports node [.energy time node energy] = [energy] := by simp [reports]
  rw [lastReport, reports, List.filterMap_append]
  change ((reports node trace ++ reports node [.energy time node energy]).getLast?).getD 0 = _
  rw [hone, List.getLast?_concat]
  rfl

theorem lastReport_of_ne (trace : List Line) (time : ℚ) {node' : ℕ} (energy : ℚ)
    (h : node ≠ node') :
    lastReport node (trace ++ [.energy time node' energy]) = lastReport node trace := by
  have hnone : reports node [.energy time node' energy] = [] := by simp [reports, h.symm]
  rw [lastReport, reports, List.filterMap_append]
  change ((reports node trace ++ reports node [.energy time node' energy]).getLast?).getD 0 = _
  rw [hnone, List.append_nil, lastReport]

theorem mem_reporters : node ∈ reporters trace ↔ reports node trace ≠ [] := by
  induction trace with
  | nil => simp [reporters, reports]
  | cons line trace ih =>
      cases line with
      | packet l => exact ih
      | energy time node' energy =>
          by_cases hnode : node' = node
          · simp [reporters, reports, hnode]
          · have hrest :
                reports node (.energy time node' energy :: trace) = reports node trace := by
              simp [reports, hnode]
            have hcons : reporters (.energy time node' energy :: trace) =
                node' :: reporters trace := rfl
            rw [hrest, hcons, List.mem_cons, ← ih]
            exact or_iff_right (Ne.symm hnode)

theorem reporters_congr (h : SameReports trace trace') :
    (reporters trace).toFinset = (reporters trace').toFinset := by
  ext node
  rw [List.mem_toFinset, List.mem_toFinset, mem_reporters, mem_reporters, h node]

end Reports

/-! ## The array of the script -/

namespace ParseWireless

variable {trace trace' : List Line} {array : List (ℕ × ℚ)} {node : ℕ} {energy : ℚ}

theorem keys_setElement (array : List (ℕ × ℚ)) (node : ℕ) (energy : ℚ) :
    (setElement array node energy).map Prod.fst =
      if node ∈ array.map Prod.fst then array.map Prod.fst else array.map Prod.fst ++ [node] := by
  have hany : array.any (·.1 = node) = true ↔ node ∈ array.map Prod.fst := by simp
  rw [setElement]
  by_cases h : node ∈ array.map Prod.fst
  · rw [if_pos (hany.mpr h), if_pos h, List.map_map]
    refine List.map_congr_left fun element _ => ?_
    by_cases he : element.1 = node <;> simp [he]
  · rw [if_neg (fun ha => h (hany.mp ha)), if_neg h, List.map_append]
    rfl

theorem mem_setElement {element : ℕ × ℚ} (h : element ∈ setElement array node energy) :
    element = (node, energy) ∨ element.1 ≠ node ∧ element ∈ array := by
  rw [setElement] at h
  split at h
  · obtain ⟨old, hold, rfl⟩ := List.mem_map.mp h
    by_cases hnode : old.1 = node
    · exact Or.inl (if_pos hnode)
    · rw [if_neg hnode]
      exact Or.inr ⟨hnode, hold⟩
  · rename_i hany
    rcases List.mem_append.mp h with hold | hnew
    · refine Or.inr ⟨fun hnode => hany ?_, hold⟩
      exact List.any_eq_true.mpr ⟨element, hold, decide_eq_true hnode⟩
    · exact Or.inl (List.mem_singleton.mp hnew)

/-- The array has an element of each node that reported, with the last energy. -/
structure HoldsReports (array : List (ℕ × ℚ)) (trace : List Line) : Prop where
  nodup : (array.map Prod.fst).Nodup
  keys : (array.map Prod.fst).toFinset = (reporters trace).toFinset
  last : ∀ element ∈ array, element.2 = lastReport element.1 trace

theorem HoldsReports.set (h : HoldsReports array trace) (time : ℚ) (node : ℕ) (energy : ℚ) :
    HoldsReports (setElement array node energy) (trace ++ [.energy time node energy]) := by
  constructor
  · rw [keys_setElement]
    split
    · exact h.nodup
    · rename_i hnew
      exact List.nodup_append'.mpr ⟨h.nodup, List.nodup_singleton node,
        List.disjoint_singleton.mpr hnew⟩
  · rw [keys_setElement, reporters_energy, List.toFinset_append, ← h.keys]
    split
    · rename_i hold
      refine (Finset.union_eq_left.mpr fun n hn => ?_).symm
      rw [List.mem_toFinset, List.mem_singleton] at hn
      rw [hn, List.mem_toFinset]
      exact hold
    · rw [List.toFinset_append]
  · intro element helement
    rcases mem_setElement helement with rfl | ⟨hne, hold⟩
    · exact (lastReport_self trace time node energy).symm
    · rw [lastReport_of_ne trace time energy hne]
      exact h.last element hold

theorem holdsReports_run (trace : List Line) : HoldsReports (run trace).finalEnergy trace := by
  induction trace using List.reverseRecOn with
  | nil => exact ⟨List.nodup_nil, rfl, fun element h => by cases h⟩
  | append_singleton trace l ih =>
      rw [run_concat]
      cases l with
      | energy time node energy => exact ih.set time node energy
      | packet l =>
          rw [(rule_effect (run trace) l).finalEnergy_eq]
          refine ⟨ih.nodup, ?_, fun element h => ?_⟩
          · rw [reporters_packet, ih.keys]
          · rw [lastReport, reports_packet, ← lastReport]
            exact ih.last element h

theorem HoldsReports.length (h : HoldsReports array trace) :
    array.length = (reporters trace).toFinset.card := by
  rw [← h.keys, List.toFinset_card_of_nodup h.nodup, List.length_map]

theorem HoldsReports.sum (h : HoldsReports array trace) (initial : ℚ) :
    (array.map fun element => initial - element.2).sum =
      ∑ node ∈ (reporters trace).toFinset, (initial - lastReport node trace) := by
  rw [← h.keys, List.sum_toFinset _ h.nodup, List.map_map]
  refine congrArg List.sum (List.map_congr_left fun element helement => ?_)
  rw [h.last element helement]
  rfl

/-- The script prints the mean of what is missing from its own initial energy. -/
theorem averageEnergy_eq (trace : List Line) :
    (run trace).averageEnergy =
      if (reporters trace).toFinset = ∅ then none else some (meanMissing initialEnergy trace) := by
  have h := holdsReports_run trace
  rw [averageEnergy, totalEnergy, h.sum, h.length, divide, meanMissing]
  simp only [Nat.cast_eq_zero, Finset.card_eq_zero]

theorem averageEnergy_congr (h : SameReports trace trace') :
    (run trace').averageEnergy = (run trace).averageEnergy := by
  have hlast : ∀ node, lastReport node trace' = lastReport node trace := fun node => by
    rw [lastReport, lastReport, h node]
  simp only [averageEnergy_eq, meanMissing, reporters_congr h, hlast]

/-- The last figure of a report is the average. -/
theorem report_getLast {v : ParseWireless} {figures : List ℚ} (h : v.report = some figures) :
    figures.getLast? = v.averageEnergy := by
  rw [report, ← averageEnergy] at h
  cases haverage : v.averageEnergy with
  | none =>
      rw [haverage] at h
      cases h
  | some average =>
      rw [haverage] at h
      simp only [Option.bind_eq_bind, Option.bind_some, Option.bind_eq_some_iff] at h
      obtain ⟨dropRatio, -, throughput, -, averageDelay, -, deliveryRatio, -, heq⟩ := h
      cases heq
      rfl

end ParseWireless

/-! ## The two initial energies -/

section Difference

variable {trace : List Line}

/-- The mean grows with the initial energy. -/
theorem meanMissing_add (initial more : ℚ) (h : (reporters trace).toFinset ≠ ∅) :
    meanMissing (initial + more) trace = meanMissing initial trace + more := by
  have hcard : ((reporters trace).toFinset.card : ℚ) ≠ 0 := by
    rw [Nat.cast_ne_zero, Ne, Finset.card_eq_zero]
    exact h
  have hsum : ∑ node ∈ (reporters trace).toFinset, (initial + more - lastReport node trace) =
      ∑ node ∈ (reporters trace).toFinset, (initial - lastReport node trace) +
        (reporters trace).toFinset.card * more := by
    rw [← nsmul_eq_mul, ← Finset.sum_const, ← Finset.sum_add_distrib]
    exact Finset.sum_congr rfl fun node _ => by ring
  rw [meanMissing, hsum, add_div, mul_div_cancel_left₀ _ hcard, meanMissing]

/-- The average of the script is the mean of the energy consumed and 1000. -/
theorem averageEnergy_run (h : (reporters trace).toFinset ≠ ∅) :
    (ParseWireless.run trace).averageEnergy = some (meanConsumed trace + 1000) := by
  have htwo : initialEnergy = nodeInitialEnergy + 1000 := by
    rw [initialEnergy, nodeInitialEnergy]
    norm_num
  rw [ParseWireless.averageEnergy_eq, if_neg h, htwo, meanMissing_add _ _ h, meanConsumed]

/-- The average is right exactly if there is none: no node has reported. -/
theorem consumedMean_iff (trace : List Line) : ConsumedMean trace ↔ reporters trace = [] := by
  rw [← List.toFinset_eq_empty_iff]
  constructor
  · intro h
    by_contra hsome
    have hmean := h.mean _ (averageEnergy_run hsome)
    linarith
  · intro hnone
    refine ⟨fun average haverage => ?_, fun trace' => ParseWireless.averageEnergy_congr⟩
    rw [ParseWireless.averageEnergy_eq, if_pos hnone] at haverage
    cases haverage

/-- A packet is sent and received, and node 0 reports its energy. -/
def sentThenReported : List Line :=
  [.packet ⟨.s, 1, .AGT, 7, .tcp, 1040⟩, .packet ⟨.r, 2, .AGT, 7, .tcp, 1040⟩, .energy 3 0 999]

/-- The script prints its figures of that trace, and that the node, which has used 1 of its
energy, has used 1001. -/
theorem consumed_too_high :
    ¬∀ trace, (ParseWireless.run trace).report.isSome → ConsumedMean trace := by
  intro h
  have hmean := (h sentThenReported (by decide +kernel)).mean 1001 (by decide +kernel)
  exact absurd hmean (by decide +kernel)

end Difference

end ComputerNetworking.Analysis
