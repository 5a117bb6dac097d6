import ComputerNetworking.Analysis.ParseWired

/-!
# What the wired analysis counts

A line of a packet that is not tcp is only counted (`rule_effect`). Over a trace in
time order the script counts the lines of tcp packets by their first field, at
whatever node they were written (`sentPackets_run`, `receivedPackets_run`,
`droppedPackets_run`).
-/

set_option autoImplicit false

namespace ComputerNetworking.Analysis

namespace LinkLine

/-- A tcp packet enters the queue of a link. -/
def sends (l : LinkLine) : Bool := l.packetType = .tcp && l.event = .plus

/-- A tcp packet is dropped. -/
def drops (l : LinkLine) : Bool := l.packetType = .tcp && (l.event = .d || l.event = .D)

/-- A tcp packet arrives at the end of a link. -/
def arrives (l : LinkLine) : Bool := l.packetType = .tcp && (l.event = .r || l.event = .R)

end LinkLine

namespace ParseWired

variable {v : ParseWired} {trace : List LinkLine}

theorem stamp_eq (v : ParseWired) (l : LinkLine) :
    v.stamp l =
      { v with count := v.count + 1, timeSec := l.time, startTime := min v.startTime l.time } := by
  rw [stamp, ← earlier_eq_min]
  dsimp only
  split_ifs <;> rfl

/-- What one line does to the variables. -/
structure Effect (v : ParseWired) (l : LinkLine) (v' : ParseWired) : Prop where
  packetTypeVar_eq : v'.packetTypeVar = none
  sent_eq : v'.sentPackets = v.sentPackets + if l.sends then 1 else 0
  dropped_eq : v'.droppedPackets = v.droppedPackets + if l.drops then 1 else 0
  sentTime_eq : v'.sentTime =
    if l.sends then Function.update v.sentTime l.packetId l.time else v.sentTime
  received_eq : v'.receivedPackets =
    v.receivedPackets + if l.arrives ∧ v.sentTime l.packetId ≤ l.time then 1 else 0
  delay_eq : v'.totalDelay = v.totalDelay +
    if l.arrives ∧ v.sentTime l.packetId ≤ l.time then l.time - v.sentTime l.packetId else 0
  startTime_eq : v'.startTime = min v.startTime l.time
  timeSec_eq : v'.timeSec = l.time

theorem rule_effect (hv : v.packetTypeVar = none) (l : LinkLine) : Effect v l (v.rule l) := by
  rw [rule, stamp_eq]
  dsimp only
  by_cases ht : l.packetType = .tcp
  · rw [if_pos (Or.inl ht), packetRule]
    by_cases hd : v.sentTime l.packetId ≤ l.time
    all_goals
      cases he : l.event <;> constructor <;>
        simp [LinkLine.sends, LinkLine.drops, LinkLine.arrives, ht, he, hv, hd]
  · rw [if_neg (by simp [ht, hv])]
    constructor <;> simp [LinkLine.sends, LinkLine.drops, LinkLine.arrives, ht, hv]

theorem run_concat (trace : List LinkLine) (l : LinkLine) :
    run (trace ++ [l]) = (run trace).rule l := List.foldl_concat rule {} l trace

theorem effect_run (trace : List LinkLine) (l : LinkLine) :
    Effect (run trace) l (run (trace ++ [l])) := by
  have hvar : (run trace).packetTypeVar = none := by
    induction trace using List.reverseRecOn with
    | nil => rfl
    | append_singleton trace l ih =>
        rw [run_concat]
        exact (rule_effect ih l).packetTypeVar_eq
  rw [run_concat]
  exact rule_effect hvar l

/-- The times of sending are not later than the lines that follow. -/
theorem sentTime_le (trace : List LinkLine) {t : ℚ} (h0 : 0 ≤ t)
    (h : ∀ l ∈ trace, l.time ≤ t) (id : ℕ) : (run trace).sentTime id ≤ t := by
  induction trace using List.reverseRecOn with
  | nil => exact h0
  | append_singleton trace l ih =>
      have hold := ih fun l' hl' => h l' (List.mem_append_left _ hl')
      rw [(effect_run trace l).sentTime_eq]
      split
      · by_cases hid : id = l.packetId
        · rw [hid, Function.update_self]
          exact h l (List.mem_append_right _ List.mem_cons_self)
        · rw [Function.update_of_ne hid]
          exact hold
      · exact hold

theorem countP_concat (f : LinkLine → Bool) (trace : List LinkLine) (l : LinkLine) :
    (trace ++ [l]).countP f = trace.countP f + if f l then 1 else 0 := by
  rw [List.countP_append, List.countP_singleton]

/-- A trace in time order. -/
abbrev Ordered (trace : List LinkLine) : Prop := InOrder (trace.map LinkLine.time)

theorem ordered_concat {l : LinkLine} (h : Ordered (trace ++ [l])) :
    Ordered trace ∧ 0 ≤ l.time ∧ ∀ l' ∈ trace, l'.time ≤ l.time := by
  rw [Ordered, List.map_append] at h
  obtain ⟨hold, h0, hle⟩ := inOrder_concat_iff.mp h
  exact ⟨hold, h0, fun l' hl' => hle _ (List.mem_map_of_mem hl')⟩

theorem sentPackets_run (trace : List LinkLine) :
    (run trace).sentPackets = trace.countP LinkLine.sends := by
  induction trace using List.reverseRecOn with
  | nil => rfl
  | append_singleton trace l ih => rw [(effect_run trace l).sent_eq, ih, countP_concat]

theorem droppedPackets_run (trace : List LinkLine) :
    (run trace).droppedPackets = trace.countP LinkLine.drops := by
  induction trace using List.reverseRecOn with
  | nil => rfl
  | append_singleton trace l ih => rw [(effect_run trace l).dropped_eq, ih, countP_concat]

theorem receivedPackets_run (h : Ordered trace) :
    (run trace).receivedPackets = trace.countP LinkLine.arrives := by
  induction trace using List.reverseRecOn with
  | nil => rfl
  | append_singleton trace l ih =>
      obtain ⟨hold, h0, hle⟩ := ordered_concat h
      have hsent := sentTime_le trace h0 hle l.packetId
      rw [(effect_run trace l).received_eq, ih hold, countP_concat]
      simp [hsent]

theorem interval_run (h : Ordered trace) :
    (run trace).startTime = startOf (trace.map LinkLine.time) ∧
      (run trace).timeSec = endOf (trace.map LinkLine.time) := by
  induction trace using List.reverseRecOn with
  | nil => exact ⟨(min_self 1000000).symm, rfl⟩
  | append_singleton trace l ih =>
      obtain ⟨hstart, -⟩ := ih (ordered_concat h).1
      have heff := effect_run trace l
      rw [Ordered, List.map_append] at h
      rw [heff.startTime_eq, heff.timeSec_eq, hstart, List.map_append]
      exact ⟨(startOf_concat h).symm, (endOf_concat _ _).symm⟩

end ParseWired

end ComputerNetworking.Analysis
