import ComputerNetworking.Analysis.Journeys
import ComputerNetworking.Analysis.WiredCounts

/-!
# The wired figures are end to end for single hops of tcp only

The parsers count the lines of tcp packets at every hop. For one packet this is what
it counts end to end and as much again for every relay (`countP_sends`,
`countP_arrives`); the lines of several packets add up, however they are interleaved
(`IsTrace.sum_packets`). So the figures are right exactly if the hops that are counted
too often make up for the packets that are not looked at (`figures_iff`).
-/

set_option autoImplicit false

namespace ComputerNetworking.Analysis

open ComputerNetworking.Foundations

variable {packets : List Packet} {trace lines : List LinkLine} {p : Packet} {v : ℕ}

namespace Packet.Travels

/-- What the lines of a packet say about it. -/
theorem line_eq (h : p.Travels v lines) : ∀ l ∈ lines, l.packetType = p.kind ∧
    l.destination = p.destination ∧ l.event ≠ .R ∧ l.event ≠ .D := by
  induction h with
  | here v => simp
  | queued v w t => simp [line]
  | dropped v w t t' => simp [line]
  | onLink v w t t' => simp [line]
  | delivered v t t' t'' => simp [line]
  | relayed v w t t' t'' hw h ih =>
      intro l hl
      rcases List.mem_cons.mp hl with rfl | hl
      · simp [line]
      rcases List.mem_cons.mp hl with rfl | hl
      · simp [line]
      rcases List.mem_cons.mp hl with rfl | hl
      · simp [line]
      · exact ih l hl

/-- A packet that was injected was queued once and then as often as it was forwarded. -/
theorem countP_plus (h : p.Travels v lines) : lines.countP (fun l => l.event = .plus) =
    (if lines.isEmpty then 0 else 1) + forwards lines := by
  rw [forwards]
  cases h with
  | here => rfl
  | queued _ w t => rfl
  | dropped _ w t t' => rfl
  | onLink _ w t t' => rfl
  | delivered _ t t' t'' => rfl
  | relayed _ w t t' t'' hw h =>
      simp [line]
      omega

/-- An arrival is one at a relay or the one at the destination. -/
theorem countP_r (h : p.Travels v lines) : lines.countP (fun l => l.event = .r) =
    (if p.reached lines then 1 else 0) + p.relays lines := by
  induction h with
  | here v => rfl
  | queued v w t => simp [line, reached, relays]
  | dropped v w t t' => simp [line, reached, relays]
  | onLink v w t t' => simp [line, reached, relays]
  | delivered v t t' t'' => simp [line, reached, relays]
  | relayed v w t t' t'' hw h ih =>
      rw [reached, relays] at ih ⊢
      simp [line, hw] at ih ⊢
      omega

theorem countP_d (h : p.Travels v lines) : lines.countP (fun l => l.event = .d) =
    if lost lines then 1 else 0 := by
  induction h with
  | here v => rfl
  | queued v w t => rfl
  | dropped v w t t' => rfl
  | onLink v w t t' => rfl
  | delivered v t t' t'' => rfl
  | relayed v w t t' t'' hw h ih =>
      rw [lost] at ih ⊢
      simpa [line] using ih

/-- The lines of a packet are looked at if it is a tcp packet. -/
theorem countP_tcp (h : p.Travels v lines) (f : LinkLine → Bool) :
    lines.countP (fun l => l.packetType = .tcp && f l) =
      if p.kind = .tcp then lines.countP f else 0 := by
  split
  · rename_i hk
    apply List.countP_congr
    intro l hl
    simp [(h.line_eq l hl).1, hk]
  · rename_i hk
    apply List.countP_eq_zero.mpr
    intro l hl
    simp [(h.line_eq l hl).1, hk]

theorem countP_sends (h : p.Travels v lines) : lines.countP LinkLine.sends =
    if p.kind = .tcp then (if lines.isEmpty then 0 else 1) + forwards lines else 0 := by
  rw [← h.countP_plus]
  exact h.countP_tcp _

theorem countP_arrives (h : p.Travels v lines) : lines.countP LinkLine.arrives =
    if p.kind = .tcp then (if p.reached lines then 1 else 0) + p.relays lines else 0 := by
  have hr : lines.countP (fun l => l.event = .r || l.event = .R) =
      lines.countP fun l => l.event = .r := by
    apply List.countP_congr
    intro l hl
    simp [(h.line_eq l hl).2.2.1]
  rw [← h.countP_r, ← hr]
  exact h.countP_tcp _

theorem countP_drops (h : p.Travels v lines) : lines.countP LinkLine.drops =
    if p.kind = .tcp then (if lost lines then 1 else 0) + 0 else 0 := by
  have hd : lines.countP (fun l => l.event = .d || l.event = .D) =
      lines.countP fun l => l.event = .d := by
    apply List.countP_congr
    intro l hl
    simp [(h.line_eq l hl).2.2.2]
  rw [← h.countP_d, ← hd]
  exact h.countP_tcp _

/-- A line that is not an arrival adds no delay. -/
theorem totalDelay_rule {s : ParseWired} (hs : s.packetTypeVar = none) {l : LinkLine}
    (hl : l.event = .plus ∨ l.event = .minus ∨ l.event = .d) :
    (s.rule l).totalDelay = s.totalDelay := by
  have ha : l.arrives = false := by
    rcases hl with h | h | h <;> simp [LinkLine.arrives, h]
  rw [(ParseWired.rule_effect hs l).delay_eq, if_neg (by simp [ha]), add_zero]

/-- Over one link the time since the last queue is added, if the packet is tcp. -/
theorem totalDelay_hop {s : ParseWired} (hs : s.packetTypeVar = none) (u w : ℕ) {t t' t'' : ℚ}
    (ht : t ≤ t'') :
    (((s.rule (p.line .plus u w t)).rule (p.line .minus u w t')).rule
      (p.line .r u w t'')).totalDelay =
      s.totalDelay + if p.kind = .tcp then t'' - t else 0 := by
  have h₁ := ParseWired.rule_effect hs (p.line .plus u w t)
  have h₂ := ParseWired.rule_effect h₁.packetTypeVar_eq (p.line .minus u w t')
  have h₃ := ParseWired.rule_effect h₂.packetTypeVar_eq (p.line .r u w t'')
  have hminus : (p.line .minus u w t').sends = false := by simp [LinkLine.sends, line]
  have hsent := h₂.sentTime_eq
  rw [hminus, if_neg Bool.false_ne_true, h₁.sentTime_eq] at hsent
  rw [h₃.delay_eq, totalDelay_rule h₁.packetTypeVar_eq (Or.inr (Or.inl rfl)),
    totalDelay_rule hs (Or.inl rfl), hsent]
  by_cases hk : p.kind = .tcp
  · simp [LinkLine.sends, LinkLine.arrives, line, hk, ht]
  · simp [LinkLine.sends, LinkLine.arrives, line, hk]

/-- The delays that the parser adds up for the lines of one packet. -/
theorem totalDelay_foldl (h : p.Travels v lines)
    (hord : (lines.map LinkLine.time).Pairwise (· ≤ ·)) {s : ParseWired}
    (hs : s.packetTypeVar = none) : (lines.foldl ParseWired.rule s).totalDelay =
      s.totalDelay + if p.kind = .tcp then linkDelays lines else 0 := by
  -- induction on the journey; a hop adds what its link took
  induction h generalizing s with
  | here v => simp [linkDelays]
  | queued v w t =>
      simp only [List.foldl_cons, List.foldl_nil, linkDelays, ite_self, add_zero]
      exact totalDelay_rule hs (Or.inl rfl)
  | dropped v w t t' =>
      have h₁ := ParseWired.rule_effect hs (p.line .plus v w t)
      simp only [List.foldl_cons, List.foldl_nil, linkDelays, ite_self, add_zero]
      rw [totalDelay_rule h₁.packetTypeVar_eq (Or.inr (Or.inr rfl)),
        totalDelay_rule hs (Or.inl rfl)]
  | onLink v w t t' =>
      have h₁ := ParseWired.rule_effect hs (p.line .plus v w t)
      simp only [List.foldl_cons, List.foldl_nil, linkDelays, ite_self, add_zero]
      rw [totalDelay_rule h₁.packetTypeVar_eq (Or.inr (Or.inl rfl)),
        totalDelay_rule hs (Or.inl rfl)]
  | delivered v t t' t'' =>
      have ht : t ≤ t'' := (List.pairwise_cons.mp hord).1 t'' (by simp [line])
      simp only [List.foldl_cons, List.foldl_nil, linkDelays, add_zero]
      exact totalDelay_hop hs v p.destination ht
  | relayed v w t t' t'' hw h ih =>
      obtain ⟨hle, hord₁⟩ := List.pairwise_cons.mp hord
      have ht : t ≤ t'' := hle t'' (by simp [line])
      have hrest := (List.pairwise_cons.mp (List.pairwise_cons.mp hord₁).2).2
      have h₁ := ParseWired.rule_effect hs (p.line .plus v w t)
      have h₂ := ParseWired.rule_effect h₁.packetTypeVar_eq (p.line .minus v w t')
      have h₃ := ParseWired.rule_effect h₂.packetTypeVar_eq (p.line .r v w t'')
      simp only [List.foldl_cons, linkDelays]
      rw [ih hrest h₃.packetTypeVar_eq, totalDelay_hop hs v w ht]
      split
      · rw [add_assoc]
        rfl
      · rw [add_assoc, add_zero]

/-- The trace may end earlier. -/
theorem cut {pre : List LinkLine} (h : p.Travels v lines) (hpre : pre <+: lines) :
    p.Travels v pre := by
  -- the trace ends before the packet's first line, or in its first hop, or later
  induction h generalizing pre with
  | here v =>
      rw [List.prefix_nil.mp hpre]
      exact .here v
  | queued v w t =>
      rcases List.prefix_cons_iff.mp hpre with rfl | ⟨pre₁, rfl, h₁⟩
      · exact .here v
      · rw [List.prefix_nil.mp h₁]
        exact .queued v w t
  | dropped v w t t' =>
      rcases List.prefix_cons_iff.mp hpre with rfl | ⟨pre₁, rfl, h₁⟩
      · exact .here v
      rcases List.prefix_cons_iff.mp h₁ with rfl | ⟨pre₂, rfl, h₂⟩
      · exact .queued v w t
      · rw [List.prefix_nil.mp h₂]
        exact .dropped v w t t'
  | onLink v w t t' =>
      rcases List.prefix_cons_iff.mp hpre with rfl | ⟨pre₁, rfl, h₁⟩
      · exact .here v
      rcases List.prefix_cons_iff.mp h₁ with rfl | ⟨pre₂, rfl, h₂⟩
      · exact .queued v w t
      · rw [List.prefix_nil.mp h₂]
        exact .onLink v w t t'
  | delivered v t t' t'' =>
      rcases List.prefix_cons_iff.mp hpre with rfl | ⟨pre₁, rfl, h₁⟩
      · exact .here v
      rcases List.prefix_cons_iff.mp h₁ with rfl | ⟨pre₂, rfl, h₂⟩
      · exact .queued v p.destination t
      rcases List.prefix_cons_iff.mp h₂ with rfl | ⟨pre₃, rfl, h₃⟩
      · exact .onLink v p.destination t t'
      · rw [List.prefix_nil.mp h₃]
        exact .delivered v t t' t''
  | relayed v w t t' t'' hw h ih =>
      rcases List.prefix_cons_iff.mp hpre with rfl | ⟨pre₁, rfl, h₁⟩
      · exact .here v
      rcases List.prefix_cons_iff.mp h₁ with rfl | ⟨pre₂, rfl, h₂⟩
      · exact .queued v w t
      rcases List.prefix_cons_iff.mp h₂ with rfl | ⟨pre₃, rfl, h₃⟩
      · exact .onLink v w t t'
      · exact .relayed v w t t' t'' hw (ih h₃)

/-- A packet that arrives nowhere but at its destination crosses one link. -/
theorem one_hop (h : p.Travels v lines)
    (hone : ∀ l ∈ lines, l.event = .r → l.toNode = p.destination) :
    forwards lines = 0 ∧ p.relays lines = 0 ∧ linkDelays lines = p.delay lines := by
  cases h with
  | here => exact ⟨rfl, rfl, rfl⟩
  | queued _ w t => exact ⟨rfl, by simp [relays, line], by simp [linkDelays, delay, line]⟩
  | dropped _ w t t' => exact ⟨rfl, by simp [relays, line], by simp [linkDelays, delay, line]⟩
  | onLink _ w t t' => exact ⟨rfl, by simp [relays, line], by simp [linkDelays, delay, line]⟩
  | delivered _ t t' t'' => exact ⟨rfl, by simp [relays, line], by simp [linkDelays, delay, line]⟩
  | relayed _ w t t' t'' hw h => exact absurd (hone (p.line .r v w t'') (by simp) rfl) hw

end Packet.Travels

section Sums

theorem perKey_countP (f : LinkLine → Bool) :
    PerKey LinkLine.packetId (List.countP f) fun _ l => if f l then 1 else 0 :=
  ⟨rfl, fun l a => ParseWired.countP_concat f l a⟩

/-- The time of sending that is stored for a packet is that of its last own line. -/
theorem sentTime_run (trace : List LinkLine) (id : ℕ) : (ParseWired.run trace).sentTime id =
    (ParseWired.run (ofKey LinkLine.packetId id trace)).sentTime id := by
  induction trace using List.reverseRecOn with
  | nil => rfl
  | append_singleton trace l ih =>
      rw [ofKey_concat, (ParseWired.effect_run trace l).sentTime_eq]
      by_cases hid : l.packetId = id
      · rw [if_pos hid, (ParseWired.effect_run _ l).sentTime_eq]
        split
        · rw [hid, Function.update_self, Function.update_self]
        · exact ih
      · rw [if_neg hid, List.append_nil, ← ih]
        split
        · exact Function.update_of_ne (Ne.symm hid) _ _
        · rfl

theorem perKey_totalDelay :
    PerKey LinkLine.packetId (fun trace => (ParseWired.run trace).totalDelay) fun trace l =>
      if l.arrives ∧ (ParseWired.run trace).sentTime l.packetId ≤ l.time then
        l.time - (ParseWired.run trace).sentTime l.packetId else 0 := by
  refine ⟨rfl, fun trace l => ?_⟩
  rw [(ParseWired.effect_run trace l).delay_eq, sentTime_run]

theorem IsTrace.sum_packets {M : Type} [AddCommMonoid M] {F : List LinkLine → M}
    {gain : List LinkLine → LinkLine → M} (h : IsTrace packets trace)
    (hF : PerKey LinkLine.packetId F gain) :
    F trace = (packets.map fun p => F (linesOf trace p)).sum := by
  rw [hF.sum_keys h.ids, List.map_map]
  · rfl
  · intro l hl
    obtain ⟨p, hp, hid⟩ := h.complete l hl
    rw [← hid]
    exact List.mem_map_of_mem hp

theorem countP_eq_sum (f : Packet → Bool) (packets : List Packet) :
    packets.countP f = (packets.map fun p => if f p then 1 else 0).sum := by
  induction packets with
  | nil => rfl
  | cons p packets ih => rw [List.countP_cons, ih, List.map_cons, List.sum_cons, add_comm]

/-- Counting `f + g` at some packets gives the sum of `f` over all packets exactly if
`g` makes up there for `f` at the others. -/
theorem sum_eq_iff {M : Type} [AddCancelCommMonoid M] (c : Packet → Prop) [DecidablePred c]
    (f g : Packet → M) (packets : List Packet) :
    (packets.map fun p => if c p then f p + g p else 0).sum = (packets.map f).sum ↔
      (packets.map fun p => if c p then g p else 0).sum =
        (packets.map fun p => if c p then 0 else f p).sum := by
  have hleft : (packets.map fun p => if c p then f p + g p else 0).sum =
      (packets.map fun p => if c p then f p else 0).sum +
        (packets.map fun p => if c p then g p else 0).sum := by
    rw [← List.sum_map_add]
    congr 1
    apply List.map_congr_left
    intro p _
    split
    · rfl
    · rw [add_zero]
  have hright : (packets.map f).sum = (packets.map fun p => if c p then f p else 0).sum +
      (packets.map fun p => if c p then 0 else f p).sum := by
    rw [← List.sum_map_add]
    congr 1
    apply List.map_congr_left
    intro p _
    split
    · rw [add_zero]
    · rw [zero_add]
  rw [hleft, hright, add_right_inj]

end Sums

section Figures

/-- What the parsers count too often for tcp packets makes up for what they do not
count for the others: queueings at relays for injections, arrivals at relays for
arrivals at destinations, and delays over links beyond end-to-end delays for the
delays of the others, none of which is dropped. -/
structure Balanced (packets : List Packet) (trace : List LinkLine) : Prop where
  sent : (packets.map fun p => if p.kind = .tcp then Packet.forwards (linesOf trace p) else 0).sum =
    packets.countP fun p => p.kind ≠ .tcp && !(linesOf trace p).isEmpty
  received : (packets.map fun p => if p.kind = .tcp then p.relays (linesOf trace p) else 0).sum =
    packets.countP fun p => p.kind ≠ .tcp && p.reached (linesOf trace p)
  dropped : ∀ p ∈ packets, p.kind ≠ .tcp → Packet.lost (linesOf trace p) = false
  delay : (packets.map fun p => if p.kind = .tcp then
      Packet.linkDelays (linesOf trace p) - p.delay (linesOf trace p) else 0).sum =
    (packets.map fun p => if p.kind = .tcp then 0 else p.delay (linesOf trace p)).sum

/-- The count of the packets of other types. -/
theorem sum_other (f : Packet → Bool) (packets : List Packet) :
    (packets.map fun p => if p.kind = .tcp then 0 else if f p then 1 else 0).sum =
      packets.countP fun p => p.kind ≠ .tcp && f p := by
  rw [countP_eq_sum]
  congr 1
  apply List.map_congr_left
  intro p _
  by_cases hk : p.kind = .tcp <;> simp [hk]

/-- A count of the parser is the one of all packets exactly if it is balanced. -/
theorem count_eq_iff (h : IsTrace packets trace) (f : LinkLine → Bool)
    (once : List LinkLine → Packet → Bool) (extra : List LinkLine → Packet → ℕ)
    (hf : ∀ p ∈ packets, (linesOf trace p).countP f =
      if p.kind = .tcp then (if once (linesOf trace p) p then 1 else 0) +
        extra (linesOf trace p) p else 0) :
    trace.countP f = packets.countP (fun p => once (linesOf trace p) p) ↔
      (packets.map fun p => if p.kind = .tcp then extra (linesOf trace p) p else 0).sum =
        packets.countP fun p => p.kind ≠ .tcp && once (linesOf trace p) p := by
  rw [h.sum_packets (perKey_countP f), List.map_congr_left hf, countP_eq_sum, sum_eq_iff, sum_other]

/-- The parsers compute the end-to-end figures exactly if the lines are balanced. -/
theorem figures_iff_balanced (h : IsTrace packets trace) :
    (ParseWired.run trace).figures = endToEnd packets trace ↔ Balanced packets trace := by
  -- each figure is a sum over the packets
  have hsent := count_eq_iff h LinkLine.sends (fun lines _ => !lines.isEmpty)
    (fun lines _ => Packet.forwards lines) fun p hp => by
      rw [(h.journeys p hp).countP_sends]
      cases (linesOf trace p).isEmpty <;> rfl
  have hreceived := count_eq_iff h LinkLine.arrives (fun lines p => p.reached lines)
    (fun lines p => p.relays lines) fun p hp => (h.journeys p hp).countP_arrives
  have hdropped := count_eq_iff h LinkLine.drops (fun lines _ => Packet.lost lines)
    (fun _ _ => 0) fun p hp => (h.journeys p hp).countP_drops
  have hlost : (packets.map fun p => if p.kind = .tcp then 0 else 0).sum =
      (packets.countP fun p => p.kind ≠ .tcp && Packet.lost (linesOf trace p)) ↔
      ∀ p ∈ packets, p.kind ≠ .tcp → Packet.lost (linesOf trace p) = false := by
    have hzero : (packets.map fun p => if p.kind = .tcp then 0 else 0).sum = 0 := by simp
    rw [hzero, eq_comm, List.countP_eq_zero]
    refine forall₂_congr fun p _ => ?_
    simp
  have hdelay : (ParseWired.run trace).totalDelay =
      (packets.map fun p => p.delay (linesOf trace p)).sum ↔
      (packets.map fun p => if p.kind = .tcp then
        Packet.linkDelays (linesOf trace p) - p.delay (linesOf trace p) else 0).sum =
      (packets.map fun p => if p.kind = .tcp then 0 else p.delay (linesOf trace p)).sum := by
    rw [← sum_eq_iff, h.sum_packets perKey_totalDelay]
    refine Eq.congr_left (congrArg List.sum (List.map_congr_left fun p hp => ?_))
    have hord : ((linesOf trace p).map LinkLine.time).Pairwise (· ≤ ·) :=
      h.ordered.sorted.sublist (List.filter_sublist.map _)
    rw [ParseWired.run, (h.journeys p hp).totalDelay_foldl hord rfl, zero_add, add_sub_cancel]
  rw [ParseWired.figures, endToEnd, Figures.mk.injEq, ParseWired.sentPackets_run,
    ParseWired.receivedPackets_run h.ordered, ParseWired.droppedPackets_run, hsent, hreceived,
    hdropped, hlost, hdelay]
  constructor
  · rintro ⟨hs, hr, hd, ht⟩
    exact ⟨hs, hr, hd, ht⟩
  · rintro ⟨hs, hr, hd, ht⟩
    exact ⟨hs, hr, hd, ht⟩

/-- Every line is of a tcp packet, and every arrival is at the destination. -/
def OneHopTcp (trace : List LinkLine) : Prop :=
  ∀ l ∈ trace, l.packetType = .tcp ∧ (l.event = .r → l.toNode = l.destination)

theorem mem_linesOf {l : LinkLine} : l ∈ linesOf trace p ↔ l ∈ trace ∧ l.packetId = p.packetId :=
  mem_ofKey

theorem IsTrace.cut {pre : List LinkLine} (h : IsTrace packets trace) (hpre : pre <+: trace) :
    IsTrace packets pre where
  kinds := h.kinds
  ids := h.ids
  complete l hl := h.complete l (hpre.subset hl)
  journeys p hp := (h.journeys p hp).cut (ofKey_mono hpre)
  ordered := by
    have hsub : (pre.map LinkLine.time).Sublist (trace.map LinkLine.time) := hpre.sublist.map _
    exact ⟨fun t ht => h.ordered.nonneg t (hsub.subset ht), h.ordered.sorted.sublist hsub⟩

/-- In a trace of single hops of tcp packets the others have no lines. -/
theorem OneHopTcp.journey (hone : OneHopTcp trace) (h : IsTrace packets trace) (hp : p ∈ packets) :
    (p.kind ≠ .tcp → linesOf trace p = []) ∧
      Packet.forwards (linesOf trace p) = 0 ∧ p.relays (linesOf trace p) = 0 ∧
      Packet.linkDelays (linesOf trace p) = p.delay (linesOf trace p) := by
  have hj := h.journeys p hp
  refine ⟨fun hk => ?_, hj.one_hop fun l hl hr => ?_⟩
  · apply List.eq_nil_iff_forall_not_mem.mpr
    intro l hl
    exact hk ((hj.line_eq l hl).1.symm.trans (hone l (mem_linesOf.mp hl).1).1)
  · exact ((hone l (mem_linesOf.mp hl).1).2 hr).trans (hj.line_eq l hl).2.1

theorem OneHopTcp.balanced (hone : OneHopTcp trace) (h : IsTrace packets trace) :
    Balanced packets trace := by
  have hj := fun p (hp : p ∈ packets) => hone.journey h hp
  refine ⟨?_, ?_, ?_, ?_⟩
  · rw [List.sum_eq_zero, eq_comm, List.countP_eq_zero]
    · intro p hp
      by_cases hk : p.kind = .tcp
      · simp [hk]
      · simp [(hj p hp).1 hk]
    · intro m hm
      obtain ⟨p, hp, rfl⟩ := List.mem_map.mp hm
      rw [(hj p hp).2.1, ite_self]
  · rw [List.sum_eq_zero, eq_comm, List.countP_eq_zero]
    · intro p hp
      by_cases hk : p.kind = .tcp
      · simp [hk]
      · simp [(hj p hp).1 hk, Packet.reached]
    · intro m hm
      obtain ⟨p, hp, rfl⟩ := List.mem_map.mp hm
      rw [(hj p hp).2.2.1, ite_self]
  · intro p hp hk
    rw [(hj p hp).1 hk]
    rfl
  · congr 1
    apply List.map_congr_left
    intro p hp
    by_cases hk : p.kind = .tcp
    · rw [if_pos hk, if_pos hk, (hj p hp).2.2.2, sub_self]
    · rw [if_neg hk, if_neg hk, (hj p hp).1 hk]
      rfl

/-- The first line that is not of a single hop of tcp unbalances the trace. -/
theorem OneHopTcp.concat {pre : List LinkLine} {l : LinkLine} (hone : OneHopTcp pre)
    (h : IsTrace packets (pre ++ [l])) (hbal : Balanced packets (pre ++ [l])) :
    OneHopTcp (pre ++ [l]) := by
  have hpre : IsTrace packets pre := h.cut (List.prefix_append _ _)
  obtain ⟨p, hp, hid⟩ := h.complete l (List.mem_append_right _ List.mem_cons_self)
  have hl : l ∈ linesOf (pre ++ [l]) p :=
    mem_linesOf.mpr ⟨List.mem_append_right _ List.mem_cons_self, hid.symm⟩
  obtain ⟨hkind, hdest, -, -⟩ := (h.journeys p hp).line_eq l hl
  have htcp : l.packetType = .tcp := by
    by_contra hk
    rw [hkind] at hk
    -- its packet is injected, but no tcp packet was forwarded
    have hpos : 0 < packets.countP fun p => p.kind ≠ .tcp && !(linesOf (pre ++ [l]) p).isEmpty := by
      apply List.countP_pos_iff.mpr
      refine ⟨p, hp, ?_⟩
      simp [hk, List.ne_nil_of_mem hl]
    rw [← hbal.sent, List.sum_eq_zero] at hpos
    · exact lt_irrefl 0 hpos
    · intro m hm
      obtain ⟨q, hq, rfl⟩ := List.mem_map.mp hm
      split
      · rename_i hqk
        have hne : l.packetId ≠ q.packetId := by
          intro heq
          have hpq := List.inj_on_of_nodup_map h.ids hp hq (hid.trans heq)
          exact hk (hpq ▸ hqk)
        have hlines : linesOf (pre ++ [l]) q = linesOf pre q := by
          rw [linesOf, ofKey_concat, if_neg hne, List.append_nil]
          rfl
        rw [hlines]
        exact (hone.journey hpre hq).2.1
      · rfl
  have harrival : l.event = .r → l.toNode = l.destination := by
    intro hr
    by_contra hne
    rw [hdest] at hne
    -- an arrival at a relay, but no other packet has lines
    have hpos : 0 < (packets.map fun p =>
        if p.kind = .tcp then p.relays (linesOf (pre ++ [l]) p) else 0).sum := by
      refine lt_of_lt_of_le ?_ (List.single_le_sum (fun _ _ => Nat.zero_le _) _
        (List.mem_map_of_mem hp))
      rw [if_pos (hkind.symm.trans htcp)]
      apply List.countP_pos_iff.mpr
      exact ⟨l, hl, by simp [hr, hne]⟩
    rw [hbal.received, List.countP_pos_iff] at hpos
    obtain ⟨q, hq, hreach⟩ := hpos
    rw [Bool.and_eq_true, decide_eq_true_eq] at hreach
    obtain ⟨l', hl', -⟩ := List.any_eq_true.mp hreach.2
    have hkind' := ((h.journeys q hq).line_eq l' hl').1
    rcases List.mem_append.mp (mem_linesOf.mp hl').1 with hold | hnew
    · exact hreach.1 (hkind'.symm.trans (hone l' hold).1)
    · rw [List.mem_singleton.mp hnew] at hkind'
      exact hreach.1 (hkind'.symm.trans htcp)
  intro l' hl'
  rcases List.mem_append.mp hl' with hold | hnew
  · exact hone l' hold
  · rw [List.mem_singleton.mp hnew]
    exact ⟨htcp, harrival⟩

/-- The parsers compute the end-to-end figures of a trace exactly if its lines are
balanced, and those of the trace at all its lines exactly if it is one of single hops
of tcp packets. -/
theorem figures_iff (h : IsTrace packets trace) :
    ((ParseWired.run trace).figures = endToEnd packets trace ↔ Balanced packets trace) ∧
      ((∀ n, (ParseWired.run (trace.take n)).figures = endToEnd packets (trace.take n)) ↔
        OneHopTcp trace) := by
  have hcut : ∀ n, IsTrace packets (trace.take n) := by
    intro n
    apply h.cut
    exact ⟨_, List.take_append_drop n trace⟩
  refine ⟨figures_iff_balanced h, fun hall => ?_, fun hone n => ?_⟩
  · have htake : ∀ n, OneHopTcp (trace.take n) := by
      intro n
      induction n with
      | zero =>
          rw [List.take_zero]
          intro l hl
          cases hl
      | succ n ih =>
          cases hl : (trace)[n]? with
          | none =>
              rw [List.take_add_one, hl, Option.toList_none, List.append_nil]
              exact ih
          | some l =>
              have htr := hcut (n + 1)
              have hbal := (figures_iff_balanced htr).mp (hall (n + 1))
              rw [List.take_add_one, hl, Option.toList_some] at htr hbal ⊢
              exact ih.concat htr hbal
    have hwhole := htake trace.length
    rwa [List.take_length] at hwhole
  · have honen : OneHopTcp (trace.take n) := fun l hl => hone l (List.mem_of_mem_take hl)
    exact (figures_iff_balanced (hcut n)).mpr (honen.balanced (hcut n))

/-- A tcp packet over the link from node 0 to node 1. -/
def overLink (packetId : ℕ) : Packet :=
  { packetId, kind := .tcp, bytes := 1040, source := 0, destination := 1 }

/-- Of three packets the first and the last arrive, and the second is dropped. -/
def oneLink : List LinkLine :=
  [(overLink 0).line .plus 0 1 0, (overLink 0).line .minus 0 1 0, (overLink 1).line .plus 0 1 0,
   (overLink 2).line .plus 0 1 (1 / 2), (overLink 1).line .d 0 1 (1 / 2),
   (overLink 0).line .r 0 1 1, (overLink 2).line .minus 0 1 1, (overLink 2).line .r 0 1 2]

theorem isTrace_oneLink : IsTrace [overLink 0, overLink 1, overLink 2] oneLink where
  kinds := by decide
  ids := by decide
  complete := by decide +kernel
  journeys := by
    intro p hp
    simp only [List.mem_cons, List.not_mem_nil, or_false] at hp
    rcases hp with rfl | rfl | rfl
    · exact .delivered 0 0 0 1
    · exact .dropped 0 1 0 (1 / 2)
    · exact .delivered 0 (1 / 2) 1 2
  ordered := ⟨by decide +kernel, by decide +kernel⟩

theorem oneHopTcp_oneLink : OneHopTcp oneLink := by
  unfold OneHopTcp
  decide +kernel

/-- Single hops of tcp packets are counted right, and at every line. -/
theorem figures_iff_oneLink :
    (ParseWired.run oneLink).figures = endToEnd [overLink 0, overLink 1, overLink 2] oneLink ∧
      ∀ n, (ParseWired.run (oneLink.take n)).figures =
        endToEnd [overLink 0, overLink 1, overLink 2] (oneLink.take n) :=
  ⟨(figures_iff isTrace_oneLink).1.2 (oneHopTcp_oneLink.balanced isTrace_oneLink),
    (figures_iff isTrace_oneLink).2.2 oneHopTcp_oneLink⟩

/-- A tcp packet from node 0 to node 2. -/
def viaNode1 : Packet :=
  { packetId := 0, kind := .tcp, bytes := 1040, source := 0, destination := 2 }

/-- It crosses two links, in one second each. -/
def twoHops : List LinkLine :=
  [viaNode1.line .plus 0 1 0, viaNode1.line .minus 0 1 0, viaNode1.line .r 0 1 1,
   viaNode1.line .plus 1 2 1, viaNode1.line .minus 1 2 1, viaNode1.line .r 1 2 2]

theorem isTrace_twoHops : IsTrace [viaNode1] twoHops where
  kinds := by decide
  ids := by decide
  complete := by decide +kernel
  journeys := by
    intro p hp
    rw [List.mem_singleton.mp hp]
    exact .relayed 0 1 0 0 1 (by decide) (.delivered 1 1 1 2)
  ordered := ⟨by decide +kernel, by decide +kernel⟩

/-- The packet is counted as two that were sent and two that were received. -/
theorem figures_twoHops : ¬∀ (packets : List Packet) (trace : List LinkLine),
    IsTrace packets trace → (ParseWired.run trace).figures = endToEnd packets trace := by
  intro hall
  have hparser : (ParseWired.run twoHops).figures =
      { sent := 2, received := 2, dropped := 0, totalDelay := 2 } := by decide +kernel
  have hpacket : endToEnd [viaNode1] twoHops =
      { sent := 1, received := 1, dropped := 0, totalDelay := 2 } := by decide +kernel
  have heq := hall [viaNode1] twoHops isTrace_twoHops
  rw [hparser, hpacket] at heq
  exact absurd heq (by decide +kernel)

end Figures

end ComputerNetworking.Analysis
