import ComputerNetworking.Foundations.Runs
import ComputerNetworking.Tcp.Acker
import ComputerNetworking.Tcp.Sequence

/-!
# A TCP connection over a network that does not forge

The network keeps every segment and every ack that was ever sent: each may arrive
at any time, any number of times or never. The application, the two timers of the
sender and the arrivals are the events. `inStep_of_not_rewinds` says that in a run
where no new ack rewinds the sender the sink has delivered the segments up to
`next_` once and in order, and both ends agree on how far they are; without F-RTO
every run is one. `rewound_below_ack` is a run with F-RTO that ends with a sender
that is about to send what is acked.
-/

set_option autoImplicit false

namespace ComputerNetworking.Tcp

open ComputerNetworking.Foundations

/-- The first `n` segments in order, each with its bytes. -/
def Config.segments (cfg : Config) (n : ℕ) : List (ℕ × ℕ) :=
  (List.range n).map fun k : ℕ => (k, cfg.packetSize (k : ℤ))

/-- The sink: what it delivered to the application, each segment with its bytes, and the
acks it sent. -/
structure TcpSink where
  acker : Acker := {}
  bytes : ℕ := 0
  delivered : List (ℕ × ℕ) := []
  acks : List ℤ := []

/-- A packet comes in, and is acked. -/
def TcpSink.recv (s : TcpSink) (p : Segment) : TcpSink :=
  let (acker, ready) := s.acker.update p.seqno.toNat p.size
  let numToDeliver := (ready.map Prod.snd).sum
  { acker
    bytes := s.bytes + numToDeliver
    delivered := s.delivered ++ ready
    acks := s.acks ++ [acker.seqno] }

/-- The two ends of a connection. -/
structure Connection where
  sender : TcpAgent
  sink : TcpSink := {}

/-- Why an event cannot happen. -/
inductive Failure where
  | notSent | notPending
  deriving DecidableEq

/-- The events of a connection. -/
inductive Event where
  | sendmsg (env : Env) (nbytes : ℤ)
  | advanceby (env : Env) (delta : ℤ)
  | advance (env : Env) (newseq : ℤ)
  | timeout (env : Env)
  | timeoutNonrtx (env : Env)
  /-- the arrival of the `k`-th segment that was sent -/
  | segment (k : ℕ)
  /-- the arrival of the `k`-th ack that was sent -/
  | ack (env : Env) (k : ℕ)

namespace Connection

/-- A connection after `reset`; a field of the sender has the value found in the memory. -/
def start (cfg : Config) (elnLastRxmit : ℤ) : Connection where
  sender := { cfg, elnLastRxmit }

/-- One event. -/
def step (c : Connection) : Event → Except Failure Connection
  | .sendmsg env nbytes => .ok { c with sender := c.sender.sendmsg env nbytes }
  | .advanceby env delta => .ok { c with sender := c.sender.advanceby env delta }
  | .advance env newseq => .ok { c with sender := c.sender.advance env newseq }
  | .timeout env => .ok { c with sender := c.sender.timeout env }
  | .timeoutNonrtx env =>
      if c.sender.delsndPending then .ok { c with sender := c.sender.timeoutNonrtx env }
      else .error .notPending
  | .segment k =>
      match c.sender.sent[k]? with
      | some p => .ok { c with sink := c.sink.recv p }
      | none => .error .notSent
  | .ack env k =>
      match c.sink.acks[k]? with
      | some seqno => .ok { c with sender := c.sender.recv env seqno }
      | none => .error .notSent

/-- The sink has delivered the segments `0 .. next_ - 1` once and in order and none beyond,
and the sequence numbers of both ends are in order. -/
structure InStep (c : Connection) : Prop where
  delivered : c.sink.delivered = c.sender.cfg.segments c.sink.acker.next
  ack_le : c.sender.highestAck ≤ c.sink.acker.seqno
  next_le : c.sink.acker.seqno ≤ c.sender.maxseq
  ack_lt : c.sender.highestAck + 1 ≤ c.sender.tSeqno
  le_maxseq : c.sender.tSeqno ≤ c.sender.maxseq + 1

/-- The event is a new ack that rewinds the sender. -/
def Rewinds (c : Connection) : Event → Prop
  | .ack env k => ∃ seqno ∈ c.sink.acks[k]?, c.sender.Rewinds env seqno
  | _ => False

variable {c c' : Connection} {ev : Event} {a : TcpAgent} {got : ℕ → ℕ} {m : ℤ} {cfg : Config}

/-- What the sink has noted are segments that were sent, with their sizes. -/
def Sent (cfg : Config) (maxseq : ℤ) (got : ℕ → ℕ) : Prop :=
  ∀ k, got k ≠ 0 → got k = cfg.packetSize k ∧ (k : ℤ) ≤ maxseq

/-- The invariant of both ends and of all segments and acks in the network. -/
structure Inv (c : Connection) : Prop where
  sender : c.sender.Inv c.sink.acker.seqno
  noted : ∃ got, c.sink.acker.Holds got ∧ Sent c.sender.cfg c.sender.maxseq got
  delivered : c.sink.delivered = c.sender.cfg.segments c.sink.acker.next
  acks : ∀ seqno ∈ c.sink.acks, seqno ≤ c.sink.acker.seqno

theorem Inv.next_le (h : c.Inv) : c.sink.acker.seqno ≤ c.sender.maxseq := by
  obtain ⟨got, hholds, hsent⟩ := h.noted
  have hge := h.sender.ack_ge
  have hlt := h.sender.ack_lt
  have hmax := h.sender.le_maxseq
  rw [Acker.seqno]
  rcases Nat.eq_zero_or_pos c.sink.acker.next with hzero | hpos
  · rw [hzero]
    omega
  · -- the last segment that was delivered was sent
    have hlast := (hsent _ (hholds.delivered (c.sink.acker.next - 1) (by omega))).2
    omega

theorem Inv.inStep (h : c.Inv) : c.InStep :=
  ⟨h.delivered, h.sender.ack_le, h.next_le, h.sender.ack_lt, h.sender.le_maxseq⟩

/-- An event at the sender. -/
theorem Inv.put (h : c.Inv) (ha : TcpAgent.Advances c.sink.acker.seqno c.sender a) :
    Inv { c with sender := a } := by
  obtain ⟨got, hholds, hsent⟩ := h.noted
  refine ⟨ha.inv, ⟨got, hholds, ?_⟩, ?_, h.acks⟩
  · intro k hk
    obtain ⟨hsize, hle⟩ := hsent k hk
    rw [← ha.cfg_eq] at hsize
    exact ⟨hsize, hle.trans ha.max_le⟩
  · show c.sink.delivered = _
    rw [h.delivered, ha.cfg_eq]

theorem Sent.note {seq : ℕ} (h : Sent cfg m got) (acker : Acker) (hle : (seq : ℤ) ≤ m) :
    Sent cfg m (acker.note got seq (cfg.packetSize seq)) := by
  rw [Acker.note]
  split_ifs
  · exact h
  · intro k hk
    by_cases hks : k = seq
    · rw [hks, Function.update_self]
      exact ⟨rfl, hle⟩
    · rw [Function.update_of_ne hks] at hk ⊢
      exact h k hk

/-- The segments from one edge of the window to the next one. -/
theorem segments_add {next n : ℕ} (hgot : ∀ i < next + n, got i ≠ 0) (h : Sent cfg m got) :
    cfg.segments (next + n) =
      cfg.segments next ++ (List.range' next n).map fun i => (i, got i) := by
  have hnew : (List.range' next n).map (fun i => (i, got i)) =
      (List.range' next n).map fun i : ℕ => (i, cfg.packetSize (i : ℤ)) := by
    apply List.map_congr_left
    intro i hi
    rw [List.mem_range'_1] at hi
    rw [(h i (hgot i hi.2)).1]
  have hrange : List.range (next + n) = List.range next ++ List.range' next n := by
    rw [List.range_eq_range', List.range_eq_range', ← List.range'_append_1, Nat.zero_add]
  rw [hnew, Config.segments, Config.segments, hrange, List.map_append]

/-- An event at the sink. -/
theorem Inv.recv {p : Segment} (h : c.Inv) (hp : p ∈ c.sender.sent) :
    Inv { c with sink := c.sink.recv p } := by
  obtain ⟨got, hholds, hsent⟩ := h.noted
  obtain ⟨hpos, hmax, hsize⟩ := h.sender.sent p hp
  have hseq : ((p.seqno.toNat : ℕ) : ℤ) = p.seqno := Int.toNat_of_nonneg hpos
  rw [← hseq] at hsize
  obtain ⟨hholds', ⟨n, hnext, hready⟩, -⟩ := hholds.update p.seqno.toNat p.size
  have hle' : ((p.seqno.toNat : ℕ) : ℤ) ≤ c.sender.maxseq := hseq.trans_le hmax
  have hsent' := hsent.note c.sink.acker hle'
  rw [← hsize] at hsent'
  have hle : c.sink.acker.seqno ≤ (c.sink.recv p).acker.seqno := by
    show (c.sink.acker.next : ℤ) - 1 ≤ ((c.sink.acker.update p.seqno.toNat p.size).1.next : ℤ) - 1
    rw [hnext]
    omega
  refine ⟨h.sender.mono hle, ⟨_, hholds', hsent'⟩, ?_, ?_⟩
  · show c.sink.delivered ++ (c.sink.acker.update p.seqno.toNat p.size).2 =
      c.sender.cfg.segments (c.sink.acker.update p.seqno.toNat p.size).1.next
    have hgot := hholds'.delivered
    rw [hnext] at hgot ⊢
    rw [hready, h.delivered, segments_add hgot hsent']
  · intro seqno hack
    rcases List.mem_append.mp hack with hold | hnew
    · exact (h.acks seqno hold).trans hle
    · rw [List.mem_singleton.mp hnew]
      exact le_rfl

theorem inv_start (cfg : Config) (elnLastRxmit : ℤ) : (start cfg elnLastRxmit).Inv := by
  have hsender : (start cfg elnLastRxmit).sender.Inv (-1) := by
    refine ⟨rfl, le_rfl, le_rfl, le_rfl, le_rfl, fun hne => absurd rfl hne, ?_⟩
    intro p hp
    cases hp
  refine ⟨hsender, ⟨_, Acker.holds_start, ?_⟩, rfl, ?_⟩
  · intro k hk
    exact absurd rfl hk
  · intro seqno hack
    cases hack

/-- An event that does not rewind the sender. -/
theorem Inv.step (h : c.Inv) (hev : ¬c.Rewinds ev) (hs : c.step ev = .ok c') :
    c'.Inv ∧ c'.sender.cfg = c.sender.cfg ∧ c.sender.highestAck ≤ c'.sender.highestAck := by
  have hput : ∀ {a}, TcpAgent.Advances c.sink.acker.seqno c.sender a →
      Except.ok { c with sender := a } = (.ok c' : Except Failure Connection) →
      c'.Inv ∧ c'.sender.cfg = c.sender.cfg ∧
        c.sender.highestAck ≤ c'.sender.highestAck := by
    intro a ha hok
    rw [← Except.ok.inj hok]
    exact ⟨h.put ha, ha.cfg_eq, ha.ack_le⟩
  cases ev with
  | sendmsg env nbytes => exact hput (h.sender.sendmsg nbytes) hs
  | advanceby env delta => exact hput (h.sender.advanceby delta) hs
  | advance env newseq => exact hput (h.sender.advance newseq) hs
  | timeout env => exact hput h.sender.timeout hs
  | timeoutNonrtx env =>
      rw [Connection.step] at hs
      split at hs
      · exact hput h.sender.timeoutNonrtx hs
      · cases hs
  | segment k =>
      rw [Connection.step] at hs
      split at hs
      · rename_i p hp
        rw [← Except.ok.inj hs]
        exact ⟨h.recv (List.mem_of_getElem? hp), rfl, le_rfl⟩
      · cases hs
  | ack env k =>
      rw [Connection.step] at hs
      split at hs
      · rename_i seqno hack
        have hle := h.acks seqno (List.mem_of_getElem? hack)
        exact hput (h.sender.recv (hle.trans h.next_le) hle fun hrew => hev ⟨seqno, hack, hrew⟩) hs
      · cases hs

/-- Without F-RTO no ack rewinds the sender. -/
theorem not_rewinds_of_frto_off (hfrto : cfg.frtoEnabled = false)
    (hsfrto : cfg.sfrtoEnabled = false) (elnLastRxmit : ℤ) (evs : List Event) :
    Along Connection.step (fun c ev => ¬c.Rewinds ev) (start cfg elnLastRxmit) evs := by
  have hnever : ∀ (c : Connection) (ev : Event), c.Inv ∧ c.sender.cfg = cfg → ¬c.Rewinds ev := by
    rintro c ev ⟨hinv, hcfg⟩ hrew
    cases ev with
    | ack env k =>
        obtain ⟨seqno, -, hone, -⟩ := hrew
        have hon := (hinv.sender.frto_on (hone ▸ Nat.one_ne_zero)).2
        rw [hcfg, hfrto, hsfrto] at hon
        simp at hon
    | _ => exact hrew
  refine Along.of_kept ?_ hnever ⟨inv_start cfg elnLastRxmit, rfl⟩ evs
  intro c ev c' hc hs
  obtain ⟨hinv, hcfg, -⟩ := hc.1.step (hnever c ev hc) hs
  exact ⟨hinv, hcfg.trans hc.2⟩

/-- Without F-RTO, and in every run where no new ack rewinds the sender, both ends are in step
in every state, and the highest ack never decreases. -/
theorem inStep_of_not_rewinds (cfg : Config) (elnLastRxmit : ℤ) (evs : List Event)
    (h : (cfg.frtoEnabled = false ∧ cfg.sfrtoEnabled = false) ∨
      Along Connection.step (fun c ev => ¬c.Rewinds ev) (start cfg elnLastRxmit) evs) :
    (start cfg elnLastRxmit).InStep ∧
      Along Connection.step (fun c ev => ∀ c', c.step ev = .ok c' →
        c'.InStep ∧ c.sender.highestAck ≤ c'.sender.highestAck) (start cfg elnLastRxmit) evs := by
  have hrun : Along Connection.step (fun c ev => ¬c.Rewinds ev) (start cfg elnLastRxmit) evs := by
    rcases h with ⟨hfrto, hsfrto⟩ | h
    · exact not_rewinds_of_frto_off hfrto hsfrto elnLastRxmit evs
    · exact h
  refine ⟨(inv_start cfg elnLastRxmit).inStep,
    Along.of_invariant ?_ ?_ (inv_start cfg elnLastRxmit) hrun⟩
  · intro c ev c' hinv hev hs
    exact (hinv.step hev hs).1
  · intro c ev hinv hev c' hs
    obtain ⟨hinv', -, hack⟩ := hinv.step hev hs
    exact ⟨hinv'.inStep, hack⟩

instance (c : Connection) : (ev : Event) → Decidable (c.Rewinds ev)
  | .ack env k =>
      inferInstanceAs (Decidable (∃ seqno ∈ c.sink.acks[k]?, c.sender.Rewinds env seqno))
  | .sendmsg .. | .advanceby .. | .advance .. | .timeout .. | .timeoutNonrtx .. | .segment .. =>
      isFalse id

/-- F-RTO, a random delay before sending, and the old behaviour after a timeout with no
outstanding data. -/
def delayedFrto : Config := { overhead := 1 / 100, restartBugfix := false, frtoEnabled := true }

/-- A congestion window of one packet. -/
def onePacket : Env := { cwnd := fun _ => 1 }

/-- Two segments are sent and acked; the timer, which was set again by the last ack, goes off,
and the segment that is sent after it is acked. -/
def rewindRun : List Event :=
  [.advanceby onePacket 1, .timeoutNonrtx onePacket, .segment 0, .ack onePacket 0,
    .timeoutNonrtx onePacket, .segment 1, .ack onePacket 1, .timeout onePacket,
    .advanceby onePacket 3, .timeoutNonrtx onePacket, .segment 2, .ack onePacket 2]

theorem inStep_of_not_rewinds_before_rewind :
    (start delayedFrto 0).InStep ∧
      Along Connection.step (fun c ev => ∀ c', c.step ev = .ok c' →
        c'.InStep ∧ c.sender.highestAck ≤ c'.sender.highestAck) (start delayedFrto 0)
        (rewindRun.take 11) :=
  inStep_of_not_rewinds delayedFrto 0 (rewindRun.take 11) (Or.inr (by decide +kernel))

/-- Segment 2 is acked, and it comes next. -/
theorem rewound_below_ack : ¬∀ (cfg : Config) (elnLastRxmit : ℤ) (evs : List Event),
    Along Connection.step (fun c ev => ∀ c', c.step ev = .ok c' →
      c'.InStep ∧ c.sender.highestAck ≤ c'.sender.highestAck) (start cfg elnLastRxmit) evs := by
  intro hall
  have hends : (runAll Connection.step (start delayedFrto 0) rewindRun).map
      (fun c => (c.sender.highestAck, c.sender.tSeqno)) = .ok (2, 2) := by
    decide +kernel
  cases hs : runAll Connection.step (start delayedFrto 0) rewindRun with
  | error f =>
      rw [hs] at hends
      cases hends
  | ok c =>
      rw [hs] at hends
      obtain ⟨hack, hnext⟩ := Prod.mk.inj (Except.ok.inj hends)
      have hafter : AfterEach Connection.step InStep (start delayedFrto 0) rewindRun :=
        Along.of_invariant (fun _ _ _ _ _ _ => trivial) (fun _ _ _ hP c' hc' => (hP c' hc').1)
          trivial (hall delayedFrto 0 rewindRun)
      have hlt := (hafter.of_runAll (List.cons_ne_nil _ _) hs).ack_lt
      rw [hack, hnext] at hlt
      omega

end Connection

end ComputerNetworking.Tcp
