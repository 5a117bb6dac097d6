import ComputerNetworking.Queue.RedMaxP

/-!
# A RED queue and its link

`Queue::recv` and `Queue::resume` of `queue/queue.cc` with the RED discipline
behind them. The link the queue hands its packets to calls the queue's handler
back once for each. `Station` is the queue with the packets the link has not
called back yet; in every state it reaches the link has at most one packet, the
queue is blocked exactly then, and packets wait only behind a blocked queue
(`station_blocks`).
-/

set_option autoImplicit false

namespace ComputerNetworking.Queue

open ComputerNetworking.Foundations

/-- A `Queue` whose discipline is RED. -/
structure BlockingQueue where
  red : REDQueue
  blocked : Bool := false
  unblockOnResume : Bool := true

/-- What a call hands on: the packet that goes to `target_`, and the packet
`enque` drops. -/
structure Handed where
  sent : Option Packet := none
  dropped : Option (Fate × Packet) := none

namespace BlockingQueue

/-- `Queue::recv`. -/
def recv (lm : Libm) (s : BlockingQueue) (p : Packet) (d : Draw) :
    Except Crash (BlockingQueue × Handed) :=
  match s.red.enque lm p d with
  | .error e => .error e
  | .ok (red, dropped) =>
      if s.blocked then .ok ({ s with red }, { dropped })
      else
        -- the discipline might have dropped what it was just given
        match red.deque d.now with
        | (some p, red) => .ok ({ s with red, blocked := true }, { sent := some p, dropped })
        | (none, red) => .ok ({ s with red }, { dropped })

/-- `Queue::resume`, which `QueueHandler::handle` calls. -/
def resume (s : BlockingQueue) (now : ℚ) : BlockingQueue × Handed :=
  match s.red.deque now with
  | (some p, red) => ({ s with red }, { sent := some p })
  | (none, red) =>
      if s.unblockOnResume then ({ s with red, blocked := false }, {})
      else ({ s with red, blocked := true }, {})

end BlockingQueue

/-- An arrival, or the callback for the `k`-th of the packets the link has. -/
inductive Event where
  | recv (p : Packet) (d : Draw)
  | handle (k : Nat) (now : ℚ)

/-- A queue and the packets its link has not called back yet. -/
structure Station where
  queue : BlockingQueue
  atLink : List Packet := []

namespace Station

/-- One event. There is no callback that belongs to no packet. -/
def step (lm : Libm) (t : Station) : Event → Except Crash Station
  | .recv p d =>
      match t.queue.recv lm p d with
      | .error e => .error e
      | .ok (queue, h) => .ok { queue, atLink := t.atLink ++ h.sent.toList }
  | .handle k now =>
      if k < t.atLink.length then
        let (queue, h) := t.queue.resume now
        .ok { queue, atLink := t.atLink.eraseIdx k ++ h.sent.toList }
      else .ok t

/-- A queue with room for a packet, which unblocks when it is resumed with nothing
to send. -/
structure Holds (s : BlockingQueue) : Prop where
  unblocks : s.unblockOnResume = true
  limit : 1 ≤ s.red.hardLimit

/-- The protocol between the queue and the link. -/
structure Blocks (t : Station) : Prop where
  one : t.atLink.length ≤ 1
  blocked : t.queue.blocked = true ↔ t.atLink ≠ []
  empty : t.queue.blocked = false → t.queue.red.q.packets = []

end Station

/-! ## The discipline at an empty queue -/

namespace REDQueue

theorem arrive_frame (s : REDQueue) (pkt : Packet) (now : ℚ) :
    s.arrive pkt now = { s with idle := false, edv := (s.arrive pkt now).edv } := rfl

/-- An arrival at an empty queue is never a drop. -/
theorem enque_of_empty (lm : Libm) {s : REDQueue} (hempty : s.q.packets = [])
    (hlimit : 1 ≤ s.hardLimit) (pkt : Packet) (d : Draw) :
    ∃ s', s.enque lm pkt d = .ok (s', none) ∧ s'.q.packets = [pkt] := by
  have hqlen : (s.arrive pkt d.now).qlen = 0 := by
    rw [arrive_frame, qlen]
    simp [PacketQueue.byteLength, PacketQueue.length, hempty]
  have hfull : ¬(s.arrive pkt d.now).qlen ≥ (s.arrive pkt d.now).hardLimit := by
    have hsame : (s.arrive pkt d.now).hardLimit = s.hardLimit := rfl
    rw [hqlen, hsame]
    omega
  have hcong : ¬(s.arrive pkt d.now).congested := by
    intro h
    have h1 := h.2
    rw [hqlen] at h1
    omega
  have henque : s.enque lm pkt d = .ok ({ s.arrive pkt d.now with
      q := s.q.enque pkt
      edv := { (s.arrive pkt d.now).edv with vProb := 0, old := false } }, none) := by
    simp only [enque, classify, threshold, if_neg hcong, if_neg hfull, settle]
    rfl
  refine ⟨_, henque, ?_⟩
  show s.q.packets ++ [pkt] = [pkt]
  rw [hempty, List.nil_append]

end REDQueue

namespace Station

/-! ## One event -/

theorem one_le_hardLimit {s : REDQueue} (hlimit : 1 ≤ s.qlim)
    (hmean : s.qib = true → 1 ≤ s.edp.meanPktsize) : 1 ≤ s.hardLimit := by
  rw [REDQueue.hardLimit]
  split
  next hqib =>
    have hpos : 0 < s.qlim * (s.edp.meanPktsize : Int) :=
      Int.mul_pos hlimit (Int.natCast_pos.2 (hmean hqib))
    omega
  next => exact hlimit

/-- No call changes what makes a queue hold packets. -/
theorem Holds.congr {s s' : BlockingQueue} (h : Holds s)
    (hu : s'.unblockOnResume = s.unblockOnResume) (hq : s'.red.qib = s.red.qib)
    (hl : s'.red.qlim = s.red.qlim) (he : s'.red.edp = s.red.edp) : Holds s' := by
  constructor
  · rw [hu]
    exact h.unblocks
  · have hlimit := h.limit
    rw [REDQueue.hardLimit] at hlimit ⊢
    rwa [hq, hl, he]

theorem deque_fields (s : REDQueue) (now : ℚ) :
    (s.deque now).2.qib = s.qib ∧ (s.deque now).2.qlim = s.qlim ∧ (s.deque now).2.edp = s.edp := by
  cases hq : s.q.packets with
  | nil =>
      rw [REDQueue.deque, PacketQueue.uids_deque_of_nil hq]
      exact ⟨rfl, rfl, rfl⟩
  | cons p rest =>
      rw [REDQueue.deque, PacketQueue.deque_of_cons hq]
      exact ⟨rfl, rfl, rfl⟩

/-- `resume` sends the oldest waiting packet, or unblocks. -/
theorem resume_cases {s : BlockingQueue} (hs : Holds s) (now : ℚ) :
    (∃ p rest, s.red.q.packets = p :: rest ∧ (s.resume now).2.sent = some p ∧
        (s.resume now).1.blocked = s.blocked ∧ (s.resume now).1.red.q.packets = rest) ∨
      (s.red.q.packets = [] ∧ (s.resume now).2.sent = none ∧
        (s.resume now).1.blocked = false ∧ (s.resume now).1.red.q.packets = []) := by
  cases hq : s.red.q.packets with
  | nil =>
      right
      simp only [BlockingQueue.resume, REDQueue.deque, PacketQueue.uids_deque_of_nil hq,
        hs.unblocks, if_true]
      exact ⟨trivial, trivial, trivial, hq⟩
  | cons p rest =>
      left
      refine ⟨p, rest, rfl, ?_⟩
      simp only [BlockingQueue.resume, REDQueue.deque, PacketQueue.deque_of_cons hq]
      exact ⟨trivial, trivial, trivial⟩

theorem resume_frame (s : BlockingQueue) (now : ℚ) :
    (s.resume now).1.red = (s.red.deque now).2 ∧
      (s.resume now).1.unblockOnResume = s.unblockOnResume := by
  rw [BlockingQueue.resume]
  cases s.red.deque now with
  | mk out red =>
      cases out with
      | some p => exact ⟨rfl, rfl⟩
      | none =>
          simp only
          split
          · exact ⟨rfl, rfl⟩
          · exact ⟨rfl, rfl⟩

theorem resume_holds {s : BlockingQueue} (hs : Holds s) (now : ℚ) : Holds (s.resume now).1 := by
  obtain ⟨hred, hunblock⟩ := resume_frame s now
  obtain ⟨hqib, hqlim, hedp⟩ := deque_fields s.red now
  rw [← hred] at hqib hqlim hedp
  exact hs.congr hunblock hqib hqlim hedp

/-- A blocked queue only takes the arrival in. -/
theorem recv_blocked {lm : Libm} {s s' : BlockingQueue} {p : Packet} {d : Draw} {h : Handed}
    (hb : s.blocked = true) (hrun : s.recv lm p d = .ok (s', h)) :
    s'.blocked = true ∧ h.sent = none := by
  unfold BlockingQueue.recv at hrun
  cases he : s.red.enque lm p d with
  | error e =>
      rw [he] at hrun
      cases hrun
  | ok r =>
      obtain ⟨red, dropped⟩ := r
      simp only [he, hb, if_true, Except.ok.injEq, Prod.mk.injEq] at hrun
      obtain ⟨rfl, rfl⟩ := hrun
      exact ⟨rfl, rfl⟩

/-- An arrival that finds the queue open and empty is handed to the link. -/
theorem recv_open (lm : Libm) {s : BlockingQueue} (hs : Holds s) (hb : s.blocked = false)
    (hempty : s.red.q.packets = []) (p : Packet) (d : Draw) :
    ∃ s', s.recv lm p d = .ok (s', { sent := some p }) ∧ s'.blocked = true ∧
      s'.red.q.packets = [] := by
  obtain ⟨red, henque, hpackets⟩ := REDQueue.enque_of_empty lm hempty hs.limit p d
  refine ⟨{ s with red := { red with q := ⟨[]⟩, idle := false }, blocked := true }, ?_, rfl, rfl⟩
  unfold BlockingQueue.recv
  simp only [henque, hb, REDQueue.deque, PacketQueue.deque_of_cons hpackets]
  rfl

theorem recv_holds {lm : Libm} {s s' : BlockingQueue} {p : Packet} {d : Draw} {h : Handed}
    (hs : Holds s) (hrun : s.recv lm p d = .ok (s', h)) : Holds s' := by
  unfold BlockingQueue.recv at hrun
  cases he : s.red.enque lm p d with
  | error e =>
      rw [he] at hrun
      cases hrun
  | ok r =>
      obtain ⟨red, dropped⟩ := r
      have hframe := (REDQueue.enque_ok lm he).frame
      have hq : Holds { s with red } := by
        refine hs.congr rfl ?_ ?_ ?_
        · show red.qib = s.red.qib
          rw [hframe]
        · show red.qlim = s.red.qlim
          rw [hframe]
        · show red.edp = s.red.edp
          rw [hframe]
      rw [he] at hrun
      simp only at hrun
      split at hrun
      · cases hrun
        exact hq
      · -- the packet that is taken out at once changes no configuration
        obtain ⟨hqib, hqlim, hedp⟩ := deque_fields red d.now
        cases hd : red.deque d.now with
        | mk out red' =>
            rw [hd] at hrun hqib hqlim hedp
            cases out <;> cases hrun <;> exact hq.congr rfl hqib hqlim hedp

/-- One event keeps the protocol. -/
theorem Blocks.step {lm : Libm} {t t' : Station} (hs : Holds t.queue) (ht : t.Blocks) {e : Event}
    (h : t.step lm e = .ok t') : Holds t'.queue ∧ t'.Blocks := by
  cases e with
  | recv p d =>
      unfold Station.step at h
      dsimp only at h
      cases hr : t.queue.recv lm p d with
      | error e =>
          rw [hr] at h
          cases h
      | ok r =>
          obtain ⟨queue, handed⟩ := r
          simp only [hr, Except.ok.injEq] at h
          subst h
          refine ⟨recv_holds hs hr, ?_⟩
          cases hb : t.queue.blocked with
          | true =>
              have hlinked := ht.blocked
              obtain ⟨hblocked, hsent⟩ := recv_blocked hb hr
              rw [hsent, Option.toList_none, List.append_nil]
              refine ⟨ht.one, ?_, ?_⟩
              · rw [hblocked]
                rwa [hb] at hlinked
              · rw [hblocked]
                exact fun hfalse => absurd hfalse (by simp)
          | false =>
              have hlink : t.atLink = [] := by
                by_contra hne
                rw [ht.blocked.2 hne] at hb
                cases hb
              obtain ⟨s', hr', hblocked, hpackets⟩ := recv_open lm hs hb (ht.empty hb) p d
              rw [hr, Except.ok.injEq, Prod.mk.injEq] at hr'
              obtain ⟨rfl, rfl⟩ := hr'
              rw [hlink]
              refine ⟨le_rfl, ?_, fun _ => hpackets⟩
              simp [hblocked]
  | handle k now =>
      unfold Station.step at h
      dsimp only at h
      split at h
      next hk =>
        simp only [Except.ok.injEq] at h
        subst h
        refine ⟨resume_holds hs now, ?_⟩
        -- the one packet at the link is the one called back
        have hlen : t.atLink.length = 1 := by
          have hone := ht.one
          omega
        have hgone : t.atLink.eraseIdx k = [] := by
          apply List.length_eq_zero_iff.1
          rw [List.length_eraseIdx_of_lt hk, hlen]
        have hblocked : t.queue.blocked = true := by
          apply ht.blocked.2
          intro hnil
          rw [hnil] at hlen
          cases hlen
        simp only [hgone, List.nil_append]
        rcases resume_cases hs now with ⟨p, rest, -, hsent, hb, -⟩ | ⟨-, hsent, hb, hpackets⟩
        · rw [hsent]
          refine ⟨le_rfl, ?_, ?_⟩
          · simp [hb, hblocked]
          · rw [hb, hblocked]
            exact fun hfalse => absurd hfalse (by simp)
        · rw [hsent]
          refine ⟨Nat.zero_le 1, ?_, fun _ => hpackets⟩
          simp [hb]
      next hk =>
        simp only [Except.ok.injEq] at h
        subst h
        exact ⟨hs, ht⟩

/-- A queue at the start of a run: open, empty and with nothing at its link. -/
def start (s : BlockingQueue) : Station :=
  { queue := { s with red := { s.red with q := .empty }, blocked := false } }

theorem blocks_start (s : BlockingQueue) : (start s).Blocks :=
  ⟨Nat.zero_le 1, ⟨fun h => (by cases h), fun h => absurd rfl h⟩, fun _ => rfl⟩

end Station

open Station

/-- In every state a run of arrivals and callbacks reaches: the link has at most
one packet, the queue is blocked exactly while it has one, no packet waits
behind an open queue, and the next arrival at an open queue is sent at once. -/
theorem station_blocks (lm : Libm) (s : BlockingQueue) (hunblock : s.unblockOnResume = true)
    (hlimit : 1 ≤ s.red.qlim) (hmean : s.red.qib = true → 1 ≤ s.red.edp.meanPktsize)
    (es : List Event) (t : Station) (hrun : runAll (Station.step lm) (start s) es = .ok t) :
    t.atLink.length ≤ 1 ∧
      (t.queue.blocked = true ↔ t.atLink ≠ []) ∧
      (t.queue.blocked = false → t.queue.red.q.packets = []) ∧
      (t.queue.blocked = false → ∀ p d, ∃ q, t.queue.recv lm p d = .ok (q, { sent := some p }) ∧
        q.red.q.packets = []) := by
  have hinv : Holds t.queue ∧ t.Blocks := by
    apply runAll_invariant (fun t => Holds t.queue ∧ t.Blocks) ?_ ?_ hrun
    · intro t e t' ht hstep
      exact ht.2.step ht.1 hstep
    · have hs : Holds s := ⟨hunblock, one_le_hardLimit hlimit hmean⟩
      exact ⟨hs.congr rfl rfl rfl rfl, blocks_start s⟩
  obtain ⟨hq, hb⟩ := hinv
  refine ⟨hb.one, hb.blocked, hb.empty, ?_⟩
  intro hopen p d
  obtain ⟨q, hrecv, -, hpackets⟩ := recv_open lm hq hopen (hb.empty hopen) p d
  exact ⟨q, hrecv, hpackets⟩

/-- Two packets reach an idle queue, and the link calls back for the first. -/
def twoPackets : List Event :=
  [.recv { uid := 0, size := 1000 } ⟨0, 1 / 2, 0⟩, .recv { uid := 1, size := 1000 } ⟨1, 1 / 2, 0⟩,
    .handle 0 2]

theorem station_blocks_two :
    ∃ t, runAll (Station.step zeroLibm) (start { red := overloadedQueue }) twoPackets = .ok t ∧
      t.atLink.length ≤ 1 ∧ (t.queue.blocked = true ↔ t.atLink ≠ []) := by
  have hok : (runAll (Station.step zeroLibm) (start { red := overloadedQueue })
      twoPackets).toBool = true := by
    decide +kernel
  cases hrun : runAll (Station.step zeroLibm) (start { red := overloadedQueue }) twoPackets with
  | error e =>
      rw [hrun] at hok
      cases hok
  | ok t =>
      obtain ⟨hone, hblocked, -⟩ := station_blocks zeroLibm { red := overloadedQueue } rfl
        (by decide) (by decide) twoPackets t hrun
      exact ⟨t, rfl, hone, hblocked⟩

end ComputerNetworking.Queue
