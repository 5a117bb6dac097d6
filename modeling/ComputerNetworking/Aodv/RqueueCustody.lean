import ComputerNetworking.Aodv.RqueueLinks
import ComputerNetworking.Foundations.Custody
import ComputerNetworking.Foundations.Runs

/-!
# Where the packets without a route go

The journal of an `aodv_rqueue` records which packets were handed to it and which it has
returned. Its routines never fail, keep the limit and return the packets for one destination in
their order, whatever is called (`Sound.step`). But `purge` unlinks a packet whose time is over
and does not hand it to `drop`, so each packet is queued, returned or dropped exactly as long as
no call finds the time of a packet over (`custody_iff`). In `aged_packet_vanishes` one packet
waits for 31 s.
-/

set_option autoImplicit false

namespace ComputerNetworking.Aodv

open ComputerNetworking.Foundations AodvRqueue

variable {P : Type}

/-- A call with its time, or a change of the fields of a packet that is not in the queue. -/
inductive RqueueCall (P : Type) where
  | enque (p : P) (now : ℚ)
  | deque (now : ℚ)
  | dequeDst (dst : Addr) (now : ℚ)
  | elsewhere (p : P) (next : Option P) (ts : ℚ)

/-- The time of a call. -/
def RqueueCall.now? : RqueueCall P → Option ℚ
  | .enque _ now => some now
  | .deque now => some now
  | .dequeDst _ now => some now
  | .elsewhere .. => none

/-- The packets whose time is over. -/
def AodvRqueue.aged (q : AodvRqueue P) (now : ℚ) : List P := q.packets.filter fun p => q.ts p < now

/-- The queue, what was handed to it, what it has returned, and what `purge` has unlinked. -/
structure Journal (P : Type) where
  queue : AodvRqueue P
  enqueued : List P := []
  returned : List P := []
  aged : List P := []

namespace Journal

/-- A new queue. -/
def start (next : P → Option P) (ts : P → ℚ) : Journal P := { queue := { next, ts } }

/-- The packets that the call finds aged. -/
def agedBy (s : Journal P) (c : RqueueCall P) : List P :=
  match c.now? with
  | none => []
  | some now => s.queue.aged now

/-- The outcome of a `deque`. -/
def took (s : Journal P) (c : RqueueCall P) :
    Except Fault (Option P × AodvRqueue P) → Except Fault (Journal P)
  | .error f => .error f
  | .ok (p, q) =>
      .ok { s with queue := q, returned := s.returned ++ p.toList, aged := s.aged ++ s.agedBy c }

variable [DecidableEq P]

/-- One call. -/
def step (daddr : P → Addr) (fuel : ℕ) (s : Journal P) (c : RqueueCall P) :
    Except Fault (Journal P) :=
  match c with
  | .enque p now =>
      match s.queue.enque fuel p now with
      | .error f => .error f
      | .ok q =>
          .ok { s with queue := q, enqueued := s.enqueued ++ [p], aged := s.aged ++ s.agedBy c }
  | .deque now => s.took c (s.queue.deque fuel now)
  | .dequeDst dst now => s.took c (s.queue.dequeDst fuel daddr dst now)
  | .elsewhere p next ts =>
      .ok { s with queue := { s.queue with next := Function.update s.queue.next p next,
                                           ts := Function.update s.queue.ts p ts } }

/-- Only a packet that is not in the queue is handed to it, or changed by others. -/
def Owned (s : Journal P) : RqueueCall P → Prop
  | .enque p _ => p ∉ s.queue.packets
  | .elsewhere p _ _ => p ∉ s.queue.packets
  | _ => True

/-- The time of no packet in the queue is over. -/
def Timely (s : Journal P) (c : RqueueCall P) : Prop :=
  ∀ now ∈ c.now?, ∀ p ∈ s.queue.packets, now ≤ s.queue.ts p

instance (s : Journal P) : (c : RqueueCall P) → Decidable (s.Owned c)
  | .enque p _ => inferInstanceAs (Decidable (p ∉ s.queue.packets))
  | .elsewhere p _ _ => inferInstanceAs (Decidable (p ∉ s.queue.packets))
  | .deque _ | .dequeDst _ _ => isTrue trivial

instance (s : Journal P) (c : RqueueCall P) : Decidable (s.Timely c) :=
  inferInstanceAs (Decidable (∀ now ∈ c.now?, ∀ p ∈ s.queue.packets, now ≤ s.queue.ts p))

/-- Each packet that was handed over is in the queue, was returned or was dropped, once for each
time it was handed over; the limit is kept; the packets for a destination are returned in their
order; and the assertions of `verifyQueue` hold. -/
structure Custody (daddr : P → Addr) (fuel : ℕ) (s : Journal P) : Prop where
  conserved : s.enqueued.Perm (s.queue.packets ++ s.returned ++ s.queue.dropped.map Prod.fst)
  within : (s.queue.packets.length : ℤ) ≤ s.queue.limit
  ordered : ∀ dst, (s.returned.filter fun p => daddr p = dst).Sublist
    (s.enqueued.filter fun p => daddr p = dst)
  verified : s.queue.verifyQueue fuel = .ok ()

/-- The call returns, and custody is kept. -/
def Kept (daddr : P → Addr) (fuel : ℕ) (s : Journal P) (c : RqueueCall P) : Prop :=
  ∃ s', s.step daddr fuel c = .ok s' ∧ s'.Custody daddr fuel

/-- What holds after any calls. -/
structure Sound (daddr : P → Addr) (s : Journal P) : Prop where
  holds : s.queue.Holds s.queue.packets
  limit_eq : s.queue.limit = AODV_RTQ_MAX_LEN
  within : s.queue.packets.length ≤ AODV_RTQ_MAX_LEN
  balanced : Ledger.BalancedBy daddr
    ⟨s.enqueued, s.queue.packets, s.returned, s.queue.dropped.map Prod.fst ++ s.aged⟩

variable {daddr : P → Addr} {fuel : ℕ} {s s' : Journal P} {c : RqueueCall P} {now : ℚ}

omit [DecidableEq P] in
theorem timely_iff : s.Timely c ↔ s.agedBy c = [] := by
  rw [Timely, agedBy]
  cases c.now? with
  | none => exact iff_of_true (fun now hnow => by cases hnow) rfl
  | some now =>
      show _ ↔ (s.queue.packets.filter fun p => s.queue.ts p < now) = []
      rw [List.filter_eq_nil_iff]
      constructor
      · intro h p hp hlt
        exact (h now rfl p hp).not_gt (of_decide_eq_true hlt)
      · rintro h now' ⟨⟩ p hp
        exact not_lt.mp fun hlt => h p hp (decide_eq_true hlt)

omit [DecidableEq P] in
theorem sound_start (daddr : P → Addr) (next : P → Option P) (ts : P → ℚ) :
    Sound daddr (start next ts) where
  holds := ⟨LinkedQueue.linked_nil next, rfl⟩
  limit_eq := rfl
  within := Nat.zero_le _
  balanced _ := Ledger.balanced_empty

omit [DecidableEq P] in
/-- When `purge` has been called, the aged packets are gone. -/
theorem Sound.purged (h : Sound daddr s) (now : ℚ) : Ledger.BalancedBy daddr
    ⟨s.enqueued, s.queue.fresh now, s.returned,
      s.queue.dropped.map Prod.fst ++ (s.aged ++ s.queue.aged now)⟩ := by
  have hsieve := h.balanced.sieve fun p => ¬s.queue.ts p < now
  have haged : (s.queue.packets.filter fun p => !decide (¬s.queue.ts p < now)) =
      s.queue.aged now := by
    apply List.filter_congr
    intro p _
    rw [decide_not, Bool.not_not]
  rw [haged, List.append_assoc] at hsieve
  exact hsieve

omit [DecidableEq P] in
/-- What `deque` leaves. -/
theorem Sound.took (h : Sound daddr s) (hnow : c.now? = some now) {p : Option P} {l' : List P}
    {q' : AodvRqueue P} (hholds : q'.Holds l') (htaken : Taken daddr (s.queue.fresh now) p l')
    (hsame : Relinked s.queue q') :
    ∃ s', s.took c (.ok (p, q')) = .ok s' ∧ Sound daddr s' ∧ s'.aged = s.aged ++ s.agedBy c := by
  have haged : s.agedBy c = s.queue.aged now := by rw [agedBy, hnow]
  have hpurged := h.purged now
  have hle : (s.queue.fresh now).length ≤ AODV_RTQ_MAX_LEN :=
    (List.length_filter_le _ _).trans h.within
  refine ⟨_, rfl, ?_, rfl⟩
  have hlist := hholds.packets_eq
  refine ⟨hlist.symm ▸ hholds, hsame.limit_eq.trans h.limit_eq, ?_, ?_⟩
  · show q'.packets.length ≤ _
    rw [hlist]
    cases htaken with
    | none => exact hle
    | some before p after split _ =>
        rw [split] at hle
        simp only [List.length_append, List.length_cons] at hle ⊢
        omega
  · show Ledger.BalancedBy daddr ⟨s.enqueued, q'.packets, s.returned ++ p.toList,
      q'.dropped.map Prod.fst ++ (s.aged ++ s.agedBy c)⟩
    rw [hlist, hsame.dropped_eq, haged]
    cases htaken with
    | none =>
        rw [Option.toList_none, List.append_nil]
        exact hpurged
    | some before p after split first =>
        rw [split] at hpurged
        exact hpurged.withdraw first

/-- Every call returns and keeps what holds. -/
theorem Sound.step (h : Sound daddr s) (ho : s.Owned c) (hfuel : AODV_RTQ_MAX_LEN < fuel) :
    ∃ s', s.step daddr fuel c = .ok s' ∧ Sound daddr s' ∧ s'.aged = s.aged ++ s.agedBy c := by
  have hlt : s.queue.packets.length < fuel := h.within.trans_lt hfuel
  cases c with
  | deque now =>
      obtain ⟨q', hq', hholds, hsame⟩ := h.holds.deque hlt now
      rw [Journal.step, hq']
      exact h.took rfl hholds (taken_head daddr _) hsame
  | dequeDst dst now =>
      obtain ⟨q', hq', hholds, hsame⟩ := h.holds.dequeDst hlt now daddr dst
      rw [Journal.step, hq']
      exact h.took rfl hholds (taken_find daddr dst _) hsame
  | enque p now =>
      have hlimit := h.limit_eq
      have hlen : (s.queue.packets.length : ℤ) ≤ s.queue.limit := by
        rw [hlimit]
        exact_mod_cast h.within
      have hpos : 0 < s.queue.limit := by
        rw [hlimit]
        decide
      have hfuel' : s.queue.limit < fuel := by
        rw [hlimit]
        exact_mod_cast hfuel
      -- the purge comes first, and only shortens the queue
      have hfresh : ((s.queue.fresh now).length : ℤ) ≤ s.queue.limit :=
        (Nat.cast_le.mpr (List.length_filter_le _ _)).trans hlen
      obtain ⟨out, q', hout, hq', hholds, hsame, hdropped⟩ :=
        h.holds.enque ho hlen hpos hfuel' now
      rw [Journal.step, hq']
      refine ⟨_, rfl, ?_, rfl⟩
      have hlist := hholds.packets_eq
      refine ⟨hlist.symm ▸ hholds, hsame.limit_eq.trans hlimit, ?_, ?_⟩
      · have hlt := length_room hfresh hpos
        show q'.packets.length ≤ _
        rw [hlist, List.length_append, List.length_singleton]
        rw [hlimit] at hlt ⊢
        exact_mod_cast hlt
      · show Ledger.BalancedBy daddr ⟨s.enqueued ++ [p], q'.packets, s.returned,
          q'.dropped.map Prod.fst ++ (s.aged ++ s.queue.aged now)⟩
        have hpurged := h.purged now
        rw [hout] at hpurged
        rw [hlist, hdropped]
        apply (hpurged.evictAll.accept p).reorder
        rw [List.append_assoc, List.append_assoc (List.map _ _)]
        exact List.Perm.append_left _ List.perm_append_comm
  | elsewhere p next ts =>
      -- the packet is owned by somebody else, so the links of the queue stay
      have hkept : ({ s.queue with next := Function.update s.queue.next p next,
                                   ts := Function.update s.queue.ts p ts } :
          AodvRqueue P).Holds s.queue.packets :=
        ⟨h.holds.linked.update ho next, h.holds.len_eq⟩
      have hlist := hkept.packets_eq
      refine ⟨_, rfl, ?_, (List.append_nil _).symm⟩
      refine ⟨hlist.symm ▸ hkept, h.limit_eq, ?_, ?_⟩
      · rw [hlist]
        exact h.within
      · rw [hlist]
        exact h.balanced

/-- Custody is kept as long as no packet has been unlinked for its age. -/
theorem Sound.kept_iff (h : Sound daddr s) (hfuel : AODV_RTQ_MAX_LEN < fuel) :
    s.Custody daddr fuel ↔ s.aged = [] := by
  have hconserved := h.balanced.conserved
  constructor
  · intro hc
    have hlen := hc.conserved.length_eq
    have hlen' := hconserved.length_eq
    simp only [List.length_append] at hlen hlen'
    apply List.eq_nil_of_length_eq_zero
    omega
  · intro hnil
    rw [hnil, List.append_nil] at hconserved
    refine ⟨hconserved, ?_, ?_, h.holds.verifyQueue (h.within.trans_lt hfuel)⟩
    · rw [h.limit_eq]
      exact_mod_cast h.within
    · intro dst
      exact (List.sublist_append_left _ _).trans (h.balanced dst).ordered

/-- For packets that belong to one owner at a time: in a run each packet is at any moment in the
queue, returned or dropped, and the rest of custody is kept, exactly as long as no call finds
the time of a packet over. -/
theorem custody_iff (daddr : P → Addr) (hfuel : AODV_RTQ_MAX_LEN < fuel) (next : P → Option P)
    (ts : P → ℚ) (calls : List (RqueueCall P))
    (howned : Along (step daddr fuel) Owned (start next ts) calls) :
    Along (step daddr fuel) (Kept daddr fuel) (start next ts) calls ↔
      Along (step daddr fuel) Timely (start next ts) calls := by
  have hboth : Along (step daddr fuel) (fun s c => s.Owned c ∧ s.Kept daddr fuel c)
      (start next ts) calls ↔
        Along (step daddr fuel) (fun s c => s.Owned c ∧ s.Timely c) (start next ts) calls := by
    apply along_congr fun s => Sound daddr s ∧ s.aged = []
    · rintro s c s' ⟨h, hnil⟩ ⟨ho, ht⟩ hs
      obtain ⟨t, hs', hsound, haged⟩ := h.step ho hfuel
      cases hs.symm.trans hs'
      refine ⟨hsound, ?_⟩
      rw [haged, hnil, timely_iff.mp ht, List.append_nil]
    · rintro s c ⟨h, hnil⟩
      apply and_congr_right
      intro ho
      obtain ⟨t, hs', hsound, haged⟩ := h.step ho hfuel
      rw [hnil, List.nil_append] at haged
      rw [timely_iff, ← haged, ← hsound.kept_iff hfuel]
      constructor
      · rintro ⟨s', hs, hc⟩
        cases hs.symm.trans hs'
        exact hc
      · exact fun hc => ⟨t, hs', hc⟩
    · exact ⟨sound_start daddr next ts, rfl⟩
  rw [along_and_iff, along_and_iff] at hboth
  exact ⟨fun hk => (hboth.mp ⟨howned, hk⟩).2, fun ht => (hboth.mpr ⟨howned, ht⟩).2⟩

/-- Two packets of which the second is asked for first. -/
theorem custody_iff_two : Along (step id 65) (Kept id 65) (start (fun _ => none) fun _ => 0)
    [.enque 1 0, .enque 2 3, .dequeDst 2 4, .deque 30] :=
  (custody_iff id (by decide) (fun _ => none) (fun _ => 0) _ (by decide +kernel)).2
    (by decide +kernel)

/-- A packet that has waited for 31 s is neither in the queue nor returned nor dropped. -/
theorem aged_packet_vanishes :
    ¬∀ (daddr : ℕ → Addr) (fuel : ℕ) (next : ℕ → Option ℕ) (ts : ℕ → ℚ)
      (calls : List (RqueueCall ℕ)), AODV_RTQ_MAX_LEN < fuel →
        (calls.filterMap RqueueCall.now?).Pairwise (· ≤ ·) →
        Along (step daddr fuel) Owned (start next ts) calls →
          Along (step daddr fuel) (Kept daddr fuel) (start next ts) calls := by
  intro hall
  have hkept := hall id 65 (fun _ => none) (fun _ => 0) [.enque 1 0, .deque 31] (by decide)
    (by decide +kernel) (by decide +kernel)
  have hafter : AfterEach (step id 65) (Custody id 65) (start (fun _ => none) fun _ => 0)
      [.enque 1 0, .deque 31] := by
    apply Along.of_invariant (fun _ _ _ _ _ _ => trivial) _ (trivial : (fun _ => True) _) hkept
    rintro s c - ⟨s', hs', hc⟩ t ht
    cases hs'.symm.trans ht
    exact hc
  have hlists : (runAll (step id 65) (start (fun _ => none) fun _ => 0)
      [.enque 1 0, .deque 31]).map (fun s => (s.enqueued.length,
        (s.queue.packets ++ s.returned ++ s.queue.dropped.map Prod.fst).length)) = .ok (1, 0) := by
    decide +kernel
  cases hs : runAll (step id 65) (start (fun _ => none) fun _ => 0) [.enque 1 0, .deque 31] with
  | error f =>
      rw [hs] at hlists
      cases hlists
  | ok s =>
      have hlen := (hafter.of_runAll (List.cons_ne_nil _ _) hs).conserved.length_eq
      rw [hs] at hlists
      obtain ⟨hone, hzero⟩ := Prod.mk.inj (Except.ok.inj hlists)
      rw [hone, hzero] at hlen
      cases hlen

end Journal

end ComputerNetworking.Aodv
