import ComputerNetworking.Queue.RedCustody
import ComputerNetworking.Queue.RedMaxP

/-!
# The hard limit of a RED queue

A full queue forces a drop: the arrival joins and one victim leaves. In packets
that keeps the length. In bytes it keeps the size only when the victim is as
large as the arrival, and the policies that do not pick the arrival itself may
pick a smaller packet each time. A run stays within the limit exactly when every
arrival at a full queue evicts enough (`withinLimit_iff`).
-/

set_option autoImplicit false

namespace ComputerNetworking.Queue

open ComputerNetworking.Foundations

namespace PacketQueue

@[simp] theorem byteLength_enque (q : PacketQueue) (p : Packet) :
    (q.enque p).byteLength = q.byteLength + p.size := by
  simp [byteLength, enque]

/-- With distinct packets, removing one takes its size and its place. -/
theorem remove_size {q q' : PacketQueue} {p : Packet} (hn : q.uids.Nodup) (hp : p ∈ q.packets)
    (h : q.remove p = .ok q') :
    q'.byteLength + p.size = q.byteLength ∧ q'.length + 1 = q.length := by
  have hany : (q.packets.any fun x => x.uid == p.uid) = true :=
    List.any_eq_true.2 ⟨p, hp, beq_self_eq_true p.uid⟩
  rw [remove, if_pos hany, Except.ok.injEq] at h
  subst h
  obtain ⟨p', l₁, l₂, -, hid, hsplit, herase⟩ :=
    List.exists_of_eraseP (p := fun x => x.uid == p.uid) hp (beq_self_eq_true p.uid)
  -- the packet that is unlinked is the victim itself, not another with its uid
  have hsame : p' = p := by
    have hmem : p' ∈ q.packets := by
      rw [hsplit]
      simp
    exact List.inj_on_of_nodup_map hn hmem hp (by simpa using hid)
  subst hsame
  simp only [byteLength, length, herase]
  rw [hsplit]
  simp only [List.map_append, List.map_cons, List.sum_append, List.sum_cons, List.length_append,
    List.length_cons]
  omega

end PacketQueue

namespace REDQueue

/-- Index of the packet a forced drop takes, once the arrival has joined. -/
def victimPlace (s : REDQueue) (r : Nat) : Nat :=
  if s.dropFront then min 1 s.q.length
  else if s.dropRand then r % (s.q.length + 1)
  else s.q.length

/-- Size of the packet at that place. -/
def victimSize (s : REDQueue) (pkt : Packet) (r : Nat) : Nat :=
  ((s.q.packets ++ [pkt]).map Packet.size)[s.victimPlace r]?.getD 0

/-- The drop-tail policy takes the arrival. -/
theorem victimSize_dropTail {s : REDQueue} (hf : s.dropFront = false) (hr : s.dropRand = false)
    (pkt : Packet) (r : Nat) : s.victimSize pkt r = pkt.size := by
  simp [victimSize, victimPlace, hf, hr, PacketQueue.length]

theorem pickPacketToDrop_enque (s : REDQueue) (pkt : Packet) (r : Nat) :
    ({ s with q := s.q.enque pkt } : REDQueue).pickPacketToDrop r =
      (s.q.packets ++ [pkt])[s.victimPlace r]? := by
  rw [pickPacketToDrop, victimPlace, PacketQueue.lookup]
  simp only [PacketQueue.length_enque]
  congr 1
  cases s.dropFront with
  | true => simp only [if_true]; omega
  | false =>
      cases s.dropRand with
      | true => exact Int.toNat_natCast _
      | false => simp

/-! ## What a call does to the sizes -/

theorem dropEarly_size (lm : Libm) {s s' : REDQueue} {pkt pkt' : Packet} {u : ℚ} {b : Bool}
    (h : s.dropEarly lm pkt u = .ok (s', pkt', b)) : pkt'.size = pkt.size := by
  rw [dropEarly] at h
  cases hp : s.earlyProbability pkt with
  | error e =>
      rw [hp] at h
      cases h
  | ok edv =>
      rw [hp] at h
      simp only at h
      split at h
      · cases h
        rfl
      · split at h
        · split at h <;> cases h <;> rfl
        · cases h
          rfl

theorem threshold_size (lm : Libm) {s s' : REDQueue} {pkt pkt' : Packet} {u : ℚ} {d : DropType}
    (h : s.threshold lm pkt u = .ok (s', pkt', d)) : pkt'.size = pkt.size := by
  rw [threshold] at h
  split at h
  · split at h
    · cases h
      rfl
    · split at h
      · cases h
        rfl
      · cases he : s.dropEarly lm pkt u with
        | error e =>
            rw [he] at h
            cases h
        | ok r =>
            obtain ⟨t, p, b⟩ := r
            rw [he] at h
            cases b <;> cases h <;> exact dropEarly_size lm he
  · cases h
    rfl

/-- A full queue makes the drop a forced one; no decision changes the size. -/
theorem classify_size (lm : Libm) {s s' : REDQueue} {pkt pkt' : Packet} {u : ℚ} {d : DropType}
    (h : s.classify lm pkt u = .ok (s', pkt', d)) :
    pkt'.size = pkt.size ∧ (s.hardLimit ≤ s.qlen → d = .forced) := by
  rw [classify] at h
  cases ht : s.threshold lm pkt u with
  | error e =>
      rw [ht] at h
      cases h
  | ok r =>
      obtain ⟨t, p, d'⟩ := r
      rw [ht] at h
      cases h
      exact ⟨threshold_size lm ht, fun hfull => if_pos hfull⟩

/-- A forced drop exchanges the victim for the arrival. -/
theorem settle_forced_size {s s' : REDQueue} {pkt : Packet} {r : Nat}
    {out : Option (Fate × Packet)} (hn : (s.q.uids ++ [pkt.uid]).Nodup)
    (h : s.settle pkt r .forced = .ok (s', out)) :
    s'.q.byteLength + s.victimSize pkt r = s.q.byteLength + pkt.size ∧
      s'.q.length = s.q.length := by
  simp only [settle, pickPacketToDrop_enque] at h
  cases hv : (s.q.packets ++ [pkt])[s.victimPlace r]? with
  | none =>
      rw [hv] at h
      cases h
  | some victim =>
      rw [hv] at h
      simp only at h
      cases hrem : (s.q.enque pkt).remove victim with
      | error e =>
          rw [hrem] at h
          cases h
      | ok q =>
          rw [hrem] at h
          simp only [Except.ok.injEq, Prod.mk.injEq] at h
          obtain ⟨rfl, -⟩ := h
          have hmem : victim ∈ (s.q.enque pkt).packets := List.mem_of_getElem? hv
          rw [← PacketQueue.uids_enque] at hn
          have hsize := PacketQueue.remove_size hn hmem hrem
          rw [PacketQueue.byteLength_enque, PacketQueue.length_enque] at hsize
          have hvs : s.victimSize pkt r = victim.size := by
            rw [victimSize, List.getElem?_map, hv]
            rfl
          rw [hvs]
          exact ⟨hsize.1, Nat.succ.inj hsize.2⟩

/-- Whatever the drop type, the queue grows by the arrival at most. -/
theorem settle_size_le {s s' : REDQueue} {pkt : Packet} {r : Nat} {d : DropType}
    {out : Option (Fate × Packet)} (hn : (s.q.uids ++ [pkt.uid]).Nodup)
    (h : s.settle pkt r d = .ok (s', out)) :
    s'.q.byteLength ≤ s.q.byteLength + pkt.size ∧ s'.q.length ≤ s.q.length + 1 := by
  cases d with
  | none =>
      cases h
      simp
  | unforced =>
      have hsame : ¬(pickPacketForECN pkt).uid ≠ pkt.uid := fun hne => hne rfl
      rw [settle, if_neg hsame] at h
      cases h
      simp
  | forced =>
      have hsize := settle_forced_size hn h
      omega

/-- The sizes an arrival leaves: at a full queue those of the exchange, and
never more than the arrival brings. -/
theorem enque_size (lm : Libm) {s s' : REDQueue} {pkt : Packet} {d : Draw}
    {out : Option (Fate × Packet)} (hn : (s.q.uids ++ [pkt.uid]).Nodup)
    (h : s.enque lm pkt d = .ok (s', out)) :
    (s'.q.byteLength ≤ s.q.byteLength + pkt.size ∧ s'.q.length ≤ s.q.length + 1) ∧
      (s.hardLimit ≤ s.qlen →
        s'.q.byteLength + s.victimSize pkt d.r = s.q.byteLength + pkt.size ∧
          s'.q.length = s.q.length) := by
  rw [enque] at h
  cases hc : (s.arrive pkt d.now).classify lm pkt d.u with
  | error e =>
      rw [hc] at h
      cases h
  | ok r =>
      obtain ⟨t, p, dt⟩ := r
      rw [hc] at h
      simp only at h
      have hdec := classify_ok lm hc
      obtain ⟨hsize, hforced⟩ := classify_size lm hc
      -- up to here neither the packets nor the policy has changed
      have hq : t.q = s.q := by
        rw [hdec.frame]
        rfl
      have hvictim : t.victimSize p d.r = s.victimSize pkt d.r := by
        have hplace : t.victimPlace d.r = s.victimPlace d.r := by
          rw [hdec.frame]
          rfl
        simp only [victimSize, hplace, hq, List.map_append, List.map_cons, List.map_nil, hsize]
      have hn' : (t.q.uids ++ [p.uid]).Nodup := by
        rw [hq, hdec.uid]
        exact hn
      constructor
      · have hle := settle_size_le hn' h
        rwa [hq, hsize] at hle
      · intro hfull
        rw [hforced hfull] at h
        have hex := settle_forced_size hn' h
        rwa [hvictim, hq, hsize] at hex

/-! ## The limit -/

/-- At most `qlim_` packets, or `qlim_ * mean_pktsize` bytes and one arrival of `S`. -/
def WithinLimit (S : Nat) (s : REDQueue) : Prop :=
  if s.qib then (s.q.byteLength : Int) ≤ s.qlim * s.edp.meanPktsize + S
  else (s.q.length : Int) ≤ s.qlim

instance (S : Nat) (s : REDQueue) : Decidable (s.WithinLimit S) := by
  unfold WithinLimit
  infer_instance

/-- In bytes: a full queue evicts as much of the arrival as does not fit. In
packets: the limit is not negative. -/
def EvictsEnough (S : Nat) (s : REDQueue) (pkt : Packet) (r : Nat) : Prop :=
  if s.qib then
    s.hardLimit ≤ s.qlen →
      (s.q.byteLength + pkt.size : Int) ≤ s.hardLimit + S + s.victimSize pkt r
  else 0 ≤ s.qlim

instance (S : Nat) (s : REDQueue) (pkt : Packet) (r : Nat) :
    Decidable (s.EvictsEnough S pkt r) := by
  unfold EvictsEnough
  infer_instance

/-- One arrival: the state it leaves is within the limit when it evicts enough
and only then. -/
theorem enque_withinLimit_iff (lm : Libm) {s s' : REDQueue} {pkt : Packet} {d : Draw} {S : Nat}
    {out : Option (Fate × Packet)} (hn : (s.q.uids ++ [pkt.uid]).Nodup) (hS : pkt.size ≤ S)
    (hin : s.qib = false → 0 ≤ s.qlim → (s.q.length : Int) ≤ s.qlim)
    (h : s.enque lm pkt d = .ok (s', out)) :
    s'.WithinLimit S ↔ s.EvictsEnough S pkt d.r := by
  obtain ⟨⟨hbytes, hlen⟩, hfull⟩ := enque_size lm hn h
  have hframe := (enque_ok lm h).frame
  have hqib : s'.qib = s.qib := by rw [hframe]
  have hqlim : s'.qlim = s.qlim := by rw [hframe]
  have hedp : s'.edp = s.edp := by rw [hframe]
  rw [WithinLimit, EvictsEnough, hqib, hqlim, hedp]
  rw [hardLimit, qlen] at hfull ⊢
  cases hq : s.qib with
  | true =>
      simp only [hq, if_true] at hfull ⊢
      constructor
      · intro hle hge
        have hex := (hfull hge).1
        omega
      · intro hev
        -- below the limit there is room for one arrival
        rcases lt_or_ge (s.q.byteLength : Int) (s.qlim * s.edp.meanPktsize) with hlt | hge
        · omega
        · have hroom := hev hge
          have hex := (hfull hge).1
          omega
  | false =>
      simp only [hq, Bool.false_eq_true, if_false] at hfull ⊢
      constructor
      · intro hle
        omega
      · intro hpos
        rcases lt_or_ge (s.q.length : Int) s.qlim with hlt | hge
        · omega
        · have hex := (hfull hge).2
          have hbefore := hin hq hpos
          omega

/-- Drop-tail always evicts enough once the queue is within the limit. -/
theorem evictsEnough_dropTail {s : REDQueue} {S : Nat} (hf : s.dropFront = false)
    (hr : s.dropRand = false) (hlim : 0 ≤ s.qlim) (hs : s.WithinLimit S) (pkt : Packet) (r : Nat) :
    s.EvictsEnough S pkt r := by
  rw [WithinLimit] at hs
  rw [EvictsEnough, victimSize_dropTail hf hr, hardLimit]
  cases hq : s.qib with
  | true =>
      simp only [hq, if_true] at hs ⊢
      intro _
      omega
  | false => simpa [hq] using hlim

/-- A departure touches the packets and the idle fields, and adds no packet. -/
theorem deque_frame (s : REDQueue) (now : ℚ) :
    ∃ q idle idletime, (s.deque now).2 = { s with q, idle, idletime } ∧
      q.length ≤ s.q.length ∧ q.byteLength ≤ s.q.byteLength := by
  rw [deque]
  cases hq : s.q.packets with
  | nil =>
      rw [PacketQueue.uids_deque_of_nil hq]
      exact ⟨s.q, true, now, rfl, le_rfl, le_rfl⟩
  | cons p rest =>
      rw [PacketQueue.deque_of_cons hq]
      refine ⟨⟨rest⟩, false, s.idletime, rfl, ?_, ?_⟩
      · simp [PacketQueue.length, hq]
      · simp [PacketQueue.byteLength, hq]

/-- A departure stays within the limit. -/
theorem WithinLimit.deque {s : REDQueue} {S : Nat} (hs : s.WithinLimit S) (now : ℚ) :
    (s.deque now).2.WithinLimit S := by
  obtain ⟨q, idle, idletime, hframe, hlen, hbytes⟩ := s.deque_frame now
  rw [hframe]
  rw [WithinLimit] at hs ⊢
  cases hq : s.qib with
  | true =>
      simp only [hq, if_true] at hs ⊢
      omega
  | false =>
      simp only [hq, Bool.false_eq_true, if_false] at hs ⊢
      omega

end REDQueue

/-! ## Along a run -/

namespace Traffic

/-- The arriving packet object. -/
def arriving (t : Traffic) (pkt : Packet) : Packet := { pkt with uid := t.arrivals }

/-- The state an arrival leaves is within the limit. -/
def StaysWithin (lm : Libm) (S : Nat) (t : Traffic) : Op → Prop
  | .enque pkt d => ∀ t', t.step lm (.enque pkt d) = .ok t' → t'.queue.WithinLimit S
  | .deque _ => True

/-- An arrival that does not make the process divide by zero evicts enough. -/
def EvictsEnough (S : Nat) (t : Traffic) : Op → Prop
  | .enque pkt d =>
      ¬(t.queue.arrive (t.arriving pkt) d.now).DividesByZero →
        t.queue.EvictsEnough S (t.arriving pkt) d.r
  | .deque _ => True

instance (S : Nat) (t : Traffic) : DecidablePred (t.EvictsEnough S)
  | .enque _ d =>
      inferInstanceAs (Decidable (¬(t.queue.arrive _ d.now).DividesByZero →
        t.queue.EvictsEnough S _ d.r))
  | .deque _ => isTrue trivial

/-- What the runs keep: a balanced ledger, and in packets the limit. -/
structure Limited (t : Traffic) : Prop where
  balanced : t.ledger.Balanced
  length : t.queue.qib = false → 0 ≤ t.queue.qlim → (t.queue.q.length : Int) ≤ t.queue.qlim

/-- The arrival is a packet object that is not queued yet. -/
theorem nodup_arriving {t : Traffic} (hb : t.ledger.Balanced) (pkt : Packet) :
    (t.queue.q.uids ++ [(t.arriving pkt).uid]).Nodup := by
  have hsub : t.queue.q.uids.Sublist (List.range t.arrivals) :=
    (List.sublist_append_right _ _).trans hb.ordered
  have happ : (t.queue.q.uids ++ [t.arrivals]).Sublist (List.range t.arrivals ++ [t.arrivals]) :=
    hsub.append (List.Sublist.refl _)
  rw [← List.range_succ] at happ
  exact List.nodup_range.sublist happ

theorem enque_cases {lm : Libm} {t t' : Traffic} {pkt : Packet} {d : Draw}
    (h : t.step lm (.enque pkt d) = .ok t') :
    ∃ out, t.queue.enque lm (t.arriving pkt) d = .ok (t'.queue, out) := by
  rw [step_enque] at h
  cases he : t.queue.enque lm (t.arriving pkt) d with
  | error e =>
      rw [arriving] at he
      rw [he] at h
      cases h
  | ok r =>
      obtain ⟨q, out⟩ := r
      rw [arriving] at he
      rw [he] at h
      cases h
      exact ⟨out, rfl⟩

theorem staysWithin_iff (lm : Libm) {S : Nat} {t : Traffic} (ht : t.Limited) {op : Op}
    (hS : ∀ pkt d, op = .enque pkt d → pkt.size ≤ S) :
    t.StaysWithin lm S op ↔ t.EvictsEnough S op := by
  cases op with
  | deque now => exact Iff.rfl
  | enque pkt d =>
      have hn := nodup_arriving ht.balanced pkt
      have hsize : (t.arriving pkt).size ≤ S := hS pkt d rfl
      constructor
      · intro h hdiv
        cases he : t.queue.enque lm (t.arriving pkt) d with
        | error e => exact absurd ((REDQueue.enque_error_iff lm).1 he).1 hdiv
        | ok r =>
            obtain ⟨q, out⟩ := r
            rw [← REDQueue.enque_withinLimit_iff lm hn hsize ht.length he]
            apply h { t with
              queue := q, arrivals := t.arrivals + 1, handed := t.handed ++ out.toList }
            rw [arriving] at he
            rw [step_enque, he]
      · intro h t' hstep
        obtain ⟨out, he⟩ := enque_cases hstep
        rw [REDQueue.enque_withinLimit_iff lm hn hsize ht.length he]
        apply h
        intro hdiv
        rw [(REDQueue.enque_error_iff lm).2 ⟨hdiv, rfl⟩] at he
        cases he

theorem Limited.step {lm : Libm} {S : Nat} {t t' : Traffic} {op : Op} (ht : t.Limited)
    (hS : ∀ pkt d, op = .enque pkt d → pkt.size ≤ S) (hev : t.EvictsEnough S op)
    (h : t.step lm op = .ok t') : t'.Limited := by
  refine ⟨step_balanced lm t op t' ht.balanced h, ?_⟩
  cases op with
  | deque now =>
      cases h
      obtain ⟨q, idle, idletime, hframe, hlen, -⟩ := t.queue.deque_frame now
      show (t.queue.deque now).2.qib = false → 0 ≤ (t.queue.deque now).2.qlim →
        ((t.queue.deque now).2.q.length : Int) ≤ (t.queue.deque now).2.qlim
      rw [hframe]
      intro hq hpos
      have hbefore := ht.length hq hpos
      show (q.length : Int) ≤ t.queue.qlim
      omega
  | enque pkt d =>
      have hin := (staysWithin_iff lm ht hS).2 hev t' h
      intro hq _
      rwa [REDQueue.WithinLimit, if_neg (by simp [hq])] at hin

/-- A drop-tail queue with a limit that is not negative, within it. -/
structure TailLimited (S : Nat) (t : Traffic) : Prop extends t.Limited where
  dropFront : t.queue.dropFront = false
  dropRand : t.queue.dropRand = false
  limit : 0 ≤ t.queue.qlim
  within : t.queue.WithinLimit S

theorem TailLimited.evictsEnough {S : Nat} {t : Traffic} (ht : t.TailLimited S) (op : Op) :
    t.EvictsEnough S op := by
  cases op with
  | deque now => trivial
  | enque pkt d =>
      intro _
      exact REDQueue.evictsEnough_dropTail ht.dropFront ht.dropRand ht.limit ht.within _ _

theorem TailLimited.step {lm : Libm} {S : Nat} {t t' : Traffic} {op : Op} (ht : t.TailLimited S)
    (hS : ∀ pkt d, op = .enque pkt d → pkt.size ≤ S) (h : t.step lm op = .ok t') :
    t'.TailLimited S := by
  have hlimited := ht.toLimited.step hS (ht.evictsEnough op) h
  cases op with
  | deque now =>
      cases h
      obtain ⟨q, idle, idletime, hframe, -⟩ := t.queue.deque_frame now
      refine ⟨hlimited, ?_, ?_, ?_, ht.within.deque now⟩
      · exact (congrArg REDQueue.dropFront hframe).trans ht.dropFront
      · exact (congrArg REDQueue.dropRand hframe).trans ht.dropRand
      · exact ht.limit.trans_eq (congrArg REDQueue.qlim hframe).symm
  | enque pkt d =>
      obtain ⟨out, he⟩ := enque_cases h
      have hframe := (REDQueue.enque_ok lm he).frame
      refine ⟨hlimited, ?_, ?_, ?_, ?_⟩
      · rw [hframe]
        exact ht.dropFront
      · rw [hframe]
        exact ht.dropRand
      · rw [hframe]
        exact ht.limit
      · exact (staysWithin_iff lm ht.toLimited hS).2 (ht.evictsEnough _) t' h

theorem limited_start (s : REDQueue) : (start s).Limited :=
  ⟨start_balanced s, fun _ hpos => hpos⟩

end Traffic

open Traffic

/-- Along every run from the empty queue with arrivals of at most `S` bytes, the
arrivals leave the queue within its limit exactly when they evict enough. -/
theorem withinLimit_iff (lm : Libm) (s : REDQueue) (S : Nat) (ops : List Op)
    (hS : ∀ pkt d, Op.enque pkt d ∈ ops → pkt.size ≤ S) :
    Along (Traffic.step lm) (StaysWithin lm S) (start s) ops ↔
      Along (Traffic.step lm) (Traffic.EvictsEnough S) (start s) ops := by
  have hsize : ∀ op ∈ ops, ∀ pkt d, op = Op.enque pkt d → pkt.size ≤ S := by
    rintro op hop pkt d rfl
    exact hS pkt d hop
  apply along_congr_mem Traffic.Limited
  · intro t op hop t' ht hev hstep
    exact ht.step (hsize op hop) hev hstep
  · intro t op hop ht
    exact staysWithin_iff lm ht (hsize op hop)
  · exact limited_start s

/-- A drop-tail queue whose limit is not negative stays within it along every run from the
empty queue with arrivals of at most `S` bytes. -/
theorem withinLimit_dropTail (lm : Libm) (s : REDQueue) (S : Nat) (ops : List Op)
    (hS : ∀ pkt d, Op.enque pkt d ∈ ops → pkt.size ≤ S) (hf : s.dropFront = false)
    (hr : s.dropRand = false) (hlim : 0 ≤ s.qlim) :
    Along (Traffic.step lm) (StaysWithin lm S) (start s) ops := by
  have hsize : ∀ op ∈ ops, ∀ pkt d, op = Op.enque pkt d → pkt.size ≤ S := by
    rintro op hop pkt d rfl
    exact hS pkt d hop
  have hstart : (start s).queue.WithinLimit S := by
    rw [REDQueue.WithinLimit]
    split
    · show (0 : Int) ≤ s.qlim * s.edp.meanPktsize + S
      positivity
    · exact hlim
  have htail : (start s).TailLimited S := ⟨limited_start s, hf, hr, hlim, hstart⟩
  refine Along.of_kept_mem ?_ ?_ htail
  · intro t op hop t' ht hstep
    exact ht.step (hsize op hop) hstep
  · intro t op hop ht
    exact (staysWithin_iff lm ht.toLimited (hsize op hop)).2 (ht.evictsEnough op)

/-! ## A run past the limit -/

/-- `limit_` 1 with packets of 500 bytes on average, counted in bytes; the second
packet of the queue is the victim. -/
def dropFrontQueue : REDQueue where
  edp := { meanPktsize := 500, thMin := 1000000, thMax := 3000000 }
  qib := true
  qlim := 1
  dropFront := true

def sizedArrival (size : Nat) : Op := .enque { uid := 0, size } ⟨0, 1 / 2, 0⟩

/-- Three packets fill the 500 bytes; each of three more finds a victim that is large
enough, and 1300 bytes stay. -/
theorem withinLimit_iff_dropFront :
    Along (Traffic.step zeroLibm) (StaysWithin zeroLibm 1000) (start dropFrontQueue)
        ([400, 40, 60, 500, 500, 400].map sizedArrival) ∧
      (runAll (Traffic.step zeroLibm) (start dropFrontQueue)
          ([400, 40, 60, 500, 500, 400].map sizedArrival)).map (fun t => t.queue.q.byteLength) =
        .ok 1300 := by
  refine ⟨(withinLimit_iff zeroLibm dropFrontQueue 1000 _ ?_).2 (by decide +kernel),
    by decide +kernel⟩
  intro pkt d h
  obtain ⟨size, hmem, heq⟩ := List.mem_map.1 h
  cases heq
  have hle : ∀ size ∈ [400, 40, 60, 500, 500, 400], size ≤ 1000 := by decide
  exact hle size hmem

/-- Three packets fill the 500 bytes, and two data packets of 1000 bytes evict
the two small ones. -/
def smallThenLarge : List Op := [400, 40, 60, 1000, 1000].map sizedArrival

/-- The run ends with `n` bytes queued, past the limit for arrivals of `S` bytes. -/
def endsPastLimit (S n : Nat) (r : Except Crash Traffic) : Bool :=
  match r with
  | .ok t => decide (t.queue.q.byteLength = n) && !decide (t.queue.WithinLimit S)
  | .error _ => false

/-- The run leaves 2400 bytes where the limit and one arrival make 1500. -/
theorem smallThenLarge_passes_limit :
    ∃ t, runAll (Traffic.step zeroLibm) (start dropFrontQueue) smallThenLarge = .ok t ∧
      t.queue.q.byteLength = 2400 ∧ ¬t.queue.WithinLimit 1000 := by
  have hend : endsPastLimit 1000 2400
      (runAll (Traffic.step zeroLibm) (start dropFrontQueue) smallThenLarge) = true := by
    decide +kernel
  cases hrun : runAll (Traffic.step zeroLibm) (start dropFrontQueue) smallThenLarge with
  | error e =>
      rw [hrun] at hend
      cases hend
  | ok t =>
      rw [hrun] at hend
      simp only [endsPastLimit, Bool.and_eq_true, decide_eq_true_eq, Bool.not_eq_true',
        decide_eq_false_iff_not] at hend
      exact ⟨t, rfl, hend⟩

end ComputerNetworking.Queue
