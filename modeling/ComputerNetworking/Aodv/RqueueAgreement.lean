import ComputerNetworking.Aodv.RqueueLinks

/-!
# The queue of the agent is the linked one

The agent works on the list of the packets without a route, with their fields. It is what the
linked queue stands for (`Serves`), from a new queue on (`serves_start`), and each call of the
agent on the list is the call on the linked queue: `Serves.enque`, `Serves.find` and, for the
loops that take out all packets for a destination, `Serves.dequeAll`.
-/

set_option autoImplicit false

namespace ComputerNetworking.Aodv.AodvRqueue

variable {P : Type}

/-- A packet with its fields. -/
def stamped (packet : P → Packet) (q : AodvRqueue P) (p : P) : Packet :=
  { packet p with ts := q.ts p }

/-- The linked queue is the queue of the agent. -/
structure Serves (packet : P → Packet) (q : AodvRqueue P) (l : List Packet) : Prop where
  holds : q.Holds q.packets
  image_eq : q.packets.map (q.stamped packet) = l
  limit_eq : q.limit = AODV_RTQ_MAX_LEN
  timeout_eq : q.timeout = AODV_RTQ_TIMEOUT
  within : l.length ≤ AODV_RTQ_MAX_LEN

variable {packet : P → Packet} {q q' : AodvRqueue P} {l : List Packet} {m : List P} {p : P}
variable {fuel turns : ℕ} {now : ℚ} {dst : Addr}

theorem serves_start (packet : P → Packet) (next : P → Option P) (ts : P → ℚ) :
    Serves packet { next, ts } [] where
  holds := ⟨Foundations.LinkedQueue.linked_nil next, rfl⟩
  image_eq := rfl
  limit_eq := rfl
  timeout_eq := rfl
  within := Nat.zero_le _

theorem Serves.length_eq (h : Serves packet q l) : q.packets.length = l.length := by
  rw [← h.image_eq, List.length_map]

/-- `purge` leaves the packets whose time is not over. -/
theorem Serves.purge_eq (h : Serves packet q l) (now : ℚ) :
    Rqueue.purge now l = (q.fresh now).map (q.stamped packet) := by
  rw [← h.image_eq, Rqueue.purge, List.filter_map]
  rfl

/-- A queue with the same fields that stands for other packets. -/
theorem Serves.relinked (h : Serves packet q l) (hholds : q'.Holds m) (hsame : Relinked q q')
    (hle : m.length ≤ AODV_RTQ_MAX_LEN) : Serves packet q' (m.map (q.stamped packet)) := by
  have hstamped : q'.stamped packet = q.stamped packet := by
    funext p
    rw [stamped, hsame.ts_eq]
    rfl
  refine ⟨hholds.packets_eq.symm ▸ hholds, ?_, hsame.limit_eq.trans h.limit_eq,
    hsame.timeout_eq.trans h.timeout_eq, ?_⟩
  · rw [hholds.packets_eq, hstamped]
  · rw [List.length_map]
    exact hle

/-- `aodv_rqueue::find`. -/
theorem Serves.find (h : Serves packet q l) (hfuel : AODV_RTQ_MAX_LEN < fuel) (dst : Addr) :
    q.find fuel (fun p => (packet p).daddr) dst = .ok (Rqueue.find dst l) := by
  have hlt : q.packets.length < fuel := h.length_eq.trans_lt (h.within.trans_lt hfuel)
  rw [h.holds.find hlt, Rqueue.find, ← h.image_eq, List.any_map]
  rfl

variable [DecidableEq P]

/-! ## A packet joins the queue -/

omit [DecidableEq P] in
theorem map_room {Q : Type} (f : P → Q) (limit : ℤ) (m : List P) :
    (room limit m).map f = room limit (m.map f) := by
  rw [room, room, List.length_map]
  split
  · exact List.map_tail
  · rfl

theorem enque_eq (p : Packet) (now : ℚ) (l : List Packet) :
    Rqueue.enque p now l = room AODV_RTQ_MAX_LEN (Rqueue.purge now l) ++
      [{ p with ts := now + AODV_RTQ_TIMEOUT }] := by
  simp only [room, Nat.cast_inj]
  rfl

/-- `aodv_rqueue::enque`. -/
theorem Serves.enque (h : Serves packet q l) (hp : p ∉ q.packets)
    (hfuel : AODV_RTQ_MAX_LEN < fuel) (now : ℚ) :
    ∃ q', q.enque fuel p now = .ok q' ∧ Serves packet q' (Rqueue.enque (packet p) now l) := by
  have hlen : (q.packets.length : ℤ) ≤ q.limit := by
    rw [h.length_eq, h.limit_eq]
    exact_mod_cast h.within
  have hpos : 0 < q.limit := by
    rw [h.limit_eq]
    decide
  have hlt : q.limit < fuel := by
    rw [h.limit_eq]
    exact_mod_cast hfuel
  obtain ⟨out, q', hout, hq', hholds, hsame, -⟩ := h.holds.enque hp hlen hpos hlt now
  have hpf : p ∉ q.fresh now := fun hmem => hp (List.mem_of_mem_filter hmem)
  have hother : ∀ u ∈ room q.limit (q.fresh now), q'.stamped packet u = q.stamped packet u := by
    intro u hu
    have hne : u ≠ p := by
      rintro rfl
      exact hpf (hout ▸ List.mem_append_right out hu)
    have hts : q'.ts u = q.ts u :=
      (congrFun hsame.ts_eq u).trans (Function.update_of_ne hne _ _)
    rw [stamped, stamped, hts]
  have hself : q'.ts p = now + AODV_RTQ_TIMEOUT := by
    rw [← h.timeout_eq]
    exact (congrFun hsame.ts_eq p).trans (Function.update_self ..)
  refine ⟨q', hq', hholds.packets_eq.symm ▸ hholds, ?_, hsame.limit_eq.trans h.limit_eq,
    hsame.timeout_eq.trans h.timeout_eq, ?_⟩
  · rw [hholds.packets_eq, List.map_append, List.map_congr_left hother, map_room, ← h.purge_eq,
      h.limit_eq, enque_eq, List.map_singleton, stamped, hself]
  · have hfresh : ((q.fresh now).length : ℤ) ≤ q.limit :=
      (Nat.cast_le.mpr (List.length_filter_le _ _)).trans hlen
    have hroom := length_room hfresh hpos
    rw [← List.length_map (q.stamped packet), map_room, ← h.purge_eq, h.limit_eq] at hroom
    rw [enque_eq, List.length_append, List.length_singleton]
    exact_mod_cast hroom

/-! ## The packets for a destination leave it -/

/-- The loop `while ((p = rqueue.deque(dst)))`; the number is how often it may turn. -/
def dequeAll (fuel : ℕ) (daddr : P → Addr) (dst : Addr) (now : ℚ) :
    ℕ → AodvRqueue P → Except Fault (List P × AodvRqueue P)
  | 0, _ => .error .endless
  | turns + 1, q => do
      let (p, q) ← q.dequeDst fuel daddr dst now
      match p with
      | none => return ([], q)
      | some p =>
          let (ps, q) ← dequeAll fuel daddr dst now turns q
          return (p :: ps, q)

/-- `aodv_rqueue::deque` for a destination. -/
theorem Serves.dequeDst (h : Serves packet q l) (hfuel : AODV_RTQ_MAX_LEN < fuel) (now : ℚ)
    (dst : Addr) :
    ∃ p q', q.dequeDst fuel (fun p => (packet p).daddr) dst now = .ok (p, q') ∧
      p.map (q.stamped packet) = (Rqueue.taken dst now l).head? ∧ q'.ts = q.ts ∧
      Serves packet q' ((Rqueue.purge now l).eraseP fun p => p.daddr = dst) := by
  have hlt : q.packets.length < fuel := h.length_eq.trans_lt (h.within.trans_lt hfuel)
  obtain ⟨q', hq', hholds, hsame⟩ :=
    h.holds.dequeDst hlt now (fun p => (packet p).daddr) dst
  refine ⟨_, q', hq', ?_, hsame.ts_eq, ?_⟩
  · rw [Rqueue.taken, List.head?_filter, h.purge_eq, List.find?_map]
    rfl
  · rw [h.purge_eq, List.eraseP_map]
    refine h.relinked hholds hsame ?_
    calc ((q.fresh now).eraseP fun p => (packet p).daddr = dst).length
        ≤ (q.fresh now).length := List.length_eraseP_le
      _ ≤ q.packets.length := List.length_filter_le _ _
      _ ≤ AODV_RTQ_MAX_LEN := h.length_eq.trans_le h.within

theorem filter_eraseP {α : Type} (test : α → Bool) (k : List α) :
    (k.eraseP test).filter test = (k.filter test).tail ∧
      (k.eraseP test).filter (fun a => !test a) = k.filter fun a => !test a := by
  induction k with
  | nil => exact ⟨rfl, rfl⟩
  | cons a k ih =>
      cases ha : test a with
      | true => simp [ha]
      | false => simp [ha, ih]

theorem purge_eraseP (test : Packet → Bool) (now : ℚ) (l : List Packet) :
    Rqueue.purge now ((Rqueue.purge now l).eraseP test) = (Rqueue.purge now l).eraseP test := by
  refine List.filter_eq_self.mpr fun p hp => ?_
  have hmem : p ∈ Rqueue.purge now l := List.mem_of_mem_eraseP hp
  exact (List.mem_filter.mp hmem).2

/-- What a call for the destination leaves to the next one. -/
theorem taken_eraseP (dst : Addr) (now : ℚ) (l : List Packet) :
    Rqueue.taken dst now ((Rqueue.purge now l).eraseP fun p => p.daddr = dst) =
        (Rqueue.taken dst now l).tail ∧
      Rqueue.left dst now ((Rqueue.purge now l).eraseP fun p => p.daddr = dst) =
        Rqueue.left dst now l := by
  obtain ⟨htaken, hleft⟩ := filter_eraseP (fun p => p.daddr = dst) (Rqueue.purge now l)
  simp only [Rqueue.taken, Rqueue.left, purge_eraseP, ne_eq, decide_not]
  exact ⟨htaken, hleft⟩

/-- The loop takes out the packets for the destination, in their order, and leaves the rest. -/
theorem Serves.dequeAll (h : Serves packet q l) (hfuel : AODV_RTQ_MAX_LEN < fuel)
    (hturns : l.length < turns) :
    ∃ ps q', AodvRqueue.dequeAll fuel (fun p => (packet p).daddr) dst now turns q =
        .ok (ps, q') ∧
      ps.map (q.stamped packet) = Rqueue.taken dst now l ∧
      Serves packet q' (Rqueue.left dst now l) := by
  induction turns generalizing q l with
  | zero => cases hturns
  | succ turns ih =>
      obtain ⟨p, q₁, hq₁, hp, hts, h₁⟩ := h.dequeDst hfuel now dst
      rw [AodvRqueue.dequeAll, hq₁, ok_bind]
      cases p with
      | none =>
          have hnil : Rqueue.taken dst now l = [] := List.head?_eq_none_iff.mp hp.symm
          have hnot := List.filter_eq_nil_iff.mp hnil
          have hleft : Rqueue.left dst now l = Rqueue.purge now l := by
            rw [Rqueue.left, List.filter_eq_self]
            intro p hmem
            exact decide_eq_true fun heq => hnot p hmem (decide_eq_true heq)
          rw [List.eraseP_of_forall_not hnot] at h₁
          exact ⟨[], q₁, rfl, hnil.symm, hleft.symm ▸ h₁⟩
      | some p =>
          obtain ⟨rest, htaken⟩ := List.head?_eq_some_iff.mp hp.symm
          have hmem : q.stamped packet p ∈ Rqueue.taken dst now l :=
            htaken ▸ List.mem_cons_self
          obtain ⟨hpurged, hdst⟩ := List.mem_filter.mp hmem
          have hshorter := List.length_eraseP_add_one (p := fun u => u.daddr = dst) hpurged hdst
          have hle : (Rqueue.purge now l).length ≤ l.length := List.length_filter_le _ _
          obtain ⟨htail, hleft⟩ := taken_eraseP dst now l
          obtain ⟨ps, q', hq', hps, h'⟩ := ih h₁ (by omega)
          have hstamped : q₁.stamped packet = q.stamped packet := by
            funext u
            rw [stamped, stamped, hts]
          rw [hstamped, htail, htaken, List.tail_cons] at hps
          refine ⟨p :: ps, q', ?_, ?_, hleft ▸ h'⟩
          · dsimp only
            rw [hq']
            rfl
          · rw [List.map_cons, hps, htaken]

end ComputerNetworking.Aodv.AodvRqueue
