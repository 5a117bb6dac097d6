import ComputerNetworking.Foundations.LinkedQueue
import ComputerNetworking.Foundations.Simulation
import ComputerNetworking.Queue.PacketQueue

/-!
# The packet queue with its pointers

`PacketQueue` of `queue/queue.h` and `queue/queue.cc` with `head_`, `tail_`, `len_` and
`bytes_`, the fields `next_` of the packets and their sizes. A packet is its address; the two
counts are unbounded, and a loop has `fuel` turns. `Represents` is that the queue stands for a
list: the links lead over its packets and end there, the two ends are its ends, and the counts
are its length and the sum of its sizes. Each call does to the list what its name says
(`Represents.enque` to `Represents.removeAfter`), and so do all of them in any order
(`simulates_list`). The queue of the disciplines is such a list (`Implements`).
-/

set_option autoImplicit false

namespace ComputerNetworking.Queue

open ComputerNetworking.Foundations ComputerNetworking.Foundations.LinkedQueue

/-- How a call ends that does not return. -/
inductive LinkFault where
  /-- `abort()` in `PacketQueue::remove` -/
  | abort
  | nullPointer
  /-- a loop that does not end -/
  | endless
deriving DecidableEq, Repr

/-- `PacketQueue`, and the fields it uses of all packets. -/
structure LinkedPacketQueue (P : Type) where
  head : Option P := none
  tail : Option P := none
  len : ℤ := 0
  bytes : ℤ := 0
  next : P → Option P
  size : P → ℤ

namespace LinkedPacketQueue

variable {P : Type} [DecidableEq P]

/-- `PacketQueue::enque`; returns the previous tail. -/
def enque (q : LinkedPacketQueue P) (p : P) : Option P × LinkedPacketQueue P :=
  match q.tail with
  | none =>
      (none, { q with head := some p, tail := some p, next := Function.update q.next p none,
                      len := q.len + 1, bytes := q.bytes + q.size p })
  | some t =>
      (some t, { q with next := Function.update (Function.update q.next t (some p)) p none,
                        tail := some p, len := q.len + 1, bytes := q.bytes + q.size p })

/-- `PacketQueue::deque`. -/
def deque (q : LinkedPacketQueue P) : Option P × LinkedPacketQueue P :=
  match q.head with
  | none => (none, q)
  | some p =>
      (some p, { q with head := if some p = q.tail then none else q.next p,
                        tail := if some p = q.tail then none else q.tail,
                        len := q.len - 1, bytes := q.bytes - q.size p })

/-- The loop of `PacketQueue::lookup`. -/
def lookupFrom (next : P → Option P) : ℕ → ℤ → Option P → Except LinkFault (Option P)
  | 0, _, _ => .error .endless
  | _ + 1, _, none => .ok none
  | fuel + 1, n, some p => if n - 1 < 0 then .ok (some p) else lookupFrom next fuel (n - 1) (next p)

/-- `PacketQueue::lookup`. -/
def lookup (q : LinkedPacketQueue P) (fuel : ℕ) (n : ℤ) : Except LinkFault (Option P) :=
  lookupFrom q.next fuel n q.head

/-- The part of both `remove`s that takes out the packet `p` behind `prev`. -/
def unlink (q : LinkedPacketQueue P) (p prev : P) : LinkedPacketQueue P :=
  { q with tail := if some p = q.tail then some prev else q.tail,
           next := Function.update q.next prev (q.next p),
           len := q.len - 1, bytes := q.bytes - q.size p }

/-- `PacketQueue::remove` for a packet. -/
def remove (q : LinkedPacketQueue P) (fuel : ℕ) (target : P) :
    Except LinkFault (LinkedPacketQueue P) :=
  match search q.next (fun p => p = target) fuel none q.head with
  | none => .error .endless
  | some (none, _) => .error .abort
  | some (some _, none) => .ok q.deque.2
  | some (some p, some pp) => .ok (q.unlink p pp)

/-- `PacketQueue::remove` for a packet and the one before it. -/
def removeAfter (q : LinkedPacketQueue P) (pkt prev : Option P) :
    Except LinkFault (LinkedPacketQueue P) :=
  match pkt with
  | none => .ok q
  | some pkt =>
      if q.head = some pkt then .ok q.deque.2
      else
        match prev with
        | none => .error .nullPointer
        | some prev => .ok (q.unlink pkt prev)

/-- `PacketQueue::enqueHead`. -/
def enqueHead (q : LinkedPacketQueue P) (p : P) : LinkedPacketQueue P :=
  { q with tail := if q.head = none then some p else q.tail,
           next := Function.update q.next p q.head, head := some p,
           len := q.len + 1, bytes := q.bytes + q.size p }

/-- The queue stands for the list. -/
structure Represents (q : LinkedPacketQueue P) (l : List P) : Prop where
  linked : Linked q.next q.head q.tail l
  len_eq : q.len = l.length
  bytes_eq : q.bytes = (l.map q.size).sum

variable {q : LinkedPacketQueue P} {l m : List P} {p prev : P} {fuel : ℕ}

omit [DecidableEq P] in
/-- The ends of the queue are the ends of the list, and the last packet links to none. -/
theorem Represents.ends (h : Represents q l) :
    q.head = l.head? ∧ q.tail = l.getLast? ∧ ∀ t, q.tail = some t → q.next t = none :=
  ⟨h.linked.head_eq, h.linked.tail_eq, fun _ ht => Linked.next_tail (ht ▸ h.linked)⟩

theorem Represents.enque (h : Represents q l) (hp : p ∉ l) :
    (q.enque p).1 = l.getLast? ∧ Represents (q.enque p).2 (l ++ [p]) := by
  have hlen : q.len + 1 = (l ++ [p]).length := by
    rw [h.len_eq, List.length_append, List.length_singleton]
    exact (Nat.cast_succ _).symm
  have hbytes : q.bytes + q.size p = ((l ++ [p]).map q.size).sum := by
    rw [h.bytes_eq, List.map_append, List.sum_append, List.map_singleton, List.sum_singleton]
  rw [LinkedPacketQueue.enque]
  cases ht : q.tail with
  | none =>
      have hl : l = [] := List.getLast?_eq_none_iff.mp (h.linked.tail_eq.symm.trans ht)
      subst hl
      exact ⟨rfl, linked_singleton q.next p, hlen, hbytes⟩
  | some t => exact ⟨ht.symm.trans h.linked.tail_eq, (ht ▸ h.linked).append hp, hlen, hbytes⟩

theorem Represents.enqueHead (h : Represents q l) (hp : p ∉ l) :
    Represents (q.enqueHead p) (p :: l) := by
  refine ⟨h.linked.push hp, ?_, ?_⟩
  · show q.len + 1 = _
    rw [h.len_eq, List.length_cons]
    exact (Nat.cast_succ _).symm
  · show q.bytes + q.size p = (q.size p :: l.map q.size).sum
    rw [h.bytes_eq, List.sum_cons, add_comm]

omit [DecidableEq P] in
/-- The length and the sum of the sizes without a packet. -/
theorem Represents.counts (h : Represents q (l ++ p :: m)) :
    q.len - 1 = (l ++ m).length ∧ q.bytes - q.size p = ((l ++ m).map q.size).sum := by
  rw [h.len_eq, h.bytes_eq]
  simp only [List.length_append, List.length_cons, List.map_append, List.map_cons,
    List.sum_append, List.sum_cons]
  constructor
  · push_cast
    ring
  · ring

theorem Represents.deque_nil (h : Represents q []) : q.deque = (none, q) := by
  rw [LinkedPacketQueue.deque, h.linked.head_eq]
  rfl

theorem Represents.deque (h : Represents q (p :: l)) :
    q.deque.1 = some p ∧ Represents q.deque.2 l := by
  have hhead : q.head = some p := h.linked.head_eq
  have htail : q.tail = some p ↔ l = [] := Linked.tail_eq_iff (l := []) h.linked
  obtain ⟨hlen, hbytes⟩ := Represents.counts (l := []) h
  rw [LinkedPacketQueue.deque, hhead]
  refine ⟨rfl, ?_, hlen, hbytes⟩
  dsimp only
  by_cases hl : l = []
  · rw [if_pos (htail.mpr hl).symm, if_pos (htail.mpr hl).symm, hl]
    exact linked_nil _
  · rw [if_neg fun heq => hl (htail.mp heq.symm), if_neg fun heq => hl (htail.mp heq.symm)]
    refine ⟨h.linked.links.2, ?_⟩
    rw [h.linked.tail_eq, List.getLast?_cons_of_ne_nil hl]

/-- A packet behind another one is taken out. -/
theorem Represents.unlink (h : Represents q (l ++ prev :: p :: m)) :
    Represents (q.unlink p prev) (l ++ prev :: m) := by
  have hsplit : l ++ prev :: p :: m = (l ++ [prev]) ++ p :: m := by
    rw [List.append_assoc, List.singleton_append]
  have hjoin : l ++ prev :: m = (l ++ [prev]) ++ m := by
    rw [List.append_assoc, List.singleton_append]
  obtain ⟨hlen, hbytes⟩ := Represents.counts (hsplit ▸ h)
  have htail := Linked.tail_eq_iff (hsplit ▸ h.linked)
  have hout := h.linked.unlink
  refine ⟨⟨hout.links, ?_⟩, hjoin ▸ hlen, hjoin ▸ hbytes⟩
  show (if some p = q.tail then some prev else q.tail) = _
  by_cases hm : m = []
  · rw [if_pos (htail.mpr hm).symm, hm, List.getLast?_concat]
  · rw [if_neg fun heq => hm (htail.mp heq.symm), h.linked.tail_eq]
    simp only [List.getLast?_append, List.getLast?_cons_of_ne_nil hm,
      List.getLast?_cons_of_ne_nil (List.cons_ne_nil p m)]

omit [DecidableEq P] in
theorem lookupFrom_eq {next : P → Option P} {first : Option P} (h : Seg next first l none)
    (hfuel : l.length < fuel) (n : ℤ) : lookupFrom next fuel n first = .ok l[n.toNat]? := by
  induction l generalizing first fuel n with
  | nil =>
      obtain ⟨k, rfl⟩ := Nat.exists_eq_succ_of_ne_zero hfuel.ne'
      rw [show first = none from h, lookupFrom, List.getElem?_nil]
  | cons p l ih =>
      obtain ⟨rfl, hl⟩ := h
      obtain ⟨k, rfl⟩ := Nat.exists_eq_succ_of_ne_zero (Nat.ne_zero_of_lt hfuel)
      rw [lookupFrom]
      split
      · next hn =>
          have hzero : n.toNat = 0 := by omega
          rw [hzero]
          rfl
      · next hn =>
          have hsucc : n.toNat = (n - 1).toNat + 1 := by omega
          rw [ih hl (Nat.lt_of_succ_lt_succ hfuel), hsucc, List.getElem?_cons_succ]

omit [DecidableEq P] in
theorem Represents.lookup (h : Represents q l) (hfuel : l.length < fuel) (n : ℤ) :
    q.lookup fuel n = .ok l[n.toNat]? :=
  lookupFrom_eq h.linked.links hfuel n

theorem Represents.remove (h : Represents q l) (hp : p ∈ l) (hfuel : l.length < fuel) :
    ∃ q', q.remove fuel p = .ok q' ∧ Represents q' (l.erase p) := by
  obtain ⟨before, after, rfl, hbefore⟩ := List.eq_append_cons_of_mem hp
  have htest : ∀ u ∈ before, decide (u = p) = false := by
    intro u hu
    apply decide_eq_false
    rintro rfl
    exact hbefore hu
  have hfound := search_found h.linked.links htest (decide_eq_true rfl) hfuel none
  rw [LinkedPacketQueue.remove, hfound, List.erase_append_right _ hbefore, List.erase_cons_head,
    Option.or_none]
  rcases List.eq_nil_or_concat' before with rfl | ⟨front, prev, rfl⟩
  · exact ⟨_, rfl, (Represents.deque h).2⟩
  · rw [List.getLast?_concat]
    rw [List.append_assoc, List.singleton_append] at h ⊢
    exact ⟨_, rfl, h.unlink⟩

theorem Represents.removeAfter_head (h : Represents q l) (hp : l.head? = some p)
    (prev : Option P) :
    ∃ q', q.removeAfter (some p) prev = .ok q' ∧ Represents q' (l.erase p) := by
  obtain ⟨l', rfl⟩ := List.head?_eq_some_iff.mp hp
  have hremove : q.removeAfter (some p) prev = .ok q.deque.2 := if_pos (h.linked.head_eq.trans hp)
  rw [hremove, List.erase_cons_head]
  exact ⟨_, rfl, (Represents.deque h).2⟩

theorem Represents.removeAfter (h : Represents q l) (hp : [prev, p] <:+: l) :
    ∃ q', q.removeAfter (some p) (some prev) = .ok q' ∧ Represents q' (l.erase p) := by
  obtain ⟨before, after, rfl⟩ := hp
  have hsplit : before ++ [prev, p] ++ after = before ++ prev :: p :: after := by
    rw [List.append_assoc]
    rfl
  have hjoin : before ++ prev :: p :: after = (before ++ [prev]) ++ p :: after := by
    rw [List.append_assoc]
    rfl
  rw [hsplit] at h ⊢
  have hnot : p ∉ before ++ [prev] := by
    have hnodup := h.linked.nodup
    rw [hjoin] at hnodup
    exact fun hmem => (List.nodup_append.mp hnodup).2.2 p hmem p List.mem_cons_self rfl
  have herase : (before ++ prev :: p :: after).erase p = before ++ prev :: after := by
    rw [hjoin, List.erase_append_right _ hnot, List.erase_cons_head, List.append_assoc]
    rfl
  have hremove : q.removeAfter (some p) (some prev) = .ok (q.unlink p prev) :=
    if_neg (Ne.symm h.linked.head_ne)
  rw [hremove, herase]
  exact ⟨_, rfl, h.unlink⟩

/-! ## The queue of the disciplines -/

@[simp] theorem size_enque (q : LinkedPacketQueue P) (p : P) :
    (q.enque p).2.size = q.size := by
  rw [LinkedPacketQueue.enque]
  cases q.tail with
  | none => rfl
  | some t => rfl

@[simp] theorem size_deque (q : LinkedPacketQueue P) : q.deque.2.size = q.size := by
  rw [LinkedPacketQueue.deque]
  cases q.head with
  | none => rfl
  | some p => rfl

theorem size_remove {q' : LinkedPacketQueue P} (h : q.remove fuel p = .ok q') :
    q'.size = q.size := by
  rw [LinkedPacketQueue.remove] at h
  split at h
  · cases h
  · cases h
  · cases h
    exact size_deque q
  · cases h
    rfl

/-- The linked queue of the packets' identities is the queue of the disciplines. -/
structure Implements (q : LinkedPacketQueue ℕ) (pq : PacketQueue) : Prop where
  represents : Represents q pq.uids
  size_eq : ∀ p ∈ pq.packets, q.size p.uid = p.size

section Implements

variable {q : LinkedPacketQueue ℕ} {pq : PacketQueue} {p : Packet}

theorem Implements.length (h : Implements q pq) : q.len = pq.length := by
  rw [h.represents.len_eq, PacketQueue.uids, List.length_map]
  rfl

theorem Implements.byteLength (h : Implements q pq) : q.bytes = pq.byteLength := by
  rw [h.represents.bytes_eq, PacketQueue.uids, List.map_map, PacketQueue.byteLength,
    Nat.cast_list_sum, List.map_map]
  exact congrArg List.sum (List.map_congr_left h.size_eq)

theorem Implements.enque (h : Implements q pq) (hp : p.uid ∉ pq.uids)
    (hsize : q.size p.uid = p.size) : Implements (q.enque p.uid).2 (pq.enque p) := by
  constructor
  · rw [PacketQueue.uids_enque]
    exact (h.represents.enque hp).2
  · intro u hu
    rw [size_enque]
    rcases List.mem_append.mp hu with hmem | hmem
    · exact h.size_eq u hmem
    · rw [List.mem_singleton.mp hmem]
      exact hsize

theorem Implements.deque (h : Implements q pq) :
    q.deque.1 = pq.deque.1.map Packet.uid ∧ Implements q.deque.2 pq.deque.2 := by
  obtain ⟨packets⟩ := pq
  cases packets with
  | nil =>
      have hnil := Represents.deque_nil h.represents
      rw [hnil]
      exact ⟨rfl, h⟩
  | cons p rest =>
      obtain ⟨hfirst, hrest⟩ := Represents.deque h.represents
      refine ⟨hfirst, hrest, fun u hu => ?_⟩
      rw [size_deque]
      exact h.size_eq u (List.mem_cons_of_mem p hu)

theorem Implements.lookup (h : Implements q pq) (hfuel : pq.length < fuel) (n : ℤ) :
    q.lookup fuel n = .ok ((pq.lookup n).map Packet.uid) := by
  rw [h.represents.lookup (by rwa [PacketQueue.uids, List.length_map]), PacketQueue.uids,
    List.getElem?_map]
  rfl

theorem Implements.remove (h : Implements q pq) (hp : p ∈ pq.packets)
    (hfuel : pq.length < fuel) :
    ∃ q' pq', q.remove fuel p.uid = .ok q' ∧ pq.remove p = .ok pq' ∧ Implements q' pq' := by
  have hany : (pq.packets.any fun u => u.uid == p.uid) = true :=
    List.any_eq_true.2 ⟨p, hp, beq_self_eq_true p.uid⟩
  have hremove : pq.remove p = .ok ⟨pq.packets.eraseP fun u => u.uid == p.uid⟩ := if_pos hany
  obtain ⟨q', hq', hrep⟩ := h.represents.remove (List.mem_map_of_mem hp)
    (by rwa [PacketQueue.uids, List.length_map])
  obtain ⟨pq', hpq', huids⟩ := PacketQueue.remove_of_mem hp
  refine ⟨q', pq', hq', hpq', huids ▸ hrep, fun u hu => ?_⟩
  rw [size_remove hq']
  cases hremove.symm.trans hpq'
  exact h.size_eq u (List.mem_of_mem_eraseP hu)

end Implements

/-! ## Calls in any order -/

/-- A call, or a change of the fields of a packet that is not in the queue. -/
inductive Call (P : Type) where
  | enque (p : P)
  | enqueHead (p : P)
  | deque
  | lookup (n : ℤ)
  | remove (p : P)
  | removeAfter (p : P) (prev : Option P)
  | elsewhere (p : P) (next : Option P) (size : ℤ)

/-- One call on the queue, with the packet it returns. -/
def step (fuel : ℕ) (q : LinkedPacketQueue P) :
    Call P → Except LinkFault (Option P × LinkedPacketQueue P)
  | .enque p => .ok (q.enque p)
  | .enqueHead p => .ok (none, q.enqueHead p)
  | .deque => .ok q.deque
  | .lookup n => (q.lookup fuel n).map fun p => (p, q)
  | .remove p => (q.remove fuel p).map fun q => (none, q)
  | .removeAfter p prev => (q.removeAfter (some p) prev).map fun q => (none, q)
  | .elsewhere p next size =>
      .ok (none, { q with next := Function.update q.next p next,
                          size := Function.update q.size p size })

/-- One call on a list, with the element it returns. -/
def listStep (l : List P) : Call P → Option P × List P
  | .enque p => (l.getLast?, l ++ [p])
  | .enqueHead p => (none, p :: l)
  | .deque => (l.head?, l.tail)
  | .lookup n => (l[n.toNat]?, l)
  | .remove p => (none, l.erase p)
  | .removeAfter p _ => (none, l.erase p)
  | .elsewhere .. => (none, l)

/-- A packet is in at most one queue, and is changed by others only when it is not in this one;
a packet that is removed is in it, and is the head or comes after the packet that is named. -/
def Legal (l : List P) : Call P → Prop
  | .enque p => p ∉ l
  | .enqueHead p => p ∉ l
  | .deque => True
  | .lookup _ => True
  | .remove p => p ∈ l
  | .removeAfter p prev => l.head? = some p ∨ ∃ pp ∈ prev, [pp, p] <:+: l
  | .elsewhere p _ _ => p ∉ l

/-- Each call does on the queue what it does on the list. -/
theorem Represents.step {c : Call P} (h : Represents q l) (hc : Legal l c)
    (hfuel : l.length < fuel) :
    ∃ q', q.step fuel c = .ok ((listStep l c).1, q') ∧ Represents q' (listStep l c).2 := by
  cases c with
  | enque p =>
      obtain ⟨hret, hq'⟩ := h.enque hc
      exact ⟨_, congrArg (fun r => Except.ok (r, (q.enque p).2)) hret, hq'⟩
  | enqueHead p => exact ⟨_, rfl, h.enqueHead hc⟩
  | deque =>
      cases l with
      | nil => exact ⟨q, congrArg Except.ok h.deque_nil, h⟩
      | cons p l =>
          obtain ⟨hret, hq'⟩ := Represents.deque h
          exact ⟨_, congrArg (fun r => Except.ok (r, q.deque.2)) hret, hq'⟩
  | lookup n =>
      refine ⟨q, ?_, h⟩
      rw [LinkedPacketQueue.step, h.lookup hfuel]
      rfl
  | remove p =>
      obtain ⟨q', hremove, hq'⟩ := h.remove hc hfuel
      refine ⟨q', ?_, hq'⟩
      rw [LinkedPacketQueue.step, hremove]
      rfl
  | removeAfter p prev =>
      have hremoves : ∃ q', q.removeAfter (some p) prev = .ok q' ∧ Represents q' (l.erase p) := by
        rcases hc with hhead | ⟨pp, rfl, hbefore⟩
        · exact h.removeAfter_head hhead prev
        · exact h.removeAfter hbefore
      obtain ⟨q', hremove, hq'⟩ := hremoves
      refine ⟨q', ?_, hq'⟩
      rw [LinkedPacketQueue.step, hremove]
      rfl
  | elsewhere p next size =>
      refine ⟨_, rfl, h.linked.update hc next, h.len_eq, ?_⟩
      show q.bytes = _
      rw [h.bytes_eq]
      congr 1
      apply List.map_congr_left
      intro u hu
      refine (Function.update_of_ne ?_ _ _).symm
      rintro rfl
      exact hc hu

theorem length_listStep (l : List P) (c : Call P) : (listStep l c).2.length ≤ l.length + 1 := by
  cases c with
  | enque p => exact List.length_append.le
  | enqueHead p => exact le_rfl
  | deque => exact (List.tail_sublist l).length_le.trans (Nat.le_succ _)
  | lookup n => exact Nat.le_succ _
  | remove p => exact List.length_erase_le.trans (Nat.le_succ _)
  | removeAfter p prev => exact List.length_erase_le.trans (Nat.le_succ _)
  | elsewhere p next size => exact Nat.le_succ _

/-- From an empty queue any legal calls return what they return on a list, and the queue stands
for the list afterwards. -/
theorem simulates_list (next : P → Option P) (size : P → ℤ) (calls : List (Call P))
    (hlegal : LegalAll listStep Legal [] calls) (hfuel : calls.length < fuel) :
    ∃ answers l q, abstractAll listStep [] calls = (answers, l) ∧
      answersAll (step fuel) { next, size } calls = .ok (answers, q) ∧ Represents q l ∧
        q.head = l.head? ∧ q.tail = l.getLast? ∧ ∀ t, q.tail = some t → q.next t = none := by
  have hbounded := hlegal.bounded length_listStep ((Nat.zero_add _).trans_lt hfuel)
  have hempty : Represents ({ next, size } : LinkedPacketQueue P) [] :=
    ⟨linked_nil next, rfl, rfl⟩
  have hstep : ∀ (q : LinkedPacketQueue P) l c, Represents q l → Legal l c ∧ l.length < fuel →
      ∃ q', q.step fuel c = .ok ((listStep l c).1, q') ∧ Represents q' (listStep l c).2 :=
    fun q l c hq hc => hq.step hc.1 hc.2
  obtain ⟨q, hrun, hq⟩ := simulates_run Represents hstep hempty hbounded
  exact ⟨_, _, q, rfl, hrun, hq, hq.ends⟩

instance (l : List P) : (c : Call P) → Decidable (Legal l c)
  | .enque p => inferInstanceAs (Decidable (p ∉ l))
  | .enqueHead p => inferInstanceAs (Decidable (p ∉ l))
  | .deque => isTrue trivial
  | .lookup _ => isTrue trivial
  | .remove p => inferInstanceAs (Decidable (p ∈ l))
  | .removeAfter p prev =>
      inferInstanceAs (Decidable (l.head? = some p ∨ ∃ pp ∈ prev, [pp, p] <:+: l))
  | .elsewhere p _ _ => inferInstanceAs (Decidable (p ∉ l))

/-- The tail, a packet in the middle and the head are removed. -/
theorem simulates_list_three :
    ∃ answers l q, abstractAll listStep []
        [.enque 1, .enque 2, .enque 3, .lookup 1, .removeAfter 2 (some 1), .remove 3, .deque] =
          (answers, l) ∧
      answersAll (step 8) { next := fun _ : ℕ => none, size := fun _ => 40 }
        [.enque 1, .enque 2, .enque 3, .lookup 1, .removeAfter 2 (some 1), .remove 3, .deque] =
          .ok (answers, q) ∧ Represents q l ∧
        q.head = l.head? ∧ q.tail = l.getLast? ∧ ∀ t, q.tail = some t → q.next t = none :=
  simulates_list (fun _ => none) (fun _ => 40)
    [.enque 1, .enque 2, .enque 3, .lookup 1, .removeAfter 2 (some 1), .remove 3, .deque]
    (by decide) (by decide)

end LinkedPacketQueue

end ComputerNetworking.Queue
