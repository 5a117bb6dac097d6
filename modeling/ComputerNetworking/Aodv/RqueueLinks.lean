import ComputerNetworking.Aodv.Agent
import ComputerNetworking.Foundations.LinkedQueue

/-!
# The packets without a route, as a linked list

`aodv_rqueue` of `aodv/aodv_rqueue.h` and `aodv/aodv_rqueue.cc` with its pointers: `head_`,
`tail_`, `len_`, and the fields `next_` and `ts_` of the packets. A packet is its address, and
its destination is fixed. A loop has `fuel` turns. Every routine unlinks packets on its own;
each of them leaves a queue that stands for the list without the packet
(`Holds.removeHead`, `Holds.unlink`, `Holds.purge`), so none follows a null pointer, fails an
assertion or runs for ever.
-/

set_option autoImplicit false

namespace ComputerNetworking.Aodv

open ComputerNetworking.Foundations.LinkedQueue

/-- How a call ends that does not return. -/
inductive Fault where
  | assertion
  | nullPointer
  /-- a loop that does not end -/
  | endless
deriving DecidableEq, Repr

/-- The reasons for which `enque` drops a packet. -/
inductive DropReason where
  | qfull
  | qtimeout
deriving DecidableEq, Repr

/-- `aodv_rqueue`, the fields it uses of all packets, and the packets it has dropped. -/
structure AodvRqueue (P : Type) where
  head : Option P := none
  tail : Option P := none
  len : ℤ := 0
  limit : ℤ := AODV_RTQ_MAX_LEN
  timeout : ℚ := AODV_RTQ_TIMEOUT
  next : P → Option P
  ts : P → ℚ
  dropped : List (P × DropReason) := []

namespace AodvRqueue

variable {P : Type} [DecidableEq P]

/-- `aodv_rqueue::remove_head`. -/
def removeHead (q : AodvRqueue P) : Except Fault (Option P × AodvRqueue P) :=
  if q.head = q.tail then
    .ok (q.head, { q with head := none, tail := none,
                          len := if q.head.isSome then q.len - 1 else q.len })
  else
    match q.head with
    | none => .error .nullPointer
    | some p => .ok (some p, { q with head := q.next p, len := q.len - 1 })

/-- The loops of `findPacketWithDst` and `findAgedPacket`: the packet `p`, and `prev`. -/
def findPacket (q : AodvRqueue P) (fuel : ℕ) (test : P → Bool) :
    Except Fault (Option P × Option P) :=
  match search q.next test fuel none q.head with
  | none => .error .endless
  | some found => .ok found

/-- `aodv_rqueue::findPacketWithDst`. -/
def findPacketWithDst (q : AodvRqueue P) (fuel : ℕ) (daddr : P → Addr) (dst : Addr) :
    Except Fault (Option P × Option P) :=
  q.findPacket fuel fun p => daddr p = dst

/-- `aodv_rqueue::findAgedPacket`. -/
def findAgedPacket (q : AodvRqueue P) (fuel : ℕ) (now : ℚ) :
    Except Fault (Option P × Option P) :=
  q.findPacket fuel fun p => q.ts p < now

/-- The loop of `verifyQueue`. -/
def survey (next : P → Option P) : ℕ → ℤ → Option P → Option P → Option (ℤ × Option P)
  | 0, _, _, _ => none
  | _ + 1, cnt, prev, none => some (cnt, prev)
  | fuel + 1, cnt, _, some p => survey next fuel (cnt + 1) (some p) (next p)

/-- `aodv_rqueue::verifyQueue`. -/
def verifyQueue (q : AodvRqueue P) (fuel : ℕ) : Except Fault Unit :=
  match survey q.next fuel 0 none q.head with
  | none => .error .endless
  | some (cnt, prev) => if cnt = q.len ∧ prev = q.tail then .ok () else .error .assertion

/-- The assertion of `purge` and `deque` about the packet they have found. -/
def checkFound (q : AodvRqueue P) (p prev : Option P) : Except Fault Unit :=
  if p = none ∨ p = q.head ∧ prev = none then .ok ()
  else
    match prev with
    | none => .error .nullPointer
    | some prev => if q.next prev = p then .ok () else .error .assertion

/-- The part of `purge` and `deque` that takes the packet they have found out of the list. -/
def unlink (q : AodvRqueue P) (p : P) (prev : Option P) : Except Fault (AodvRqueue P) :=
  if some p = q.head then q.removeHead.map Prod.snd
  else
    match prev with
    | none => .error .nullPointer
    | some prev =>
        if some p = q.tail then
          .ok { q with next := Function.update q.next prev none, tail := some prev,
                       len := q.len - 1 }
        else .ok { q with next := Function.update q.next prev (q.next p), len := q.len - 1 }

/-- `aodv_rqueue::purge`; the first number is how often the outer loop may turn. -/
def purge (fuel : ℕ) (now : ℚ) : ℕ → AodvRqueue P → Except Fault (AodvRqueue P)
  | 0, _ => .error .endless
  | turns + 1, q => do
      let (p, prev) ← q.findAgedPacket fuel now
      match p with
      | none => .ok q
      | some p =>
          q.checkFound (some p) prev
          -- the packet is not handed to `drop`
          let q ← q.unlink p prev
          q.verifyQueue fuel
          purge fuel now turns q

/-- The part of `enque` that makes room. -/
def makeRoom (q : AodvRqueue P) (now : ℚ) : Except Fault (AodvRqueue P) :=
  if q.len = q.limit then do
    let (p0, q) ← q.removeHead
    match p0 with
    | none => .error .assertion
    | some p0 =>
        .ok { q with dropped := q.dropped ++
          [(p0, if now < q.ts p0 then DropReason.qfull else DropReason.qtimeout)] }
  else .ok q

/-- The part of `enque` that links the packet behind the last one. -/
def link (q : AodvRqueue P) (p : P) : Except Fault (AodvRqueue P) :=
  if q.head = none then .ok { q with head := some p, tail := some p, len := q.len + 1 }
  else
    match q.tail with
    | none => .error .nullPointer
    | some t =>
        .ok { q with next := Function.update q.next t (some p), tail := some p, len := q.len + 1 }

/-- `aodv_rqueue::enque`. -/
def enque (q : AodvRqueue P) (fuel : ℕ) (p : P) (now : ℚ) : Except Fault (AodvRqueue P) := do
  let q ← purge fuel now fuel q
  let q := { q with next := Function.update q.next p none,
                    ts := Function.update q.ts p (now + q.timeout) }
  let q ← q.makeRoom now
  let q ← q.link p
  q.verifyQueue fuel
  return q

/-- `aodv_rqueue::deque`. -/
def deque (q : AodvRqueue P) (fuel : ℕ) (now : ℚ) : Except Fault (Option P × AodvRqueue P) := do
  let q ← purge fuel now fuel q
  let (p, q) ← q.removeHead
  q.verifyQueue fuel
  return (p, q)

/-- `aodv_rqueue::deque` for a destination. -/
def dequeDst (q : AodvRqueue P) (fuel : ℕ) (daddr : P → Addr) (dst : Addr) (now : ℚ) :
    Except Fault (Option P × AodvRqueue P) := do
  let q ← purge fuel now fuel q
  let (p, prev) ← q.findPacketWithDst fuel daddr dst
  q.checkFound p prev
  match p with
  | none => return (none, q)
  | some p =>
      let q ← q.unlink p prev
      q.verifyQueue fuel
      return (some p, q)

/-- `aodv_rqueue::find`. -/
def find (q : AodvRqueue P) (fuel : ℕ) (daddr : P → Addr) (dst : Addr) : Except Fault Bool := do
  let (p, _) ← q.findPacketWithDst fuel daddr dst
  return p.isSome

/-- The packets in the queue: as many turns along the links as `len_` says. -/
def packets (q : AodvRqueue P) : List P := follow q.next q.len.toNat q.head

theorem ok_bind {A B : Type} (a : A) (f : A → Except Fault B) : (Except.ok a >>= f) = f a := rfl

/-- The queue stands for the list. -/
structure Holds (q : AodvRqueue P) (l : List P) : Prop where
  linked : Linked q.next q.head q.tail l
  len_eq : q.len = l.length

/-- Only pointers and `len_` have changed. -/
structure Relinked (q q' : AodvRqueue P) : Prop where
  limit_eq : q'.limit = q.limit
  timeout_eq : q'.timeout = q.timeout
  ts_eq : q'.ts = q.ts
  dropped_eq : q'.dropped = q.dropped

variable {q q' q'' : AodvRqueue P} {l m : List P} {p : P} {fuel : ℕ} {now : ℚ}

omit [DecidableEq P] in
theorem Relinked.trans (h : Relinked q q') (h' : Relinked q' q'') : Relinked q q'' :=
  ⟨h'.limit_eq.trans h.limit_eq, h'.timeout_eq.trans h.timeout_eq, h'.ts_eq.trans h.ts_eq,
    h'.dropped_eq.trans h.dropped_eq⟩

omit [DecidableEq P] in
theorem Holds.packets_eq (h : q.Holds l) : q.packets = l := by
  apply follow_eq h.linked.links
  rw [h.len_eq, Int.toNat_natCast]

/-! ## The routines on a queue that stands for a list -/

omit [DecidableEq P] in
theorem survey_eq {next : P → Option P} {first : Option P} (h : Seg next first l none)
    (hfuel : l.length < fuel) (cnt : ℤ) (prev : Option P) :
    survey next fuel cnt prev first = some (cnt + l.length, l.getLast?.or prev) := by
  induction l generalizing first fuel cnt prev with
  | nil =>
      obtain ⟨n, rfl⟩ := Nat.exists_eq_succ_of_ne_zero hfuel.ne'
      rw [show first = none from h, survey, List.length_nil, Nat.cast_zero, add_zero]
      rfl
  | cons p l ih =>
      obtain ⟨rfl, hl⟩ := h
      obtain ⟨n, rfl⟩ := Nat.exists_eq_succ_of_ne_zero (Nat.ne_zero_of_lt hfuel)
      rw [survey, ih hl (Nat.lt_of_succ_lt_succ hfuel), getLast?_cons_eq_or, Option.or_assoc,
        Option.some_or, List.length_cons, Nat.cast_succ]
      congr 2
      ring

theorem Holds.verifyQueue (h : q.Holds l) (hfuel : l.length < fuel) :
    q.verifyQueue fuel = .ok () := by
  rw [AodvRqueue.verifyQueue, survey_eq h.linked.links hfuel]
  dsimp only
  rw [if_pos]
  rw [h.len_eq, h.linked.tail_eq, Option.or_none, zero_add]
  exact ⟨rfl, rfl⟩

theorem Holds.removeHead_nil (h : q.Holds []) :
    ∃ q', q.removeHead = .ok (none, q') ∧ q'.Holds [] ∧ Relinked q q' := by
  have hhead : q.head = none := h.linked.head_eq
  have htail : q.tail = none := h.linked.tail_eq
  rw [removeHead, hhead, htail, if_pos rfl]
  exact ⟨_, rfl, ⟨linked_nil _, h.len_eq⟩, ⟨rfl, rfl, rfl, rfl⟩⟩

theorem Holds.removeHead (h : q.Holds (p :: l)) :
    ∃ q', q.removeHead = .ok (some p, q') ∧ q'.Holds l ∧ Relinked q q' ∧ q'.next = q.next := by
  have hhead : q.head = some p := h.linked.head_eq
  have htail : q.tail = some p ↔ l = [] := Linked.tail_eq_iff (l := []) h.linked
  have hlen : q.len - 1 = l.length := by
    rw [h.len_eq, List.length_cons]
    push_cast
    ring
  rw [AodvRqueue.removeHead, hhead]
  by_cases hl : l = []
  · rw [if_pos (htail.mpr hl).symm]
    exact ⟨_, rfl, ⟨hl ▸ linked_nil _, hlen⟩, ⟨rfl, rfl, rfl, rfl⟩, rfl⟩
  · rw [if_neg fun heq => hl (htail.mp heq.symm)]
    refine ⟨_, rfl, ⟨⟨h.linked.links.2, ?_⟩, hlen⟩, ⟨rfl, rfl, rfl, rfl⟩, rfl⟩
    rw [h.linked.tail_eq, List.getLast?_cons_of_ne_nil hl]

/-- A packet in the list passes the assertion, and is taken out. -/
theorem Holds.unlink (h : q.Holds (l ++ p :: m)) :
    q.checkFound (some p) l.getLast? = .ok () ∧
      ∃ q', q.unlink p l.getLast? = .ok q' ∧ q'.Holds (l ++ m) ∧ Relinked q q' := by
  rcases List.eq_nil_or_concat' l with rfl | ⟨before, prev, rfl⟩
  · have hhead : some p = q.head := h.linked.head_eq.symm
    obtain ⟨q', hq', hholds, hsame, -⟩ := Holds.removeHead h
    have hunlink : q.unlink p none = .ok q' := by
      rw [AodvRqueue.unlink, if_pos hhead, hq']
      rfl
    exact ⟨if_pos (Or.inr ⟨hhead, rfl⟩), q', hunlink, hholds, hsame⟩
  · have hlinked := h.linked
    have hlen : q.len - 1 = (before ++ prev :: m).length := by
      rw [h.len_eq]
      simp only [List.length_append, List.length_cons, List.length_nil]
      push_cast
      ring
    rw [List.append_assoc, List.singleton_append] at hlinked
    rw [List.getLast?_concat, List.append_assoc, List.singleton_append]
    have htail := h.linked.tail_eq_iff
    have hcheck : q.checkFound (some p) (some prev) = .ok () := by
      rw [checkFound, if_neg, if_pos hlinked.next_eq]
      rintro (hnone | ⟨-, hnone⟩)
      · cases hnone
      · cases hnone
    refine ⟨hcheck, ?_⟩
    have hout := hlinked.unlink
    rw [AodvRqueue.unlink, if_neg hlinked.head_ne]
    by_cases hm : m = []
    · subst hm
      have hlast := htail.mpr rfl
      have hend : q.next p = none := Linked.next_tail (hlast ▸ hlinked)
      rw [if_pos hlast.symm]
      rw [hend, List.getLast?_concat] at hout
      exact ⟨_, rfl, ⟨hout, hlen⟩, ⟨rfl, rfl, rfl, rfl⟩⟩
    · rw [if_neg fun heq => hm (htail.mp heq.symm)]
      refine ⟨_, rfl, ⟨⟨hout.links, ?_⟩, hlen⟩, ⟨rfl, rfl, rfl, rfl⟩⟩
      rw [hlinked.tail_eq]
      simp only [List.getLast?_append, List.getLast?_cons_of_ne_nil hm,
        List.getLast?_cons_of_ne_nil (List.cons_ne_nil p m)]

omit [DecidableEq P] in
theorem Holds.findPacket (h : q.Holds l) (test : P → Bool) (hfuel : l.length < fuel) :
    (∀ p ∈ l, test p = false) ∧ q.findPacket fuel test = .ok (none, l.getLast?) ∨
      ∃ before p after, l = before ++ p :: after ∧ (∀ u ∈ before, test u = false) ∧
        test p = true ∧ q.findPacket fuel test = .ok (some p, before.getLast?) := by
  have hlinks := h.linked.links
  rw [AodvRqueue.findPacket]
  cases hfind : l.find? test with
  | none =>
      left
      have hnone : ∀ p ∈ l, test p = false := by
        intro p hp
        exact Bool.eq_false_iff.mpr (List.find?_eq_none.mp hfind p hp)
      rw [search_missing hlinks hnone hfuel, Option.or_none]
      exact ⟨hnone, rfl⟩
  | some p =>
      right
      obtain ⟨hp, before, after, rfl, hbefore⟩ := List.find?_eq_some_iff_append.mp hfind
      have hnone : ∀ u ∈ before, test u = false := by
        intro u hu
        simpa using hbefore u hu
      rw [search_found hlinks hnone hp hfuel, Option.or_none]
      exact ⟨before, p, after, rfl, hnone, hp, rfl⟩

/-- The packets whose time is not over stay, in their order. -/
theorem Holds.purge (h : q.Holds l) (hfuel : l.length < fuel) (now : ℚ) {turns : ℕ}
    (hturns : l.length < turns) :
    ∃ q', AodvRqueue.purge fuel now turns q = .ok q' ∧
      q'.Holds (l.filter fun p => ¬q.ts p < now) ∧ Relinked q q' := by
  induction turns generalizing q l with
  | zero => cases hturns
  | succ turns ih =>
      rw [AodvRqueue.purge, findAgedPacket]
      rcases h.findPacket (fun p => q.ts p < now) hfuel with
        ⟨hnone, hfound⟩ | ⟨before, p, after, rfl, hbefore, hp, hfound⟩
      · rw [hfound]
        refine ⟨q, rfl, ?_, ⟨rfl, rfl, rfl, rfl⟩⟩
        rw [List.filter_eq_self.mpr]
        · exact h
        · intro p hp
          exact decide_eq_true (of_decide_eq_false (hnone p hp))
      · obtain ⟨hcheck, q₁, hq₁, hholds, hsame⟩ := h.unlink
        have hlen : (before ++ after).length < (before ++ p :: after).length := by
          simp only [List.length_append, List.length_cons]
          omega
        obtain ⟨q', hq', hholds', hsame'⟩ := ih hholds (hlen.trans hfuel) (by omega)
        have hverify := hholds.verifyQueue (hlen.trans hfuel)
        refine ⟨q', ?_, ?_, hsame.trans hsame'⟩
        · rw [hfound]
          show (do
            q.checkFound (some p) before.getLast?
            let q ← q.unlink p before.getLast?
            q.verifyQueue fuel
            AodvRqueue.purge fuel now turns q) = _
          rw [hcheck, hq₁]
          show (do
            q₁.verifyQueue fuel
            AodvRqueue.purge fuel now turns q₁) = _
          rw [hverify]
          exact hq'
        · rw [hsame.ts_eq, List.filter_append] at hholds'
          rw [List.filter_append, List.filter_cons_of_neg]
          · exact hholds'
          · intro hfresh
            exact of_decide_eq_true hfresh (of_decide_eq_true hp)

/-! ## The calls -/

/-- What is taken out of a list: nothing, or the first packet for its destination. -/
inductive Taken (daddr : P → Addr) (l : List P) : Option P → List P → Prop
  | none : Taken daddr l none l
  | some (before : List P) (p : P) (after : List P) (split : l = before ++ p :: after)
      (first : ∀ u ∈ before, daddr u ≠ daddr p) : Taken daddr l (some p) (before ++ after)

/-- The packets whose time is not over. -/
def fresh (q : AodvRqueue P) (now : ℚ) : List P := q.packets.filter fun p => ¬q.ts p < now

omit [DecidableEq P] in
theorem Holds.fresh_eq (h : q.Holds l) (now : ℚ) :
    q.fresh now = l.filter fun p => ¬q.ts p < now := by
  rw [fresh, h.packets_eq]

omit [DecidableEq P] in
theorem taken_head (daddr : P → Addr) (l : List P) : Taken daddr l l.head? l.tail := by
  cases l with
  | nil => exact .none
  | cons p l => exact .some [] p l rfl fun u hu => by cases hu

omit [DecidableEq P] in
/-- The first element that passes a test is found and taken out. -/
theorem first_passes {test : P → Bool} {before : List P}
    (hbefore : ∀ u ∈ before, test u = false) (hp : test p = true) (after : List P) :
    (before ++ p :: after).find? test = some p ∧
      (before ++ p :: after).eraseP test = before ++ after := by
  have hnot : ∀ u ∈ before, ¬test u = true := fun u hu => Bool.eq_false_iff.mp (hbefore u hu)
  constructor
  · rw [List.find?_append, List.find?_eq_none.mpr hnot, Option.none_or,
      List.find?_cons_of_pos hp]
  · rw [List.eraseP_append_right _ hnot, List.eraseP_cons_of_pos hp]

omit [DecidableEq P] in
theorem taken_find (daddr : P → Addr) (dst : Addr) (l : List P) :
    Taken daddr l (l.find? fun p => daddr p = dst) (l.eraseP fun p => daddr p = dst) := by
  cases hfind : l.find? fun p => daddr p = dst with
  | none =>
      rw [List.eraseP_of_forall_not (List.find?_eq_none.mp hfind)]
      exact .none
  | some p =>
      obtain ⟨hp, before, after, rfl, hbefore⟩ := List.find?_eq_some_iff_append.mp hfind
      have hnone : ∀ u ∈ before, decide (daddr u = dst) = false := by
        intro u hu
        simpa using hbefore u hu
      have herase := (first_passes hnone hp after).2
      rw [herase]
      refine .some before p after rfl fun u hu heq => ?_
      exact of_decide_eq_false (hnone u hu) (heq.trans (of_decide_eq_true hp))

omit [DecidableEq P] in
theorem Holds.find (h : q.Holds l) (hfuel : l.length < fuel) (daddr : P → Addr) (dst : Addr) :
    q.find fuel daddr dst = .ok (l.any fun p => daddr p = dst) := by
  rw [AodvRqueue.find, findPacketWithDst]
  rcases h.findPacket (fun p => daddr p = dst) hfuel with
    ⟨hnone, hfound⟩ | ⟨before, p, after, rfl, hbefore, hp, hfound⟩
  · rw [hfound, List.any_eq_false.mpr fun u hu => Bool.eq_false_iff.mp (hnone u hu)]
    rfl
  · rw [hfound, List.any_eq_true.mpr ⟨p, List.mem_append_cons_self, hp⟩]
    rfl

theorem Holds.deque (h : q.Holds l) (hfuel : l.length < fuel) (now : ℚ) :
    ∃ q', q.deque fuel now = .ok ((q.fresh now).head?, q') ∧ q'.Holds (q.fresh now).tail ∧
      Relinked q q' := by
  obtain ⟨q₁, hpurge, hholds, hsame⟩ := h.purge hfuel now hfuel
  rw [h.fresh_eq, AodvRqueue.deque, hpurge, ok_bind]
  have hle : (l.filter fun p => ¬q.ts p < now).length ≤ l.length := List.length_filter_le _ _
  generalize (l.filter fun p => ¬q.ts p < now) = k at hholds hle
  cases k with
  | nil =>
      obtain ⟨q', hremove, hholds', hsame'⟩ := hholds.removeHead_nil
      refine ⟨q', ?_, hholds', hsame.trans hsame'⟩
      simp only [hremove, ok_bind, hholds'.verifyQueue (hle.trans_lt hfuel)]
      rfl
  | cons p k =>
      obtain ⟨q', hremove, hholds', hsame', -⟩ := Holds.removeHead hholds
      have hlt : k.length < fuel := (Nat.lt_of_succ_le hle).trans hfuel
      refine ⟨q', ?_, hholds', hsame.trans hsame'⟩
      simp only [hremove, ok_bind, hholds'.verifyQueue hlt]
      rfl

theorem Holds.dequeDst (h : q.Holds l) (hfuel : l.length < fuel) (now : ℚ) (daddr : P → Addr)
    (dst : Addr) :
    ∃ q', q.dequeDst fuel daddr dst now =
        .ok ((q.fresh now).find? fun p => daddr p = dst, q') ∧
      q'.Holds ((q.fresh now).eraseP fun p => daddr p = dst) ∧ Relinked q q' := by
  obtain ⟨q₁, hpurge, hholds, hsame⟩ := h.purge hfuel now hfuel
  rw [h.fresh_eq, AodvRqueue.dequeDst, hpurge, ok_bind, findPacketWithDst]
  have hle : (l.filter fun p => ¬q.ts p < now).length ≤ l.length := List.length_filter_le _ _
  generalize (l.filter fun p => ¬q.ts p < now) = k at hholds hle
  have hlt := hle.trans_lt hfuel
  rcases hholds.findPacket (fun p => daddr p = dst) hlt with
    ⟨hnone, hfound⟩ | ⟨before, p, after, rfl, hbefore, hp, hfound⟩
  · have hnot : ∀ u ∈ k, ¬decide (daddr u = dst) = true := fun u hu =>
      Bool.eq_false_iff.mp (hnone u hu)
    rw [List.find?_eq_none.mpr hnot, List.eraseP_of_forall_not hnot]
    refine ⟨q₁, ?_, hholds, hsame⟩
    simp only [hfound, ok_bind, checkFound, true_or, if_true]
    rfl
  · obtain ⟨hcheck, q', hunlink, hholds', hsame'⟩ := hholds.unlink
    have hlen : (before ++ after).length < fuel := by
      simp only [List.length_append, List.length_cons] at hlt ⊢
      omega
    obtain ⟨hfind, herase⟩ := first_passes hbefore hp after
    rw [hfind, herase]
    refine ⟨q', ?_, hholds', hsame.trans hsame'⟩
    simp only [hfound, ok_bind, hcheck, hunlink, hholds'.verifyQueue hlen]
    rfl

/-- What stays of a list when room is made for one more packet. -/
def room (limit : ℤ) (l : List P) : List P := if l.length = limit then l.tail else l

omit [DecidableEq P] in
theorem length_room {limit : ℤ} (hlen : (l.length : ℤ) ≤ limit) (hlimit : 0 < limit) :
    ((room limit l).length : ℤ) < limit := by
  rw [room]
  split
  · next hfull =>
      rw [List.length_tail]
      omega
  · next hroom => exact lt_of_le_of_ne hlen hroom

/-- A full queue drops its first packet. -/
theorem Holds.makeRoom (h : q.Holds l) (hlimit : 0 < q.limit) (now : ℚ) :
    ∃ out q', l = out ++ room q.limit l ∧ q.makeRoom now = .ok q' ∧
      q'.Holds (room q.limit l) ∧ Relinked q { q' with dropped := q.dropped } ∧
      q'.next = q.next ∧ q'.dropped.map Prod.fst = q.dropped.map Prod.fst ++ out := by
  rw [AodvRqueue.makeRoom, room]
  by_cases hfull : q.len = q.limit
  · rw [if_pos hfull]
    rw [h.len_eq] at hfull
    rw [if_pos hfull]
    cases l with
    | nil =>
        rw [List.length_nil, Nat.cast_zero] at hfull
        exact absurd hfull.symm hlimit.ne'
    | cons p0 rest =>
        obtain ⟨q', hremove, hholds, hsame, hnext⟩ := Holds.removeHead h
        simp only [hremove, ok_bind]
        refine ⟨[p0], _, rfl, rfl, ⟨hholds.linked, hholds.len_eq⟩, ?_, hnext, ?_⟩
        · exact ⟨hsame.limit_eq, hsame.timeout_eq, hsame.ts_eq, rfl⟩
        · rw [List.map_append, hsame.dropped_eq]
          rfl
  · rw [if_neg hfull]
    rw [h.len_eq] at hfull
    rw [if_neg hfull]
    exact ⟨[], q, rfl, rfl, h, ⟨rfl, rfl, rfl, rfl⟩, rfl, (List.append_nil _).symm⟩

/-- A packet without a link joins the end of the list. -/
theorem Holds.link (h : q.Holds l) (hp : p ∉ l) (hend : q.next p = none) :
    ∃ q', q.link p = .ok q' ∧ q'.Holds (l ++ [p]) ∧ Relinked q q' := by
  have hlen : q.len + 1 = (l ++ [p]).length := by
    rw [h.len_eq, List.length_append, List.length_singleton]
    exact (Nat.cast_succ _).symm
  have hhead := h.linked.head_eq
  have htail := h.linked.tail_eq
  rw [AodvRqueue.link]
  rcases List.eq_nil_or_concat' l with rfl | ⟨before, t, rfl⟩
  · rw [List.head?_nil] at hhead
    rw [if_pos hhead]
    exact ⟨_, rfl, ⟨⟨⟨rfl, hend⟩, rfl⟩, hlen⟩, ⟨rfl, rfl, rfl, rfl⟩⟩
  · have hne : q.head ≠ none := by
      rw [hhead, ne_eq, List.head?_eq_none_iff]
      exact List.append_ne_nil_of_right_ne_nil _ (List.cons_ne_nil t [])
    rw [List.getLast?_concat] at htail
    have hlinked := (htail ▸ h.linked).append hp
    have hpt : p ≠ t := by
      rintro rfl
      exact hp (List.mem_append_right _ (List.mem_singleton_self p))
    have hsame : Function.update (Function.update q.next t (some p)) p none =
        Function.update q.next t (some p) := by
      rw [Function.update_eq_iff]
      exact ⟨((Function.update_of_ne hpt _ _).trans hend).symm, fun _ _ => rfl⟩
    rw [hsame] at hlinked
    rw [if_neg hne, htail]
    exact ⟨_, rfl, ⟨hlinked, hlen⟩, ⟨rfl, rfl, rfl, rfl⟩⟩

/-- A packet that is not in the queue joins it. -/
theorem Holds.enque (h : q.Holds l) (hp : p ∉ l) (hlen : (l.length : ℤ) ≤ q.limit)
    (hlimit : 0 < q.limit) (hfuel : q.limit < fuel) (now : ℚ) :
    ∃ out q', q.fresh now = out ++ room q.limit (q.fresh now) ∧ q.enque fuel p now = .ok q' ∧
      q'.Holds (room q.limit (q.fresh now) ++ [p]) ∧
      Relinked { q with ts := Function.update q.ts p (now + q.timeout) }
        { q' with dropped := q.dropped } ∧
      q'.dropped.map Prod.fst = q.dropped.map Prod.fst ++ out := by
  have hlt : l.length < fuel := by omega
  obtain ⟨q₁, hpurge, hholds, hsame⟩ := h.purge hlt now hlt
  have hle : ((q.fresh now).length : ℤ) ≤ q.limit := by
    rw [h.fresh_eq]
    exact (Nat.cast_le.mpr (List.length_filter_le _ _)).trans hlen
  have hpf : p ∉ q.fresh now := by
    rw [h.fresh_eq]
    exact fun hmem => hp (List.mem_of_mem_filter hmem)
  rw [← h.fresh_eq] at hholds
  rw [AodvRqueue.enque, hpurge, ok_bind]
  -- the fields of a packet that is not in the queue
  have hmarked : ({ q₁ with next := Function.update q₁.next p none,
                            ts := Function.update q₁.ts p (now + q₁.timeout) } :
      AodvRqueue P).Holds (q.fresh now) :=
    ⟨hholds.linked.update hpf none, hholds.len_eq⟩
  obtain ⟨out, q₂, hout, hroom, hholds₂, hsame₂, hnext₂, hdropped₂⟩ :=
    hmarked.makeRoom (hsame.limit_eq ▸ hlimit) now
  dsimp only at hout hholds₂ hnext₂ hdropped₂
  rw [hsame.limit_eq] at hout hholds₂
  have hend : q₂.next p = none := by
    rw [hnext₂]
    exact Function.update_self ..
  have hpr : p ∉ room q.limit (q.fresh now) := fun hmem =>
    hpf (hout ▸ List.mem_append_right out hmem)
  obtain ⟨q', hlink, hholds', hsame'⟩ := hholds₂.link hpr hend
  have hlen' : (room q.limit (q.fresh now) ++ [p]).length < fuel := by
    have hlt' := length_room hle hlimit
    rw [List.length_append, List.length_singleton]
    omega
  refine ⟨out, q', hout, ?_, hholds', ⟨?_, ?_, ?_, rfl⟩, ?_⟩
  · simp only [hroom, ok_bind, hlink, hholds'.verifyQueue hlen']
    rfl
  · exact (hsame'.limit_eq.trans hsame₂.limit_eq).trans hsame.limit_eq
  · exact (hsame'.timeout_eq.trans hsame₂.timeout_eq).trans hsame.timeout_eq
  · rw [hsame'.ts_eq, hsame₂.ts_eq]
    dsimp only
    rw [hsame.ts_eq, hsame.timeout_eq]
  · rw [hsame'.dropped_eq, hdropped₂, hsame.dropped_eq]

end AodvRqueue

end ComputerNetworking.Aodv
